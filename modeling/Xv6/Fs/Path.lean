import Xv6.Param
import Mathlib.Data.List.TakeWhile

/-!
# Path names

`skipelem` and `namecmp` of `fs.c`.  A path or a name is the list of its bytes before the
terminating NUL.  `pathElems` is the sequence of names that the loop of `namex` gets from
`skipelem`.
-/

namespace Xv6

open List

/-- The bytes of a C string before its NUL. -/
abbrev Name := List UInt8

def slash : UInt8 := 47

def dot : Name := [46]

def dotdot : Name := [46, 46]

/-- `namecmp(s, t) == 0`. -/
def namecmp (s t : Name) : Bool := s.take DIRSIZ == t.take DIRSIZ

theorem namecmp_iff {s t : Name} : namecmp s t ↔ s.take DIRSIZ = t.take DIRSIZ := by
  simp [namecmp]

/-- The first element of a path, cut to `DIRSIZ` bytes, and the path after it. -/
def skipelem (path : Name) : Option (Name × Name) :=
  let path := path.dropWhile (· == slash)
  if path = [] then none
  else
    some ((path.takeWhile (· != slash)).take DIRSIZ,
      (path.dropWhile (· != slash)).dropWhile (· == slash))

theorem length_dropWhile_le (p : UInt8 → Bool) (l : Name) : (l.dropWhile p).length ≤ l.length :=
  (dropWhile_sublist p).length_le

theorem skipelem_length_lt {path name rest : Name} (h : skipelem path = some (name, rest)) :
    rest.length < path.length := by
  simp only [skipelem] at h
  split_ifs at h with hne
  obtain ⟨-, rfl⟩ := Prod.mk.inj (Option.some.inj h)
  obtain ⟨c, l, hl⟩ := exists_cons_of_ne_nil hne
  have hc : (c != slash) := by
    have := head_dropWhile_not (· == slash) hne
    simpa [hl] using this
  calc _ ≤ ((path.dropWhile (· == slash)).dropWhile (· != slash)).length := length_dropWhile_le _ _
    _ = (l.dropWhile (· != slash)).length := by
      rw [hl, dropWhile_cons_of_pos (p := (· != slash)) hc]
    _ ≤ l.length := length_dropWhile_le _ _
    _ < (path.dropWhile (· == slash)).length := by simp [hl]
    _ ≤ path.length := length_dropWhile_le _ _

/-- At most `n` names of a path. -/
def pathElemsUpTo : ℕ → Name → List Name
  | 0, _ => []
  | n + 1, path =>
    match skipelem path with
    | none => []
    | some (name, rest) => name :: pathElemsUpTo n rest

/-- The names of a path, as `skipelem` returns them one after the other. -/
def pathElems (path : Name) : List Name := pathElemsUpTo path.length path

theorem pathElemsUpTo_of_length_le {n : ℕ} {path : Name} (h : path.length ≤ n) :
    pathElemsUpTo n path = pathElems path := by
  induction n using Nat.strong_induction_on generalizing path with
  | _ n ih =>
    cases n with
    | zero =>
      obtain rfl : path = [] := eq_nil_of_length_eq_zero (by omega)
      rfl
    | succ n =>
      cases path with
      | nil => rfl
      | cons c l =>
        rw [pathElems, length_cons, pathElemsUpTo, pathElemsUpTo]
        split
        · rfl
        · next name rest hs =>
          have hlt := skipelem_length_lt hs
          simp only [length_cons] at h hlt
          rw [ih n (by omega) (by omega), ih l.length (by omega) (by omega)]

theorem pathElems_eq (path : Name) : pathElems path = match skipelem path with
      | none => []
      | some (name, rest) => name :: pathElems rest := by
  cases path with
  | nil => rfl
  | cons c l =>
    rw [pathElems, length_cons, pathElemsUpTo]
    split
    · rfl
    · next name rest hs =>
      have hlt := skipelem_length_lt hs
      rw [pathElemsUpTo_of_length_le (by simp only [length_cons] at hlt; omega)]

end Xv6
