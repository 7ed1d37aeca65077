import Mathlib.Data.Nat.Notation
import Mathlib.Data.List.Basic

/-!
# The matcher of `grep`

`match`, `matchhere` and `matchstar` of `grep.c`.  `Matches` is the language of a pattern.
-/

namespace Xv6.Grep

/-- The bytes of a C string before its NUL. -/
abbrev Str := List UInt8

def star : UInt8 := 42
def dot : UInt8 := 46
def dollar : UInt8 := 36
def caret : UInt8 := 94

/-- The loop of `matchstar`; `here` is `matchhere` of the rest of the pattern. -/
def matchstar (c : UInt8) (here : Str → Bool) : Str → Bool
  | [] => here []
  | x :: text => here (x :: text) || ((x == c || c == dot) && matchstar c here text)

def matchhere : Str → Str → Bool
  | [], _ => true
  | [c], text =>
    if c = dollar then text.isEmpty
    else match text with
      | [] => false
      | x :: _ => c == dot || c == x
  | c :: d :: re, text =>
    if d = star then matchstar c (matchhere re) text
    else match text with
      | [] => false
      | x :: text => (c == dot || c == x) && matchhere (d :: re) text

/-- The loop of `match`, over the suffixes of the text. -/
def matchFrom (re : Str) : Str → Bool
  | [] => matchhere re []
  | x :: text => matchhere re (x :: text) || matchFrom re text

def reMatch (re text : Str) : Bool :=
  if re.head? = some caret then matchhere re.tail text else matchFrom re text

/-- The character of the text is one that the character of the pattern stands for. -/
def Stands (c x : UInt8) : Prop := c = dot ∨ c = x

/-- `Matches re w rest`: the pattern matches `w`, in a text that goes on with `rest`. -/
inductive Matches : Str → Str → Str → Prop where
  | nil (rest : Str) : Matches [] [] rest
  | star {c : UInt8} {re v w rest : Str} (hv : ∀ x ∈ v, Stands c x) (h : Matches re w rest) :
      Matches (c :: star :: re) (v ++ w) rest
  | eol : Matches [dollar] [] []
  | one {c x : UInt8} {re w rest : Str} (hstar : re.head? ≠ some Grep.star) (heol : c = dollar →
    re ≠ [])
      (hx : Stands c x) (h : Matches re w rest) : Matches (c :: re) (x :: w) rest

theorem stands_iff {c x : UInt8} : (c == dot || c == x) ↔ Stands c x := by
  simp [Stands]

theorem matchstar_iff {c : UInt8} {here : Str → Bool} {text : Str} : matchstar c here text ↔
    ∃ v rest, text = v ++ rest ∧ (∀ x ∈ v, Stands c x) ∧ here rest := by
  induction text with
  | nil =>
    constructor
    · intro h
      exact ⟨[], [], rfl, by simp, h⟩
    · rintro ⟨v, rest, heq, -, h⟩
      obtain ⟨rfl, rfl⟩ := List.append_eq_nil_iff.1 heq.symm
      exact h
  | cons x text ih =>
    rw [matchstar, Bool.or_eq_true, Bool.and_eq_true, ih,
      show (x == c || c == dot) = (c == dot || c == x) by
      rw [Bool.or_comm, BEq.comm (a := x)], stands_iff]
    constructor
    · rintro (h | ⟨hx, v, rest, rfl, hv, h⟩)
      · exact ⟨[], x :: text, rfl, by simp, h⟩
      · exact ⟨x :: v, rest, rfl, by simpa using ⟨hx, hv⟩, h⟩
    · rintro ⟨v, rest, heq, hv, h⟩
      cases v with
      | nil => exact .inl (heq ▸ h)
      | cons y v =>
        obtain ⟨rfl, rfl⟩ := List.cons.inj heq
        exact .inr ⟨hv x (by simp), v, rest, rfl, fun y hy => hv y (by simp [hy]), h⟩

section

variable {c : UInt8} {re text : Str} (hstar : re.head? ≠ some star) (heol : c = dollar → re ≠ [])

include hstar heol

theorem matches_one_iff : (∃ w rest, text = w ++ rest ∧ Matches (c :: re) w rest) ↔
      ∃ x tail, text = x :: tail ∧ Stands c x ∧ ∃ w rest, tail = w ++ rest ∧ Matches re w rest := by
  constructor
  · rintro ⟨w, rest, rfl, h⟩
    cases h with
    | star hv h => simp at hstar
    | eol => exact absurd rfl (heol rfl)
    | @one _ x _ w _ _ _ hx h => exact ⟨x, w ++ rest, rfl, hx, w, rest, rfl, h⟩
  · rintro ⟨x, tail, rfl, hx, w, rest, rfl, h⟩
    exact ⟨x :: w, rest, rfl, .one hstar heol hx h⟩

theorem matchhere_one :
    matchhere (c :: re) text ↔ ∃ x tail, text = x :: tail ∧ Stands c x ∧ matchhere re tail := by
  cases text with
  | nil => cases re <;> simp_all [matchhere]
  | cons x text => cases re <;> simp_all [matchhere, ← stands_iff]

end

theorem matchhere_iff : ∀ {re text : Str},
    matchhere re text ↔ ∃ w rest, text = w ++ rest ∧ Matches re w rest
  | [], text => ⟨fun _ => ⟨[], text, rfl, .nil text⟩, fun _ => by rw [matchhere]⟩
  | [c], text => by
    by_cases hc : c = dollar
    · subst hc
      have heq : matchhere [dollar] text = text.isEmpty := by cases text <;> rfl
      rw [heq, List.isEmpty_iff]
      constructor
      · rintro rfl
        exact ⟨[], [], rfl, .eol⟩
      · rintro ⟨w, rest, rfl, h⟩
        cases h with
        | eol => rfl
        | one _ heol _ _ => exact absurd rfl (heol rfl)
    · rw [matches_one_iff (by simp) fun h => absurd h hc, matchhere_one (by simp) fun h =>
        absurd h hc]
      simp only [@matchhere_iff []]
  | c :: d :: re, text => by
    by_cases hd : d = star
    · subst hd
      have heq : matchhere (c :: star :: re) text = matchstar c (matchhere re) text := by
        cases text <;> rfl
      rw [heq, matchstar_iff]
      constructor
      · rintro ⟨v, tail, rfl, hv, h⟩
        obtain ⟨w, rest, rfl, hm⟩ := matchhere_iff.1 h
        exact ⟨v ++ w, rest, (List.append_assoc ..).symm, .star hv hm⟩
      · rintro ⟨w, rest, rfl, h⟩
        cases h with
        | @star _ _ v w _ hv h =>
          exact ⟨v, w ++ rest, List.append_assoc .., hv, matchhere_iff.2 ⟨w, rest, rfl, h⟩⟩
        | one hstar _ _ _ => simp at hstar
    · rw [matches_one_iff (by simpa using hd) (by simp),
        matchhere_one (by simpa using hd) (by simp)]
      simp only [@matchhere_iff (d :: re)]

theorem matchFrom_iff {re text : Str} : matchFrom re text ↔
    ∃ a b, text = a ++ b ∧ matchhere re b := by
  induction text with
  | nil => simp [matchFrom, List.append_eq_nil_iff, and_assoc]
  | cons x text ih =>
    rw [matchFrom, Bool.or_eq_true, ih]
    constructor
    · rintro (h | ⟨a, b, rfl, h⟩)
      · exact ⟨[], x :: text, rfl, h⟩
      · exact ⟨x :: a, b, rfl, h⟩
    · rintro ⟨a, b, heq, h⟩
      cases a with
      | nil => exact .inl (heq ▸ h)
      | cons y a => exact .inr ⟨a, b, (List.cons.inj heq).2, h⟩

/-- `match` returns 1 exactly when some substring of the text matches the pattern, or, for a pattern
that starts with `^`, the text has a beginning that matches what follows the `^`. -/
theorem match_iff (re text : Str) : reMatch re text ↔
    if re.head? = some caret then ∃ w rest, text = w ++ rest ∧ Matches re.tail w rest
    else ∃ a w rest, text = a ++ w ++ rest ∧ Matches re w rest := by
  unfold reMatch
  split_ifs with h
  · exact matchhere_iff
  · rw [matchFrom_iff]
    constructor
    · rintro ⟨a, b, rfl, h⟩
      obtain ⟨w, rest, rfl, hm⟩ := matchhere_iff.1 h
      exact ⟨a, w, rest, (List.append_assoc ..).symm, hm⟩
    · rintro ⟨a, w, rest, rfl, h⟩
      exact ⟨a, w ++ rest, List.append_assoc .., matchhere_iff.2 ⟨w, rest, rfl, h⟩⟩

end Xv6.Grep
