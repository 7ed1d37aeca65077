import Mathlib.Data.Nat.Notation
import Mathlib.Data.List.GetD
import Mathlib.Tactic.SplitIfs

/-!
# Overwriting a part of a list

`overwrite l off src` is the list `l` with `src` in the places from `off` on; it gets longer if
`src` goes beyond its end.
-/

namespace Overwrite

open List

variable {α : Type*}

/-- `src` in the places from `off` on. -/
def overwrite (l : List α) (off : ℕ) (src : List α) :
    List α := l.take off ++ src ++ l.drop (off + src.length)

section

variable {l : List α} {off : ℕ} (src : List α) (h : off ≤ l.length)

include src h

theorem length_overwrite : (overwrite l off src).length = max l.length (off + src.length) := by
  simp only [overwrite, length_append, length_take, length_drop]
  omega

theorem getElem?_overwrite (k : ℕ) :
    (overwrite l off src)[k]? = if off ≤ k ∧ k < off + src.length then src[k - off]? else
      l[k]? := by
  have hlen : (l.take off).length = off := by
    rw [length_take]
    omega
  unfold overwrite
  by_cases h₁ : k < off
  · rw [if_neg (by omega), append_assoc, getElem?_append_left (by omega), getElem?_take_of_lt h₁]
  · by_cases h₂ : k < off + src.length
    · rw [if_pos ⟨by omega, h₂⟩, append_assoc, getElem?_append_right (by omega), hlen,
        getElem?_append_left (by omega)]
    · rw [if_neg (by omega), getElem?_append_right (by rw [length_append]; omega), length_append,
        hlen,
        getElem?_drop]
      congr 1
      omega

theorem getD_overwrite (k : ℕ) (a : α) :
    (overwrite l off src).getD k a = if off ≤ k ∧ k < off + src.length then
      src.getD (k - off) a else l.getD k a := by
  simp only [getD_eq_getElem?_getD, getElem?_overwrite src h k]
  split_ifs <;> rfl

theorem take_drop_overwrite : ((overwrite l off src).drop off).take src.length = src := by
  refine ext_getElem? fun k => ?_
  by_cases hk : k < src.length
  · rw [getElem?_take_of_lt hk, getElem?_drop, getElem?_overwrite src h, if_pos (by omega),
      Nat.add_sub_cancel_left]
  · rw [getElem?_eq_none (by rw [length_take]; omega), getElem?_eq_none (by omega)]

end

theorem take_drop_overwrite_of_disjoint {l : List α} {off a n : ℕ} (src : List α)
    (h : off ≤ l.length) (hd : a + n ≤ off ∨ off + src.length ≤ a) :
    ((overwrite l off src).drop a).take n = (l.drop a).take n := by
  refine ext_getElem? fun k => ?_
  by_cases hk : k < n
  · rw [getElem?_take_of_lt hk, getElem?_take_of_lt hk, getElem?_drop, getElem?_drop,
      getElem?_overwrite src h, if_neg (by omega)]
  · rw [getElem?_eq_none (by rw [length_take]; omega),
      getElem?_eq_none (by rw [length_take]; omega)]

theorem ext_getD {l l' : List α} (a : α) (hlen : l.length = l'.length)
    (h : ∀ k < l.length, l.getD k a = l'.getD k a) : l = l' := by
  refine ext_getElem hlen fun k h₁ h₂ => ?_
  have := h k h₁
  rwa [getD_eq_getElem _ _ h₁, getD_eq_getElem _ _ h₂] at this

theorem overwrite_nil (l : List α) (off : ℕ) : overwrite l off [] = l := by
  simp [overwrite]

theorem overwrite_append {l : List α} {off : ℕ} (a b : List α) (h : off ≤ l.length) :
    overwrite (overwrite l off a) (off + a.length) b = overwrite l off (a ++ b) := by
  have hlen : (l.take off ++ a).length = off + a.length := by
    rw [length_append, length_take]
    omega
  have htake : (overwrite l off a).take (off + a.length) = l.take off ++ a := by
    rw [overwrite, ← hlen, take_left]
  have hdrop : (overwrite l off a).drop (off + a.length + b.length) = l.drop
    (off + (a ++ b).length) := by
    have hsub : off + a.length + b.length - (l.take off ++ a).length = b.length := by omega
    rw [overwrite, drop_append, drop_eq_nil_of_le (by omega), hsub, nil_append, drop_drop,
      length_append, Nat.add_assoc]
  rw [overwrite, htake, hdrop, append_assoc (l.take off), overwrite]

end Overwrite
