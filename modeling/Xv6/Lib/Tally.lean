import Mathlib.Algebra.BigOperators.Group.Finset.Basic
import Mathlib.Algebra.Order.BigOperators.Group.Finset
import Mathlib.Data.Fintype.BigOperators

/-!
# Counting the parties in a given control state

`tally p f` is the number of parties `t` whose control state `f t` satisfies `p`.
-/

namespace Tally

open Function Finset

variable {T α : Type*} [Fintype T]

/-- The number of parties whose control state satisfies `p`. -/
def tally (p : α → Bool) (f : T → α) : ℕ := (univ.filter fun t => p (f t)).card

theorem tally_eq_sum (p : α → Bool) (f : T → α) : tally p f = ∑ t, (p (f t)).toNat := by
  rw [tally, card_filter]
  refine sum_congr rfl fun t _ => ?_
  cases p (f t) <;> rfl

theorem tally_congr {p : α → Bool} {f g : T → α} (h : ∀ t, p (f t) = p (g t)) :
    tally p f = tally p g := by
  simp only [tally, h]

theorem tally_pos {p : α → Bool} {f : T → α} {t : T} (h : p (f t)) : 0 < tally p f :=
  card_pos.2 ⟨t, by simpa using h⟩

theorem eq_of_tally_eq_zero {p : α → Bool} {f : T → α} (h : tally p f = 0) (t : T) :
    p (f t) = false := by
  by_contra hp
  have := tally_pos (p := p) (f := f) (t := t) (by simpa using hp)
  omega

theorem le_sum (f : T → ℕ) (t : T) : f t ≤ ∑ u, f u :=
  single_le_sum (fun _ _ => Nat.zero_le _) (mem_univ t)

variable [DecidableEq T]

theorem sum_of_eq_off {f g : T → ℕ} (t : T) (h : ∀ u, u ≠ t → g u = f u) :
    ∑ u, g u + f t = ∑ u, f u + g t := by
  have hrest : ∑ u ∈ univ.erase t, g u = ∑ u ∈ univ.erase t, f u :=
    sum_congr rfl fun u hu => h u (ne_of_mem_erase hu)
  have hf := add_sum_erase _ f (mem_univ t)
  have hg := add_sum_erase _ g (mem_univ t)
  omega

theorem sum_update (g : α → ℕ) (f : T → α) (t : T) (a : α) :
    ∑ u, g (update f t a u) + g (f t) = ∑ u, g (f u) + g a := by
  have := sum_of_eq_off (f := fun u => g (f u)) (g := fun u => g (update f t a u)) t
    fun u hu => by rw [update_of_ne hu]
  simpa only [update_self] using this

theorem tally_update (p : α → Bool) (f : T → α) (t : T) (a : α) :
    tally p (update f t a) + (p (f t)).toNat = tally p f + (p a).toNat := by
  simp only [tally_eq_sum]
  exact sum_update (fun a => (p a).toNat) f t a

omit [Fintype T] in
theorem update_proj {β : Type*} (g : α → β) {f : T → α} {t : T} {a : α} (h : g a = g (f t))
    (u : T) : g (update f t a u) = g (f u) := by
  by_cases hu : u = t
  · rw [hu, update_self, h]
  · rw [update_of_ne hu]

end Tally
