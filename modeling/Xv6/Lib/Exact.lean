import Mathlib.Data.Set.Insert
import Mathlib.Data.Nat.Notation
import Mathlib.Logic.Function.Basic

/-!
# Exact ownership

`p : α → ℕ` is a table of pointers, with `0` for none.  `Exact p U` says that no number is in two
places of the table, and that the numbers in the table are exactly those of `U`.
-/

/-- The pointers of the table are distinct, and they are the numbers of `U`. -/
structure Exact {α : Type*} (p : α → ℕ) (U : Set ℕ) : Prop where
  inj : ∀ a a', p a ≠ 0 → p a = p a' → a = a'
  mem_iff : ∀ b, b ∈ U ↔ b ≠ 0 ∧ ∃ a, p a = b

namespace Exact

variable {α : Type*} {p p' : α → ℕ} {U U' : Set ℕ} {a : α} {b : ℕ}

theorem mem (h : Exact p U) (ha : p a ≠ 0) : p a ∈ U := (h.mem_iff _).2 ⟨ha, a, rfl⟩

theorem congr (h : Exact p U) (hp : ∀ a, p' a = p a) : Exact p' U := by
  obtain rfl : p' = p := funext hp
  exact h

theorem add [DecidableEq α] (h : Exact p U) (ha : p a = 0) (hb : b ≠ 0) (hU : b ∉ U)
    (hp : ∀ a', p' a' = if a' = a then b else p a') : Exact p' (insert b U) where
  inj x y hx hxy := by
    have hold : ∀ z, p z = b → False := fun z hz => hU ((h.mem_iff b).2 ⟨hb, z, hz⟩)
    rw [hp] at hx
    rw [hp x, hp y] at hxy
    split_ifs at hx hxy with hxa hya hya
    · exact hxa.trans hya.symm
    · exact (hold y hxy.symm).elim
    · exact (hold x hxy).elim
    · exact h.inj x y hx hxy
  mem_iff c := by
    rw [Set.mem_insert_iff, h.mem_iff]
    constructor
    · rintro (rfl | ⟨hc, x, rfl⟩)
      · exact ⟨hb, a, by rw [hp, if_pos rfl]⟩
      · refine ⟨hc, x, ?_⟩
        rw [hp, if_neg]
        rintro rfl
        exact hc ha
    · rintro ⟨hc, x, rfl⟩
      rw [hp x] at hc ⊢
      split_ifs with hxa
      · exact .inl rfl
      · rw [if_neg hxa] at hc
        exact .inr ⟨hc, x, rfl⟩

theorem clear {C : α → Prop} [DecidablePred C] (h : Exact p U)
    (hp : ∀ a, p' a = if C a then 0 else p a) (hU : ∀ c, c ∈ U' ↔ c ∈ U ∧ ∀ a, C a → p a ≠ c) :
    Exact p' U' where
  inj x y hx hxy := by
    rw [hp] at hx
    rw [hp x, hp y] at hxy
    split_ifs at hx hxy with hxC hyC
    · exact absurd rfl hx
    · exact absurd rfl hx
    · exact absurd hxy hx
    · exact h.inj x y hx hxy
  mem_iff c := by
    rw [hU, h.mem_iff]
    constructor
    · rintro ⟨⟨hc, x, rfl⟩, hx⟩
      refine ⟨hc, x, ?_⟩
      rw [hp, if_neg]
      exact fun hC => hx x hC rfl
    · rintro ⟨hc, x, hx⟩
      rw [hp] at hx
      split_ifs at hx with hC
      · exact absurd hx.symm hc
      · refine ⟨⟨hc, x, hx⟩, fun y hy hyc => ?_⟩
        have hxy : x = y := h.inj x y (hx ▸ hc) (hx.trans hyc.symm)
        exact hC (hxy ▸ hy)

end Exact
