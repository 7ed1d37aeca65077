import Mathlib.Data.Set.Insert
import Mathlib.Data.Nat.Notation
import Mathlib.Tactic.TypeStar

/-!
# Cells with a free list

A heap has cells, and a list of those that are free.  `Own A h G`: of the cells `A`, those of the
list and those of `G` are different ones.  `Moves A h h' G G'`: what a program that owns the cells
`G` does when it leaves the cells `G'`: it takes cells from the list and gives cells back, and it
changes nothing else (`frame`).  `Parts A h G`: every cell of `A` is free or has one of the owners
`i`, who has the cells `G i`.
-/

structure Heap (β : Type*) where
  mem : ℕ → β
  freelist : List ℕ

namespace Heap

open List

variable {β : Type*} {A G G' G'' H : Set ℕ} {h h' h'' : Heap β} {f : ℕ}

/-- The cells of `G` and those of the free list are different cells of `A`. -/
structure Own (A : Set ℕ) (h : Heap β) (G : Set ℕ) : Prop where
  nodup : h.freelist.Nodup
  avail : ∀ f, f ∈ G ∨ f ∈ h.freelist → f ∈ A
  apart : ∀ f ∈ G, f ∉ h.freelist

/-- From the heap `h` and the cells `G` to the heap `h'` and the cells `G'`. -/
structure Moves (A : Set ℕ) (h h' : Heap β) (G G' : Set ℕ) : Prop where
  own : Own A h' G'
  total : ∀ f, f ∈ G' ∨ f ∈ h'.freelist ↔ f ∈ G ∨ f ∈ h.freelist
  frame : ∀ f, f ∉ G → f ∉ h.freelist → h'.mem f = h.mem f

theorem Own.mono (ho : Own A h G) (hsub : H ⊆ G) : Own A h H where
  nodup := ho.nodup
  avail f hf := ho.avail f (hf.imp_left fun h => hsub h)
  apart f hf := ho.apart f (hsub hf)

namespace Moves

theorem refl (ho : Own A h G) : Moves A h h G G := ⟨ho, fun _ => .rfl, fun _ _ _ => rfl⟩

theorem trans (h₁ : Moves A h h' G G') (h₂ : Moves A h' h'' G' G'') : Moves A h h'' G G'' where
  own := h₂.own
  total f := (h₂.total f).trans (h₁.total f)
  frame f hG hfree := by
    have hout : ¬ (f ∈ G' ∨ f ∈ h'.freelist) := by
      rw [h₁.total]
      simp [hG, hfree]
    rw [not_or] at hout
    rw [h₂.frame f hout.1 hout.2, h₁.frame f hG hfree]

theorem take {rest : List ℕ} (ho : Own A h G) (hfree : h.freelist = f :: rest)
    (hrest : h'.freelist = rest) (hmem : h'.mem = h.mem) : Moves A h h' G (insert f G) where
  own :=
    { nodup := by
        have := ho.nodup
        rw [hfree, nodup_cons] at this
        exact hrest ▸ this.2
      avail := by
        rintro g ((rfl | hg) | hg)
        · exact ho.avail g (.inr (hfree ▸ mem_cons_self))
        · exact ho.avail g (.inl hg)
        · exact ho.avail g (.inr (hfree ▸ mem_cons_of_mem _ (hrest ▸ hg)))
      apart := by
        have := ho.nodup
        rw [hfree, nodup_cons] at this
        rintro g (rfl | hg)
        · exact hrest ▸ this.1
        · have hapart := ho.apart g hg
          rw [hfree, mem_cons, not_or] at hapart
          exact hrest ▸ hapart.2 }
  total g := by
    rw [hfree, hrest, Set.mem_insert_iff, mem_cons, or_assoc, or_left_comm]
  frame g _ _ := by rw [hmem]

theorem give (ho : Own A h G) (hf : f ∈ G) (hfree : h'.freelist = f :: h.freelist)
    (hmem : ∀ g, g ≠ f → h'.mem g = h.mem g) : Moves A h h' G (G \ {f}) where
  own :=
    { nodup := by
        rw [hfree, nodup_cons]
        exact ⟨ho.apart f hf, ho.nodup⟩
      avail := by
        rintro g (hg | hg)
        · exact ho.avail g (.inl hg.1)
        · rw [hfree, mem_cons] at hg
          rcases hg with rfl | hg
          · exact ho.avail g (.inl hf)
          · exact ho.avail g (.inr hg)
      apart := by
        intro g hg
        rw [hfree, mem_cons, not_or]
        exact ⟨hg.2, ho.apart g hg.1⟩ }
  total g := by
    rw [hfree, mem_cons, Set.mem_sdiff, Set.mem_singleton_iff]
    by_cases hgf : g = f
    · subst hgf
      simp [hf]
    · simp [hgf]
  frame g hG _ := hmem g fun hgf => hG (hgf ▸ hf)

theorem write (ho : Own A h G) (hfree : h'.freelist = h.freelist)
    (hmem : ∀ g, g ∉ G → h'.mem g = h.mem g) : Moves A h h' G G where
  own := ⟨hfree ▸ ho.nodup, hfree ▸ ho.avail, hfree ▸ ho.apart⟩
  total f := by rw [hfree]
  frame f hG _ := hmem f hG

section

variable (hm : Moves A h h' G G') (ho : Own A h (G ∪ H)) (hdisj : ∀ f ∈ H, f ∉ G)

include hm ho hdisj

theorem beside : Moves A h h' (G ∪ H) (G' ∪ H) where
  own :=
    { nodup := hm.own.nodup
      avail := by
        rintro f ((hf | hf) | hf)
        · exact hm.own.avail f (.inl hf)
        · exact ho.avail f (.inl (.inr hf))
        · exact hm.own.avail f (.inr hf)
      apart := by
        rintro f (hf | hf) hfree
        · exact hm.own.apart f hf hfree
        · rcases (hm.total f).1 (.inr hfree) with hG | hfree
          · exact hdisj f hf hG
          · exact ho.apart f (.inr hf) hfree }
  total f := by
    rw [Set.mem_union, Set.mem_union, or_right_comm, hm.total, or_right_comm]
  frame f hG hfree := hm.frame f (fun h => hG (.inl h)) hfree

theorem kept (hf : f ∈ H) : h'.mem f = h.mem f :=
  hm.frame f (hdisj f hf) (ho.apart f (.inr hf))

theorem disjoint : ∀ f ∈ H, f ∉ G' := by
  intro f hf hG'
  rcases (hm.total f).1 (.inl hG') with hG | hfree
  · exact hdisj f hf hG
  · exact ho.apart f (.inr hf) hfree

end

end Moves

/-! ## Several owners -/

section Parts

variable {ι : Type*} {P P' : ι → Set ℕ} {i j : ι}

/-- Every cell of `A` is free or has one owner. -/
structure Parts (A : Set ℕ) (h : Heap β) (P : ι → Set ℕ) : Prop where
  nodup : h.freelist.Nodup
  mem_iff : ∀ f, f ∈ A ↔ f ∈ h.freelist ∨ ∃ i, f ∈ P i
  apart : ∀ i, ∀ f ∈ P i, f ∉ h.freelist
  inj : ∀ i j f, f ∈ P i → f ∈ P j → i = j

namespace Parts

theorem own (hp : Parts A h P) (i : ι) : Own A h (P i) where
  nodup := hp.nodup
  avail f hf := (hp.mem_iff f).2 (hf.symm.imp_right fun h => ⟨i, h⟩)
  apart := hp.apart i

theorem kept (hp : Parts A h P) (hm : Moves A h h' (P i) G') (hji : j ≠ i) (hf : f ∈ P j) :
    h'.mem f = h.mem f :=
  hm.frame f (fun hi => hji (hp.inj j i f hf hi)) (hp.apart j f hf)

theorem moves (hp : Parts A h P) (hm : Moves A h h' (P i) G') (hself : P' i = G')
    (hother : ∀ j, j ≠ i → P' j = P j) : Parts A h' P' where
  nodup := hm.own.nodup
  mem_iff f := by
    have hothers : (∃ j, j ≠ i ∧ f ∈ P' j) ↔ ∃ j, j ≠ i ∧ f ∈ P j :=
      exists_congr fun j => and_congr_right fun hj => by rw [hother j hj]
    have hsplit : ∀ Q : ι → Set ℕ, (∃ j, f ∈ Q j) ↔ f ∈ Q i ∨ ∃ j, j ≠ i ∧ f ∈ Q j := by
      intro Q
      constructor
      · rintro ⟨j, hj⟩
        by_cases hji : j = i
        · exact .inl (hji ▸ hj)
        · exact .inr ⟨j, hji, hj⟩
      · rintro (hi | ⟨j, -, hj⟩)
        · exact ⟨i, hi⟩
        · exact ⟨j, hj⟩
    rw [hp.mem_iff, hsplit P', hsplit P, hself, hothers, ← or_assoc, ← or_assoc,
      or_comm (b := f ∈ P i), or_comm (b := f ∈ G'), hm.total]
  apart j f hf hfree := by
    by_cases hji : j = i
    · subst hji
      exact hm.own.apart f (hself ▸ hf) hfree
    · rw [hother j hji] at hf
      rcases (hm.total f).1 (.inr hfree) with hi | hfree
      · exact hji (hp.inj j i f hf hi)
      · exact hp.apart j f hf hfree
  inj := by
    -- a cell of another owner did not go to `i`
    have hout : ∀ j, j ≠ i → ∀ f, f ∈ P' j → f ∉ P' i := by
      intro j hji f hj hi
      rw [hother j hji] at hj
      rw [hself] at hi
      rcases (hm.total f).1 (.inl hi) with hi | hfree
      · exact hji (hp.inj j i f hj hi)
      · exact hp.apart j f hj hfree
    intro j l f hj hl
    by_cases hji : j = i
    · by_cases hli : l = i
      · rw [hji, hli]
      · exact (hout l hli f hl (hji ▸ hj)).elim
    · by_cases hli : l = i
      · exact (hout j hji f hj (hli ▸ hl)).elim
      · rw [hother j hji] at hj
        rw [hother l hli] at hl
        exact hp.inj j l f hj hl

end Parts

end Parts

end Heap
