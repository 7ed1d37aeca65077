import Mathlib.Logic.Function.Basic
import Mathlib.Data.List.Nodup
import Mathlib.Data.List.Basic

/-!
# Linked lists

A link is an optional element, and `q a` is the link stored in element `a`.  `Path q p l` says that
the links lead from `p` through the elements of `l` in order, and end there.
-/

namespace Linked

open Function List

variable {α : Type*} {q q' : α → Option α} {p : Option α} {l l' : List α} {a b : α}

/-- The links lead from `p` through the elements of the list, and end. -/
def Path (q : α → Option α) : Option α → List α → Prop
  | p, [] => p = none
  | p, a :: l => p = some a ∧ Path q (q a) l

theorem Path.nil_iff : Path q p [] ↔ p = none := Iff.rfl

theorem Path.cons_iff : Path q p (a :: l) ↔ p = some a ∧ Path q (q a) l := Iff.rfl

theorem Path.congr (h : Path q p l) (hq : ∀ a ∈ l, q' a = q a) : Path q' p l := by
  induction l generalizing p with
  | nil => exact h
  | cons a l ih =>
    refine ⟨h.1, ?_⟩
    rw [hq a mem_cons_self]
    exact ih h.2 fun b hb => hq b (mem_cons_of_mem _ hb)

theorem Path.eq_nil_iff (h : Path q p l) : l = [] ↔ p = none := by
  cases l with
  | nil => exact ⟨fun _ => h, fun _ => rfl⟩
  | cons a l => exact ⟨fun he => absurd he (by simp), fun hp => by simp [h.1] at hp⟩

theorem Path.mem_of_link (h : Path q p l) (ha : a ∈ l) (hb : q a = some b) : b ∈ l := by
  induction l generalizing p with
  | nil => cases ha
  | cons c l ih =>
    rcases mem_cons.1 ha with rfl | ha
    · cases l with
      | nil =>
        rw [Path.cons_iff, hb, Path.nil_iff] at h
        cases h.2
      | cons d l =>
        have hd := h.2.1
        rw [hb] at hd
        obtain rfl := Option.some.inj hd
        simp
    · exact mem_cons_of_mem _ (ih h.2 ha)

theorem Path.append [DecidableEq α] (h : Path q p l) (hl : l.Nodup) (ha : a ∈ l) (hend : q a = none)
    (hb : b ∉ l) (hnew : q b = none) : Path (update q a (some b)) p (l ++ [b]) := by
  have hba : b ≠ a := by
    rintro rfl
    exact hb ha
  induction l generalizing p with
  | nil => cases ha
  | cons c l ih =>
    obtain ⟨hc, hl⟩ := nodup_cons.1 hl
    rw [cons_append, Path.cons_iff]
    refine ⟨h.1, ?_⟩
    rcases mem_cons.1 ha with rfl | ha
    · -- the element is the last one
      have hnil : l = [] := h.2.eq_nil_iff.2 hend
      subst hnil
      rw [update_self]
      exact ⟨rfl, by rw [update_of_ne hba]; exact hnew⟩
    · have hca : c ≠ a := by
        rintro rfl
        exact hc ha
      rw [update_of_ne hca]
      exact ih h.2 hl ha fun hbl => hb (mem_cons_of_mem _ hbl)

end Linked
