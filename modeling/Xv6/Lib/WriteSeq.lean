import Mathlib.Logic.Function.Basic
import Mathlib.Data.List.Nodup

/-!
# Sequences of writes to a store

A store is a function from addresses to values; a write sets one address.  A device that performs
its writes one at a time and in order is left, by a crash, with the effect of a prefix of the
writes issued: `apply (ws.take k) d`.
-/

namespace WriteSeq

open Function

variable {α β : Type*} [DecidableEq α]

def apply : List (α × β) → (α → β) → α → β
  | [], d => d
  | w :: ws, d => apply ws (update d w.1 w.2)

@[simp] theorem apply_nil (d : α → β) : apply [] d = d := rfl

@[simp] theorem apply_cons (w : α × β) (ws : List (α × β)) (d : α → β) :
    apply (w :: ws) d = apply ws (update d w.1 w.2) := rfl

theorem apply_append (ws vs : List (α × β)) (d : α → β) :
    apply (ws ++ vs) d = apply vs (apply ws d) := by
  induction ws generalizing d with
  | nil => rfl
  | cons w ws ih => exact ih _

theorem apply_take_induction {P : (α → β) → Prop} {ws : List (α × β)}
    (hstep : ∀ w ∈ ws, ∀ d, P d → P (update d w.1 w.2)) {d : α → β} (hd : P d) (k : ℕ) :
    P (apply (ws.take k) d) := by
  induction ws generalizing d k with
  | nil => simpa using hd
  | cons w ws ih =>
    cases k with
    | zero => exact hd
    | succ k =>
      rw [List.take_succ_cons, apply_cons]
      exact ih (fun v hv => hstep v (List.mem_cons_of_mem _ hv)) (hstep w List.mem_cons_self d hd) k

theorem apply_of_notMem {ws : List (α × β)} {x : α} (h : x ∉ ws.map Prod.fst) (d : α → β) :
    apply ws d x = d x := by
  induction ws generalizing d with
  | nil => rfl
  | cons w ws ih =>
    simp only [List.map_cons, List.mem_cons, not_or] at h
    rw [apply_cons, ih h.2, update_of_ne h.1]

theorem apply_congr (ws : List (α × β)) {d e : α → β} {x : α} (h : d x = e x) :
    apply ws d x = apply ws e x := by
  induction ws generalizing d e with
  | nil => exact h
  | cons w ws ih =>
    rw [apply_cons, apply_cons]
    apply ih
    by_cases hx : x = w.1
    · rw [hx, update_self, update_self]
    · rw [update_of_ne hx, update_of_ne hx, h]

theorem apply_of_mem {ws : List (α × β)} (hn : (ws.map Prod.fst).Nodup) {w : α × β} (hw : w ∈ ws)
    (d : α → β) : apply ws d w.1 = w.2 := by
  induction ws generalizing d with
  | nil => simp at hw
  | cons v ws ih =>
    rw [List.map_cons, List.nodup_cons] at hn
    rcases List.mem_cons.1 hw with rfl | hw
    · rw [apply_cons, apply_of_notMem hn.1, update_self]
    · rw [apply_cons, ih hn.2 hw]

end WriteSeq
