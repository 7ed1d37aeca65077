import Mathlib.Logic.Relation
import Mathlib.Data.List.Induction

/-!
# Labelled machines

A machine has a set of initial states and a partial step function: `next s i` is the state after
the step labelled `i`, or `none` when that step is not enabled in `s`.  Every free choice is part of
the label, so a run is a list of labels.

* `ReachableVia ok s`: `s` is reached by a run all of whose steps meet the condition `ok` on the
  state before the step and its label.  `Reachable` puts no condition.
* `run`: the same as a function, for concrete runs; `runVia` also checks a condition at each step.
-/

namespace Machine

open Option

variable {σ ι : Type*}

/-- Initial states and a partial, labelled step function. -/
structure Sys (σ ι : Type*) where
  init : σ → Prop
  /-- One step; `none` when the label is not enabled. -/
  next : σ → ι → Option σ

namespace Sys

variable (M : Sys σ ι)

/-- Reached from an initial state by steps that all meet `ok`. -/
inductive ReachableVia (ok : σ → ι → Prop) : σ → Prop where
  | init {s : σ} (h : M.init s) : ReachableVia ok s
  | step {s s' : σ} {i : ι} (hs : ReachableVia ok s) (hok : ok s i) (h : M.next s i = some s') :
      ReachableVia ok s'

def Reachable : σ → Prop := M.ReachableVia fun _ _ => True

def run : σ → List ι → Option σ
  | s, [] => some s
  | s, i :: l => (M.next s i).bind fun s' => run s' l

/-- Take the steps of a list of labels in order, as long as they meet `ok`. -/
def runVia (ok : σ → ι → Bool) : σ → List ι → Option σ
  | s, [] => some s
  | s, i :: l => if ok s i then (M.next s i).bind fun s' => runVia ok s' l else none

variable {M}

theorem ReachableVia.invariant {ok : σ → ι → Prop} {I : σ → Prop} (hinit : ∀ s, M.init s → I s)
    (hstep : ∀ s i s', I s → ok s i → M.next s i = some s' → I s')
    {s : σ} (h : M.ReachableVia ok s) : I s := by
  induction h with
  | init h => exact hinit _ h
  | step _ hok h ih => exact hstep _ _ _ ih hok h

theorem ReachableVia.mono {ok ok' : σ → ι → Prop} (hok : ∀ s i, ok s i → ok' s i) {s : σ}
    (h : M.ReachableVia ok s) : M.ReachableVia ok' s := by
  induction h with
  | init h => exact .init h
  | step _ hi h ih => exact .step ih (hok _ _ hi) h

theorem Reachable.invariant {I : σ → Prop} (hinit : ∀ s, M.init s → I s)
    (hstep : ∀ s i s', I s → M.next s i = some s' → I s') {s : σ} (h : M.Reachable s) : I s :=
  ReachableVia.invariant hinit (fun s i s' hI _ h => hstep s i s' hI h) h

theorem reachable_of_run {s s' : σ} {l : List ι} (hs : M.Reachable s) (h : M.run s l = some s') :
    M.Reachable s' := by
  induction l generalizing s with
  | nil =>
    simp only [run, some.injEq] at h
    exact h ▸ hs
  | cons i l ih =>
    simp only [run, bind_eq_some_iff] at h
    obtain ⟨s₁, h₁, h₂⟩ := h
    exact ih (.step hs trivial h₁) h₂

theorem reachableVia_of_runVia {ok : σ → ι → Bool} {s s' : σ} {l : List ι}
    (hs : M.ReachableVia (fun s i => ok s i) s) (h : M.runVia ok s l = some s') :
    M.ReachableVia (fun s i => ok s i) s' := by
  induction l generalizing s with
  | nil =>
    simp only [runVia, some.injEq] at h
    exact h ▸ hs
  | cons i l ih =>
    simp only [runVia] at h
    split_ifs at h with hok
    obtain ⟨s₁, h₁, h₂⟩ := bind_eq_some_iff.1 h
    exact ih (.step hs hok h₁) h₂

/-- A state with `P` is reached, as the run shows. -/
theorem exists_reachable {s₀ : σ} {P : σ → Prop} [DecidablePred P] (l : List ι) (h₀ : M.init s₀)
    (h : ((M.run s₀ l).any fun s => decide (P s))) : ∃ s, M.Reachable s ∧ P s := by
  obtain ⟨s, hs, hP⟩ := (any_eq_true _ _).1 h
  exact ⟨s, reachable_of_run (.init h₀) hs, of_decide_eq_true hP⟩

theorem exists_reachableVia {ok : σ → ι → Prop} [∀ s i, Decidable (ok s i)] {s₀ : σ} {P : σ → Prop}
    [DecidablePred P] (l : List ι) (h₀ : M.init s₀)
    (h : ((M.runVia (fun s i => decide (ok s i)) s₀ l).any fun s => decide (P s))) :
    ∃ s, M.ReachableVia ok s ∧ P s := by
  obtain ⟨s, hs, hP⟩ := (any_eq_true _ _).1 h
  exact ⟨s, (reachableVia_of_runVia (.init h₀) hs).mono fun _ _ => of_decide_eq_true,
    of_decide_eq_true hP⟩

theorem run_append (s : σ) (l l' : List ι) : M.run s (l ++ l') = (M.run s l).bind fun s' =>
    M.run s' l' := by
  induction l generalizing s with
  | nil => rfl
  | cons i l ih =>
    simp only [List.cons_append, run]
    rw [bind_assoc]
    exact congrArg _ (funext ih)

theorem run_snoc {s s₁ s₂ : σ} {l : List ι} {i : ι} (h : M.run s l = some s₁)
    (hi : M.next s₁ i = some s₂) : M.run s (l ++ [i]) = some s₂ := by
  rw [run_append, h]
  simp only [bind_some, run, hi]

theorem runVia_append (ok : σ → ι → Bool) (s : σ) (l l' : List ι) :
    M.runVia ok s (l ++ l') = (M.runVia ok s l).bind fun s' => M.runVia ok s' l' := by
  induction l generalizing s with
  | nil => rfl
  | cons i l ih =>
    simp only [List.cons_append, runVia]
    split_ifs
    · rw [bind_assoc]
      exact congrArg _ (funext ih)
    · rfl

/-- What holds of the empty run and is kept by one more step holds of every run. -/
theorem runVia_induction {ok : σ → ι → Bool} {s₀ : σ} {I : List ι → σ → Prop} (hnil : I [] s₀)
    (hstep : ∀ l s i s', M.runVia ok s₀ l = some s → I l s → ok s i → M.next s i = some s' →
      I (l ++ [i]) s') {l : List ι} {s : σ} (h : M.runVia ok s₀ l = some s) : I l s := by
  induction l using List.reverseRecOn generalizing s with
  | nil =>
    simp only [runVia, some.injEq] at h
    exact h ▸ hnil
  | append_singleton l i ih =>
    rw [runVia_append] at h
    obtain ⟨s₁, h₁, h₂⟩ := bind_eq_some_iff.1 h
    simp only [runVia] at h₂
    split_ifs at h₂ with hok
    obtain ⟨s₂, h₃, h₄⟩ := bind_eq_some_iff.1 h₂
    simp only [some.injEq] at h₄
    exact hstep l s₁ i s h₁ (ih h₁) hok (h₄ ▸ h₃)

end Sys

end Machine
