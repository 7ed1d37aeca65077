import Xv6.Ptable.Resources
import Xv6.Ptable.LockDiscipline
import Mathlib.Logic.Relation

/-!
# A thread runs on one CPU at a time

A process that makes a seventeenth thread breaks this: `allocthread` writes past the end of the
thread array, over `t_num`, and the next thread is made in a slot that is in use.
-/

namespace Xv6.Ptable

variable {C : Type} {s s' : Kernel C}

/-- A thread is RUNNING exactly when it is on one CPU, and on no other. -/
def RunningOnce (s : Kernel C) : Prop :=
  (∀ t, (s.table.thread t).state = .RUNNING ↔ ∃! c, (s.cpu c).thread = some t) ∧
    ∀ c d t, (s.cpu c).thread = some t → (s.cpu d).thread = some t → c = d

theorem Inv.runningOnce (h : Inv s) : RunningOnce s := by
  refine ⟨fun t => ⟨fun ht => ?_, fun ⟨c, hc, _⟩ => h.cpu.running c t hc⟩, h.cpu.inj⟩
  obtain ⟨c, hc⟩ := h.cpu.onCpu t ht
  exact ⟨c, hc, fun d hd => h.cpu.inj d c t hd hc⟩

variable [DecidableEq C]

/-- A step in bounds, in which slot `t` is not made anew. -/
def Undisturbed (t : Slot) (s s' : Kernel C) : Prop :=
  ∃ a, sound s a ∧ s.next a.1 a.2 = some s' ∧
    ((s.table.thread t).state = .UNUSED_T → (s'.table.thread t).state = .UNUSED_T)

/-- A thread that is ZOMBIE_T, or whose slot is free, stays so while the slot is not made anew. -/
theorem dead_of_undisturbed {t : Slot} (h : Relation.ReflTransGen (Undisturbed t) s s') (hi : Inv s)
    (ht : (s.table.thread t).state.alive = false) :
    Inv s' ∧ (s'.table.thread t).state.alive = false := by
  induction h with
  | refl => exact ⟨hi, ht⟩
  | tail _ hstep ih =>
    obtain ⟨hi, ht⟩ := ih
    obtain ⟨a, hok, hn, hu⟩ := hstep
    refine ⟨hi.next hok hn, ?_⟩
    rcases ThreadState.dead_cases ht with ht | ht
    · rw [hu ht]
      rfl
    · rcases (hi.tableStep (inBounds_of_sound hok) hn).zombie hi ht with h | h <;> rw [h] <;> rfl

/-- Threads and CPUs in every run in bounds, in which no killed thread calls `exec`. -/
theorem threads_exclusive (h : (kernelSys C).ReachableVia (fun s a => sound s a) s) :
    (s.lock = none → RunningOnce s) ∧
    (∀ t s', (s.table.thread t).state = .ZOMBIE_T → Relation.ReflTransGen (Undisturbed t) s s' →
      ∀ c, (s'.cpu c).thread ≠ some t) ∧
    ∀ a s', sound s a → s.next a.1 a.2 = some s' → ∀ t n, (s.table.thread t).kstack = some n →
      n ∈ s'.table.freed → ∀ c, (s.cpu c).thread ≠ some t := by
  obtain ⟨hi, ho⟩ := Owned.of_reachable h
  refine ⟨fun _ => hi.runningOnce, fun t s' ht hsteps c hc => ?_, fun a s' hok hn t n hk hf c hc =>
    ?_⟩
  · obtain ⟨hi', ht'⟩ := dead_of_undisturbed hsteps hi (by rw [ht]; rfl)
    rw [hi'.cpu.running c t hc] at ht'
    exact absurd ht' (by decide)
  · have hrun := hi.cpu.running c t hc
    rcases (hi.tableStep (inBounds_of_sound hok) hn).freed_kstack hi ho hk hf with h | h <;>
      simp [hrun] at h

def initSlot (i : Fin 16) : Slot := (⟨0, NPROC_pos⟩, i)

/-- Two threads of one process on two CPUs. -/
theorem threads_exclusive_twoThreads :
    ∃ s : Kernel (Fin 2), (kernelSys (Fin 2)).ReachableVia (fun s a => sound s a) s ∧
      (s.cpu 0).thread = some (initSlot 0) ∧ (s.cpu 1).thread = some (initSlot 1) ∧
      RunningOnce s := by
  obtain ⟨s, hreach, h0, h1, hlock⟩ :
    ∃ s, (kernelSys (Fin 2)).ReachableVia (fun s a => sound s a) s ∧
      (s.cpu 0).thread = some (initSlot 0) ∧ (s.cpu 1).thread = some (initSlot 1) ∧ s.lock = none :=
    Machine.Sys.exists_reachableVia
      (startUser 0 ++ callOn 0 .kthreadCreate (List.replicate 6 true) ++ startUser 1) (boot_init 0)
      (by decide +kernel)
  exact ⟨s, hreach, h0, h1, (threads_exclusive hreach).1 hlock⟩

/-! ## A seventeenth thread -/

/-- The thread on CPU 1 is preempted; CPU 1 goes on with the next slot. -/
def preempt : List (Fin 2 × Act) := (1, .timer) :: List.replicate 5 (1, .go true)

/-- Process 1 makes 17 more threads, while CPU 1 runs the one in slot 3. -/
def seventeenth : List (Fin 2 × Act) :=
  startUser 0 ++ (List.replicate 15 (callOn 0 .kthreadCreate (List.replicate 6 true))).flatten ++
    startUser 1 ++ preempt ++ preempt ++
    (List.replicate 2 (callOn 0 .kthreadCreate (List.replicate 6 true))).flatten

/-- A RUNNABLE thread on a CPU, with the lock free. -/
theorem runnable_on_cpu : ∃ s : Kernel (Fin 2), (kernelSys (Fin 2)).Reachable s ∧
      (kernelSys (Fin 2)).run (.boot _ 0) seventeenth = some s ∧ s.lock = none ∧
      (s.cpu 1).thread = some (initSlot 3) ∧ (s.table.thread (initSlot 3)).state = .RUNNABLE ∧
      ¬ RunningOnce s := by
  have hrun : ((kernelSys (Fin 2)).run (.boot _ 0) seventeenth).any (fun s => s.lock == none &&
      (s.cpu 1).thread == some (initSlot 3) && (s.table.thread (initSlot 3)).state == .RUNNABLE &&
      (s.cpu 0).thread == some (initSlot 0)) := by decide +kernel
  obtain ⟨s, hreach, hs, hp⟩ := reachable_of_run_any hrun
  rw [Bool.and_eq_true, Bool.and_eq_true, Bool.and_eq_true, beq_iff_eq, beq_iff_eq, beq_iff_eq,
    beq_iff_eq] at hp
  obtain ⟨⟨⟨hlock, h1⟩, hst⟩, h0⟩ := hp
  refine ⟨s, hreach, hs, hlock, h1, hst, fun h => ?_⟩
  have hone : ∃! c, (s.cpu c).thread = some (initSlot 3) := by
    refine ⟨1, h1, fun c hc => ?_⟩
    match c with
    | 0 => exact absurd (h0.symm.trans hc) (by decide)
    | 1 => rfl
  exact absurd (((h.1 (initSlot 3)).2 hone).symm.trans hst) (by decide)

end Xv6.Ptable
