import Xv6.Ptable.TableStep

/-!
# The discipline of `ptable.lock`

`LockDiscipline` fails: `kthread_join` with an id that no thread has returns without releasing the
lock, and so do `kthread_create` when `kalloc` fails and `fork` when `copyuvm` fails; `exec` by a
thread marked killed meanwhile calls `exit_thread` without it.
-/

namespace Xv6.Ptable

open Kernel

variable {C : Type}

/-- The lock is never acquired twice, never released and never handed to the scheduler without being
held, and never held by a CPU that runs user code or a stack without code that expects it. -/
def LockDiscipline (s : Kernel C) : Prop :=
  ∀ c, (s.cpu c).ctl ≠ .panic .acquire ∧ (s.cpu c).ctl ≠ .panic .release ∧
    (s.cpu c).ctl ≠ .panic .sched ∧
    ∀ st, (s.cpu c).ctl = .run st → free st → s.lock ≠ some c

/-- `copyuvm` and the `kalloc` of `kthread_create` succeed, and `kthread_join` is given the id of a
thread. -/
def noLeak (s : Kernel C) (a : C × Act) : Bool :=
  match a.2, (s.cpu a.1).thread, (s.cpu a.1).ctl with
  | .go ok, some _, .run (.crit (.fork _) :: _) => ok
  | .go ok, some _, .run (.crit .kthreadCreate :: _) => ok
  | .go _, some me, .run (.crit (.kthreadJoin tid) :: _) =>
    (List.finRange NTHREADS).any fun i => s.table.below (me.1, i) &&
      (s.table.thread (me.1, i)).tid == tid
  | _, _, _ => true

/-- The control of a CPU that holds the lock. -/
def Ctl.holding : Ctl → Bool
  | idle (.crit _) | idle .release | scanProc _ | scanThread _ _ | panic _ => true
  | run st => held st
  | _ => false

/-- The lock is held only where it is expected. -/
structure Owner (s : Kernel C) : Prop where
  holding : ∀ c, s.lock = some c → (s.cpu c).ctl.holding
  quiet : ∀ c, (s.cpu c).ctl.quiet

theorem not_held_of_free {st : List Frame} (h : free st) : held st = false := by
  cases st with
  | nil => rfl
  | cons f st => cases f <;> simp_all [held, free, Frame.locked]

theorem Owner.discipline {s : Kernel C} (h : Owner s) : LockDiscipline s := fun c =>
  ⟨(h.quiet c).1, (h.quiet c).2.1, (h.quiet c).2.2, fun st hst hfree hlock => by
    have hh := h.holding c hlock
    rw [hst, Ctl.holding, not_held_of_free hfree] at hh
    exact absurd hh (by decide)⟩

variable {s s' : Kernel C} {c : C} {me : Slot} {st : List Frame} {T : Table}

theorem Owner.not_held (h : Owner s) (hctl : (s.cpu c).ctl.holding = false) : s.lock ≠ some c :=
  fun hl => by
  rw [h.holding c hl] at hctl
  exact absurd hctl (by decide)

/-! ## The ends of the sections -/

theorem Table.findTid_ne_none {p : ProcId} {tid : ℤ} {i : Fin NTHREADS} (hb : T.below (p, i))
    (ht : (T.thread (p, i)).tid = tid) : T.findTid p tid ≠ none := by
  have hmem : i ∈ (List.finRange NTHREADS).filter fun i => T.below (p, i) &&
    (T.thread (p, i)).tid == tid :=
    List.mem_filter.2 ⟨List.mem_finRange i, by simp [hb, ht]⟩
  rw [findTid, Ne, List.getLast?_eq_none_iff]
  exact List.ne_nil_of_mem hmem

theorem held_append {f : Frame} {gs : List Frame} (hs : f ≠ .sleepBack) (hf : f.locked)
    (hg : free gs) (hfree : free st) : held ((f :: gs) ++ st) := by
  have hg' : free (gs ++ st) := by
    rw [free, List.all_append, Bool.and_eq_true]
    exact ⟨hg, hfree⟩
  cases f <;> simp_all [held, Frame.locked]

theorem not_leak_of_noLeak {ok : Bool} {k : Sec} (h : noLeak s (c, .go ok))
    (hme : (s.cpu c).thread = some me) (hctl : (s.cpu c).ctl = .run (.crit k :: st)) (v : ℤ) :
    (s.table.crit me ok k).2 ≠ .leak v := fun hv => by
  have hout := outOk_crit s.table me ok k
  rw [hv] at hout
  simp only [noLeak, hme, hctl] at h
  rcases hout with ⟨np, rfl, rfl⟩ | ⟨rfl, rfl⟩ | ⟨tid, rfl, hf⟩
  · simp at h
  · simp at h
  · obtain ⟨i, -, hi⟩ := List.any_eq_true.1 h
    simp only [Bool.and_eq_true, beq_iff_eq] at hi
    exact Table.findTid_ne_none hi.1 hi.2 hf

/-! ## Steps -/

theorem quiet_run (st : List Frame) : (Ctl.run st).quiet := ⟨by simp, by simp, by simp⟩

theorem Inv.takes (hi : Inv s) {k : Ctl} (hk : Takes (s.cpu c) k) :
    (s.cpu c).ctl.holding = false ∧ k.holding ∧ k.quiet := by
  cases hk with
  | scheduler hctl | interrupt hctl => exact ⟨by rw [hctl]; rfl, rfl, by simp, by simp, by simp⟩
  | thread hme hctl =>
    refine ⟨by rw [hctl]; rfl, ?_, quiet_run _⟩
    simpa [Ctl.holding, held, Frame.locked] using (hi.at_free hctl rfl).2

theorem Inv.drops (hi : Inv s) {k : Ctl} (hk : Drops (s.cpu c) k) : s.lock = some c ∧ k.quiet := by
  have hc := hi.cpu.ctl c
  cases hk with
  | interrupt hctl | scheduler hctl =>
    simp only [CtlOk, hctl] at hc
    exact ⟨hc.2, by simp, by simp, by simp⟩
  | thread hme hctl => exact ⟨(hi.at_locked hctl rfl).2, quiet_run _⟩
  | forkret hme hctl _ => exact ⟨(hi.at_locked hctl rfl).2, quiet_run _⟩

variable [DecidableEq C]

theorem Owner.step (h : Owner s) {u : Cpu} {lk : Option C} {fi : Bool}
    (hlk : ∀ d, d ≠ c → lk = some d → s.lock = some d) (hu : lk = some c → u.ctl.holding)
    (hq : u.ctl.quiet) : Owner (⟨T, lk, Function.update s.cpu c u, fi⟩ : Kernel C) := by
  constructor <;> intro d <;> by_cases hd : d = c
  · subst hd
    simpa using hu
  · simpa [hd] using fun hl => h.holding d (hlk d hd hl)
  · subst hd
    simpa using hq
  · simpa [hd] using h.quiet d

theorem Owner.setCtl (h : Owner s) {k : Ctl} (hu : s.lock = some c → k.holding) (hq : k.quiet) :
    Owner ({ s with table := T }.setCtl c k) :=
  h.step (fun _ _ hd => hd) hu hq

theorem Owner.release (h : Owner s) {k : Ctl} {fi : Bool} (hlock : s.lock = some c) (hq : k.quiet) :
    Owner ({ s with first := fi }.release c k) := by
  rw [Kernel.release, if_pos hlock]
  exact h.step (by simp) (by simp) hq

theorem Owner.crit (h : Owner s) {ok : Bool} {k : Sec} (hlock : s.lock = some c) (hfree : free st)
    (hleak : ∀ v, (s.table.crit me ok k).2 ≠ .leak v) (hn : s.crit c me ok k st = some s') :
    Owner s' := by
  have hout := outOk_crit s.table me ok k
  have heq : s.crit c me ok k st =
      ({ s with table := (s.table.crit me ok k).1 } : Kernel C).finish c me st
      (s.table.crit me ok k).2 := rfl
  rw [heq] at hn
  cases ho : (s.table.crit me ok k).2 with
  | ret v =>
    rw [ho] at hn
    cases hn
    exact h.setCtl (fun _ => by simpa [Ctl.holding, held, Frame.locked] using hfree) (quiet_run _)
  | leak v => exact absurd ho (hleak v)
  | goto fs =>
    rw [ho] at hn hout
    cases hn
    obtain ⟨f, gs, rfl, hs, hf, hg⟩ := hout
    exact h.setCtl (fun _ => held_append hs hf hg hfree) (quiet_run _)
  | sched x fs =>
    rw [ho] at hn
    simp only [finish, Option.some.injEq] at hn
    rw [sched_eq hlock] at hn
    subst hn
    exact h.step (fun _ _ hd => hd) (fun _ => rfl) ⟨by simp, by simp, by simp⟩
  | panic m =>
    rw [ho] at hn hout
    cases hn
    exact h.setCtl (fun _ => rfl) hout
  | spin =>
    rw [ho] at hn
    cases hn

theorem Inv.pushes_free (hi : Inv s) {a : Act} {fs : List Frame} (hctl : (s.cpu c).ctl = .run st)
    (hp : Pushes s c a st T fs) : held st = false := by
  cases hp with
  | timer h | interrupt _ h => exact not_held_of_free (hi.interruptible hctl h).2
  | syscall _ | tick | fault _ | sleep _ | wakeup _ => rfl

theorem Owner.next (h : Owner s) (hi : Inv s) {a : C × Act} (hl : noLeak s a)
    (hn : s.next a.1 a.2 = some s') : Owner s' := by
  obtain ⟨c, a⟩ := a
  -- the next stack of code that does not hold the lock does not matter
  have hrun : ∀ T st', (s.cpu c).ctl.holding = false → Owner ({ s with table := T }.setCtl c (.run st')) :=
    fun T st' hh => h.setCtl (fun hl => absurd hl (h.not_held hh)) (quiet_run _)
  cases next_step hn with
  | crit hme hctl hn =>
    obtain ⟨hlock, -, -, hfree⟩ := hi.at_crit hctl
    exact h.crit hlock hfree (not_leak_of_noLeak hl hme hctl) hn
  | acquire hk hlock =>
    obtain ⟨-, hhold, hq⟩ := hi.takes hk
    exact h.step (fun d hd hl => absurd (Option.some.inj hl).symm hd) (fun _ => hhold) hq
  | deadlock hk hlock => exact absurd hlock (h.not_held (hi.takes hk).1)
  | release hk =>
    obtain ⟨hlock, hq⟩ := hi.drops hk
    exact h.release hlock hq
  | frame hme hctl hf =>
    cases hf with
    | sleepBack => exact h.setCtl (fun _ => (hi.at_locked hctl rfl).1) (quiet_run _)
    | trapExit _ | enter _ | kernel | mark _ | marked _ | check _ | again _ | alone _ | execDone | exitProcess _ =>
      exact hrun _ _ (by rw [hctl]; rfl)
  | panic hme hctl hf =>
    refine h.setCtl (fun _ => rfl) ?_
    rcases hf with ⟨-, rfl⟩ | ⟨-, rfl⟩ <;> exact ⟨by simp, by simp, by simp⟩
  | push hctl hp => exact hrun _ _ (by rw [hctl]; exact hi.pushes_free hctl hp)
  | idle hk =>
    have hh := h.not_held (c := c)
    generalize (s.cpu c).ctl = k₀ at hk hh
    cases hk with
    | interrupt n => exact h.setCtl (fun hl => absurd hl (hh rfl)) ⟨by simp, by simp, by simp⟩
    | wakeup _ | used _ | unused _ | thread _ _ | proc _ _ =>
      exact h.setCtl (fun _ => rfl) ⟨by simp, by simp, by simp⟩
  | switch _ hctl hr =>
    exact h.step (fun _ _ hd => hd) (fun _ => (hi.cpu.saved _ (by rw [hr]; rfl)).2) (quiet_run _)

/-- The lock discipline holds in every run in which `copyuvm` and the `kalloc` of `kthread_create`
succeed, `kthread_join` is given the id of a thread, no process makes more than NTHREADS threads and
no killed thread calls `exec`. -/
theorem lock_discipline_of_noLeak
    (h : (kernelSys C).ReachableVia (fun s a => (sound s a && noLeak s a)) s) :
    LockDiscipline s := by
  have hinv : Inv s ∧ Owner s := by
    refine h.invariant (I := fun s => Inv s ∧ Owner s) (fun s hs => ?_) fun s a s' hi hok hn => ?_
    · obtain ⟨base, rfl⟩ := hs
      exact ⟨Inv.boot base, fun c hc => by simp [boot] at hc,
        fun c => by simp [boot, Ctl.quiet]⟩
    · rw [Bool.and_eq_true] at hok
      exact ⟨hi.1.next hok.1 hn, hi.2.next hi.1 hok.2 hn⟩
  exact hinv.2.discipline

/-! ## Runs of two CPUs -/

/-- CPU `c` starts and takes its first thread to user mode. -/
def startUser (c : Fin 2) : List (Fin 2 × Act) := List.replicate 5 (c, .go true)

/-- The thread on CPU `c` calls `f`; `oks`: whether memory allocation succeeds in the steps of the
call. -/
def callOn (c : Fin 2) (f : Call) (oks : List Bool) : List (Fin 2 × Act) :=
  (c, .syscall f) :: oks.map fun ok => (c, .go ok)

/-- `kthread_join` of an id no thread has. -/
def joinUnknown : List (Fin 2 × Act) :=
  startUser 0 ++ callOn 0 (.kthreadJoin 99) (List.replicate 5 true)

/-- `kthread_create` when `kalloc` fails. -/
def createFails : List (Fin 2 × Act) :=
  startUser 0 ++ callOn 0 .kthreadCreate [true, true, true, false, true]

/-- `fork` when `copyuvm` fails. -/
def forkFails : List (Fin 2 × Act) :=
  startUser 0 ++ callOn 0 .fork [true, true, true, true, true, true, false, true]

/-- `exec` by a thread that is marked killed after `trap` looked: another thread of the process
calls `exit`. -/
def execKilled : List (Fin 2 × Act) :=
  startUser 0 ++ callOn 0 .kthreadCreate (List.replicate 6 true) ++ startUser 1 ++
    callOn 0 .exec [true] ++ callOn 1 .exit (List.replicate 5 true) ++ [(0, .go true),
      (0, .go true)]

/-- CPU 0 is back in user mode and holds the lock. -/
def userHolds (s : Kernel (Fin 2)) : Bool := s.lock == some 0 && (s.cpu 0).ctl == .run []

theorem reachable_of_run_any {l : List (Fin 2 × Act)} {p : Kernel (Fin 2) → Bool}
    (h : ((kernelSys (Fin 2)).run (.boot _ 0) l).any p) :
    ∃ s, (kernelSys (Fin 2)).Reachable s ∧ (kernelSys (Fin 2)).run (.boot _ 0) l = some s ∧
      p s := by
  obtain ⟨s, hs, hp⟩ := (Option.any_eq_true _ _).1 h
  exact ⟨s, Machine.Sys.reachable_of_run (.init ⟨0, rfl⟩) hs, hs, hp⟩

/-- Three calls return to user mode with the lock held, and `exec` by a killed thread calls `sched`
without it. -/
theorem ptable_lock_misused :
    (∀ l ∈ [joinUnknown, createFails, forkFails], ∃ s, (kernelSys (Fin 2)).Reachable s ∧
      (kernelSys (Fin 2)).run (.boot _ 0) l = some s ∧ (s.cpu 0).ctl = .run [] ∧ s.lock = some 0) ∧
    (∃ s, (kernelSys (Fin 2)).Reachable s ∧
      (kernelSys (Fin 2)).run (.boot _ 0) execKilled = some s ∧ (s.cpu 0).ctl = .panic .sched) ∧
    ¬ ∀ s : Kernel (Fin 2), (kernelSys (Fin 2)).Reachable s → LockDiscipline s := by
  have hcalls : ∀ l ∈ [joinUnknown, createFails, forkFails],
      ((kernelSys (Fin 2)).run (.boot _ 0) l).any userHolds := by decide +kernel
  have hexec : ((kernelSys (Fin 2)).run (.boot _ 0) execKilled).any
      (fun s => (s.cpu 0).ctl == .panic .sched) := by decide +kernel
  obtain ⟨s, hreach, hrun, hs⟩ := reachable_of_run_any hexec
  rw [beq_iff_eq] at hs
  refine ⟨fun l hl => ?_, ⟨s, hreach, hrun, hs⟩, fun h => (h s hreach 0).2.2.1 hs⟩
  obtain ⟨s, hreach, hrun, hs⟩ := reachable_of_run_any (hcalls l hl)
  simp only [userHolds, Bool.and_eq_true, beq_iff_eq] at hs
  exact ⟨s, hreach, hrun, hs.2, hs.1⟩

/-- A `fork` and a `kthread_create` that succeed. -/
theorem lock_discipline_of_fork :
    ∃ s : Kernel (Fin 2), (kernelSys (Fin 2)).ReachableVia (fun s a => (sound s a && noLeak s a))
      s ∧ (s.cpu 0).ctl = .run [] ∧ s.table.nextpid = 3 ∧ LockDiscipline s := by
  obtain ⟨s, hreach, hctl, hpid⟩ :
      ∃ s, (kernelSys (Fin 2)).ReachableVia (fun s a => (sound s a && noLeak s a)) s ∧
        (s.cpu 0).ctl = .run [] ∧ s.table.nextpid = 3 :=
    Machine.Sys.exists_reachableVia (startUser 0 ++ callOn 0 .fork (List.replicate 9 true) ++
      callOn 0 .kthreadCreate (List.replicate 6 true)) (boot_init 0) (by decide +kernel)
  exact ⟨s, hreach, hctl, hpid, lock_discipline_of_noLeak hreach⟩

end Xv6.Ptable
