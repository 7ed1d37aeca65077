import Xv6.Ptable.Effects
import Xv6.Ptable.Exclusive

/-!
# The thread slots of a process

`allocthread` takes slot `t_num` and increments `t_num`; nothing ever decrements it, except that
`allocproc` sets it to 0 for a new process.  So a slot is used once in the life of a process.
-/

namespace Xv6.Ptable

open Function Table Option

variable {T : Table} {me : Slot} {ok : Bool} {p : ProcId}

namespace Table

/-- The call of `allocthread` in a section: the table it is called with, and the process. -/
def allocthreadCall (T : Table) (me : Slot) : Sec → Option (Table × ProcId)
  | .kthreadCreate => some (T, me.1)
  | .allocproc => T.findUnused.map fun p =>
      (T.setProc p fun q => { q with tNum := 0, pid := T.nextpid, state := .USED }, p)
  | _ => none

theorem allocproc_tNum (h : T.findUnused ≠ some p) :
    ((T.allocproc ok).1.proc p).tNum = (T.proc p).tNum := by
  cases hf : T.findUnused with
  | none => rw [allocproc_none hf]
  | some q =>
    have hpq : p ≠ q := by
      rintro rfl
      exact h hf
    rw [(allocproc_some hf ok).1, update_of_ne hpq]

theorem crit_tNum {k : Sec} (hc : k ≠ .kthreadCreate)
    (ha : k = .allocproc → T.findUnused ≠ some p) :
    ((T.crit me ok k).1.proc p).tNum = (T.proc p).tNum := by
  cases k with
  | allocproc => exact allocproc_tNum (ha rfl)
  | fork np =>
    by_cases hp : p = np
    · cases ok <;> simp [crit, fork, setProc, setThread, free, hp]
    · cases ok <;> simp [crit, fork, setProc, setThread, free, hp]
  | kthreadCreate => exact absurd rfl hc
  | wait =>
    obtain ⟨q, n, -, -, hw⟩ | hw | hw | hw := wait_cases T me
    · by_cases hp : p = q
      · simp [crit, hw, reap, mapThread, setProc, free, hp]
      · simp [crit, hw, reap, mapThread, setProc, free, hp]
    all_goals rw [crit, hw]
    rfl
  | kill pid => exact (Wakes.kill T pid).tNum p
  | exit => exact (Wakes.exit T me).tNum p
  | exitThread => exact (Wakes.exitThread T me).tNum p
  | exitProcess => simp only [crit, exitProcess_proc]
  | kthreadJoin tid =>
    simp only [crit, kthreadJoin]
    split <;> rfl
  | joinLoop t =>
    simp only [crit, joinLoop]
    split <;> rfl
  | growproc | execWake | yield | sleep _ | wakeup _ => rfl

end Table

variable {C : Type} [DecidableEq C] {s s' : Kernel C} {c : C} {a : Act}

theorem Kernel.crit_proc {k : Sec} {st : List Frame} (hn : s.crit c me ok k st = some s') :
    s'.table.proc = (s.table.crit me ok k).1.proc := by
  simp only [Kernel.crit] at hn
  generalize s.table.crit me ok k = r at hn ⊢
  obtain ⟨T, o⟩ := r
  cases o with
  | sched x fs =>
    simp only [Kernel.finish, Kernel.sched, some.injEq] at hn
    rw [← hn]
    split_ifs <;> rfl
  | spin => cases hn
  | ret _ | leak _ | goto _ | panic _ =>
    cases hn
    rfl

omit [DecidableEq C] in
theorem Frame.Goes.tNum {f : Frame} {fs : List Frame} {T : Table} (h : f.Goes s me ok T fs) (p : ProcId) :
    (T.proc p).tNum = (s.table.proc p).tNum := by
  cases h with
  | mark _ =>
    unfold Table.execMark
    split_ifs <;> rfl
  | execDone =>
    by_cases hp : p = me.1
    · cases ok <;> simp [Kernel.execDone, Table.setProc, Table.free, hp]
    · cases ok <;> simp [Kernel.execDone, Table.setProc, Table.free, hp]
  | sleepBack | trapExit _ | enter _ | kernel | marked _ | check _ | again _ | alone _ | exitProcess _ => rfl

/-- CPU `c` is in section `k` of thread `me`. -/
def Kernel.InSec (s : Kernel C) (c : C) (me : Slot) (k : Sec) : Prop :=
  (s.cpu c).thread = some me ∧ ∃ st, (s.cpu c).ctl = .run (.crit k :: st)

theorem Kernel.InSec.next_proc {k : Sec} (h : s.InSec c me k) (hn : s.next c (.go ok) = some s') :
    s'.table.proc = (s.table.crit me ok k).1.proc := by
  obtain ⟨hme, st, hctl⟩ := h
  simp only [Kernel.next, Kernel.go, hctl, hme] at hn
  exact Kernel.crit_proc hn

theorem Kernel.next_tNum (hn : s.next c a = some s') :
    (∀ p, (s'.table.proc p).tNum = (s.table.proc p).tNum) ∨ ∃ me ok k, a = .go ok ∧
      s.InSec c me k := by
  cases Kernel.next_step hn with
  | crit hme hctl _ => exact .inr ⟨_, _, _, rfl, hme, _, hctl⟩
  | acquire _ _ | deadlock _ _ | panic _ _ _ | switch _ _ _ => exact .inl fun _ => rfl
  | release _ => exact .inl fun p => by rw [Kernel.release_table]
  | frame _ _ hf => exact .inl hf.tNum
  | push _ hp =>
    left
    cases hp with
    | fault hme => exact (Wakes.fault s.table _).tNum
    | syscall _ | tick | timer _ | interrupt _ _ | sleep _ | wakeup _ => exact fun _ => rfl
  | idle hk =>
    left
    generalize (s.cpu c).ctl = k₀ at hk
    cases hk <;> exact fun _ => rfl

/-! ## Counting the creations -/

/-- The process whose thread runs the section of `kthread_create` in this step. -/
def creator (s : Kernel C) (a : C × Act) : Option ProcId :=
  match a.2, (s.cpu a.1).thread, (s.cpu a.1).ctl with
  | .go _, some me, .run (.crit .kthreadCreate :: _) => some me.1
  | _, _, _ => none

/-- The process that `allocproc` takes in this step. -/
def forked (s : Kernel C) (a : C × Act) : Option ProcId :=
  match a.2, (s.cpu a.1).thread, (s.cpu a.1).ctl with
  | .go _, some _, .run (.crit .allocproc :: _) => s.table.findUnused
  | _, _, _ => none

/-- A kernel, with the calls of `kthread_create` each process has made since `fork` made it. -/
structure Counted (C : Type) where
  kernel : Kernel C
  created : ProcId → ℕ

def Counted.count (s : Counted C) (a : C × Act) (p : ProcId) : ℕ :=
  if forked s.kernel a = some p then 0
  else if creator s.kernel a = some p then s.created p + 1
  else s.created p

/-- The kernel with the count; the count has no effect on the steps. -/
def countedSys (C : Type) [DecidableEq C] : Machine.Sys (Counted C) (C × Act) where
  init s := ∃ base, s = ⟨.boot C base, fun _ => 0⟩
  next s a := (s.kernel.next a.1 a.2).map fun s' => ⟨s', s.count a⟩

/-- A process calls `kthread_create` at most `NTHREADS - 1` times. -/
def fewCreations (s : Counted C) (a : C × Act) : Bool :=
  match creator s.kernel a with
  | some p => decide (s.created p + 1 < NTHREADS)
  | none => true

variable {u : Counted C}

omit [DecidableEq C] in
theorem creator_eq_some : creator s (c, a) = some p ↔ ∃ me ok, a = .go ok ∧
    s.InSec c me .kthreadCreate ∧ p = me.1 := by
  constructor
  · intro h
    unfold creator at h
    split at h
    · rename_i ok me st ha hme hctl
      exact ⟨me, ok, ha, ⟨hme, st, hctl⟩, (some.inj h).symm⟩
    · cases h
  · rintro ⟨me, ok, rfl, ⟨hme, st, hctl⟩, rfl⟩
    simp only [creator, hme, hctl]

omit [DecidableEq C] in
theorem forked_eq_some : forked s (c, a) = some p ↔
    ∃ me ok, a = .go ok ∧ s.InSec c me .allocproc ∧ s.table.findUnused = some p := by
  constructor
  · intro h
    unfold forked at h
    split at h
    · rename_i ok me st ha hme hctl
      exact ⟨me, ok, ha, ⟨hme, st, hctl⟩, h⟩
    · cases h
  · rintro ⟨me, ok, rfl, ⟨hme, st, hctl⟩, hp⟩
    simp only [forked, hme, hctl, hp]

omit [DecidableEq C] in
theorem fewCreations_lt (h : fewCreations u (c, a)) (hp : creator u.kernel (c, a) = some p) :
    u.created p + 1 < NTHREADS := by
  rw [fewCreations, hp] at h
  exact of_decide_eq_true h

/-- Of the slots below `t_num` one is the first thread's, and the others belong to calls of
`kthread_create`. -/
def Counted.Bounds (u : Counted C) : Prop :=
  ∀ p, (u.kernel.table.proc p).tNum ≤ u.created p + 1 ∧ u.created p + 1 ≤ NTHREADS

theorem Counted.Bounds.step {u' : Counted C} {i : C × Act} (h : u.Bounds) (hok : fewCreations u i)
    (hn : (countedSys C).next u i = some u') : u'.Bounds := by
  obtain ⟨s', hs', rfl⟩ := map_eq_some_iff.1 hn
  obtain ⟨c, a⟩ := i
  intro p
  simp only [Counted.count]
  split_ifs with hforked hcreator
  · -- a new process has its first thread
    obtain ⟨me, ok, rfl, hsec, hp⟩ := forked_eq_some.1 hforked
    rw [hsec.next_proc hs', crit, (allocproc_some hp ok).1, update_self]
    exact ⟨le_rfl, by decide⟩
  · have hlt := fewCreations_lt hok hcreator
    obtain ⟨me, ok, rfl, hsec, rfl⟩ := creator_eq_some.1 hcreator
    have htNum := (h me.1).1
    rw [hsec.next_proc hs', crit, kthreadCreate_fst, allocthread_proc (by omega), update_self]
    exact ⟨by dsimp only; omega, by omega⟩
  · refine ⟨?_, (h p).2⟩
    obtain hsame | ⟨me, ok, k, rfl, hsec⟩ := Kernel.next_tNum hs'
    · rw [hsame]
      exact (h p).1
    rw [hsec.next_proc hs']
    by_cases hk : k = .kthreadCreate
    · -- a thread is made in another process
      subst hk
      have hlt := fewCreations_lt hok (creator_eq_some.2 ⟨me, ok, rfl, hsec, rfl⟩)
      have htNum := (h me.1).1
      have hp : p ≠ me.1 := fun hp => hcreator (creator_eq_some.2 ⟨me, ok, rfl, hsec, hp⟩)
      rw [crit, kthreadCreate_fst, allocthread_proc (by omega), update_of_ne hp]
      exact (h p).1
    · rw [crit_tNum hk fun ha hp => hforked (forked_eq_some.2 ⟨me, ok, rfl, ha ▸ hsec, hp⟩)]
      exact (h p).1

theorem Counted.Bounds.of_reachable
    (h : (countedSys C).ReachableVia (fun u i => fewCreations u i) u) : u.Bounds := by
  refine h.invariant (fun u hu p => ?_) fun u i u' hu hok hn => hu.step hok hn
  obtain ⟨base, rfl⟩ := hu
  refine ⟨?_, show 0 + 1 ≤ NTHREADS by decide⟩
  simp only [Kernel.boot, userinit]
  split_ifs
  · exact le_rfl
  · exact Nat.zero_le _

theorem Table.kthreadCreate_ret (hb : (T.proc me.1).tNum < NTHREADS) :
    (T.kthreadCreate me true).2 = .ret ((T.proc me.1).tNum + 1) := by
  have hproc : ((T.allocthread me.1 false true).proc me.1).tNum - 1 = (T.proc me.1).tNum := by
    rw [allocthread_proc hb, update_self]
    rfl
  simp only [kthreadCreate, if_true, hproc, dif_pos hb, allocthread_thread hb, update_self,
    newThread]

/-- With at most `NTHREADS - 1` calls of `kthread_create` in the life of each process, `t_num` is at
most `NTHREADS`, every call of `allocthread` is for a slot of the array, and `kthread_create`
returns a value that is not positive only when `kalloc` fails. -/
theorem thread_slots_in_bounds (h : (countedSys C).ReachableVia (fun u i => fewCreations u i) u) :
    (∀ p, (u.kernel.table.proc p).tNum ≤ NTHREADS) ∧
    ∀ c ok, fewCreations u (c, .go ok) → ∀ me k, u.kernel.InSec c me k →
      (∀ T p, u.kernel.table.allocthreadCall me k = some (T, p) → (T.proc p).tNum < NTHREADS) ∧
      (k = .kthreadCreate → ∀ v ≤ 0, (u.kernel.table.crit me ok k).2 = .ret v ∨
        (u.kernel.table.crit me ok k).2 = .leak v → ok = false) := by
  have hbounds := Counted.Bounds.of_reachable h
  refine ⟨fun p => (hbounds p).1.trans (hbounds p).2, fun c ok hok me k hsec => ?_⟩
  -- the slot of `kthread_create` is within the count
  have hslot : k = .kthreadCreate → (u.kernel.table.proc me.1).tNum < NTHREADS := fun hk => by
    have hlt := fewCreations_lt hok (creator_eq_some.2 ⟨me, ok, rfl, hk ▸ hsec, rfl⟩)
    have := (hbounds me.1).1
    omega
  refine ⟨fun T p hcall => ?_, fun hk v hv hret => ?_⟩
  · unfold allocthreadCall at hcall
    split at hcall
    · cases hcall
      exact hslot rfl
    · obtain ⟨q, -, hq⟩ := map_eq_some_iff.1 hcall
      cases hq
      simp [setProc, NTHREADS]
    · cases hcall
  · by_contra hfail
    rw [Bool.not_eq_false] at hfail
    subst hk hfail
    rw [crit, kthreadCreate_ret (hslot rfl)] at hret
    simp only [Out.ret.injEq, reduceCtorEq, or_false] at hret
    omega

theorem thread_slots_in_bounds_two :
    ∃ u : Counted (Fin 2), (countedSys (Fin 2)).ReachableVia (fun u i => fewCreations u i) u ∧
      u.created ⟨0, by decide⟩ = 2 ∧ ∀ p, (u.kernel.table.proc p).tNum ≤ NTHREADS := by
  obtain ⟨u, hreach, hcreated⟩ :
    ∃ u, (countedSys (Fin 2)).ReachableVia (fun u i => fewCreations u i) u ∧
      u.created ⟨0, NPROC_pos⟩ = 2 :=
    Machine.Sys.exists_reachableVia
      (startUser 0 ++ (List.replicate 2 (callOn 0 .kthreadCreate (List.replicate 6 true))).flatten)
      (show (countedSys (Fin 2)).init ⟨.boot _ 0, fun _ => 0⟩ from ⟨0, rfl⟩) (by decide +kernel)
  exact ⟨u, hreach, hcreated, (thread_slots_in_bounds hreach).1⟩

/-! ## A sixteenth call -/

/-- The thread on CPU 1 exits, and CPU 1 goes on with the next slot. -/
def exitNext : List (Fin 2 × Act) := callOn 1 .kthreadExit (List.replicate 6 true)

/-- The first thread makes 15 threads.  The first 14 of them exit, and it calls `kthread_create`
again. -/
def sixteenth : List (Fin 2 × Act) :=
  startUser 0 ++ (List.replicate 15 (callOn 0 .kthreadCreate (List.replicate 6 true))).flatten ++
    startUser 1 ++ (List.replicate 14 exitNext).flatten ++ callOn 0 .kthreadCreate
      (List.replicate 3 true)

/-- `kthread_create` is about to use a slot past the array, with two threads alive in the
process. -/
theorem slot_out_of_bounds :
    ∃ s : Kernel (Fin 2), (kernelSys (Fin 2)).Reachable s ∧ s.InSec 0 (initSlot 0) .kthreadCreate ∧
      (s.table.running (initSlot 0).1).length = 2 ∧
      (s.table.allocthreadCall (initSlot 0) .kthreadCreate).map (fun r => (r.1.proc r.2).tNum) =
      some NTHREADS := by
  obtain ⟨s, hreach, hme, hctl, hlive, htNum⟩ : ∃ s, (kernelSys (Fin 2)).Reachable s ∧
      (s.cpu 0).thread = some (initSlot 0) ∧
      (s.cpu 0).ctl = .run [.crit .kthreadCreate, .trapExit] ∧
      (s.table.running (initSlot 0).1).length = 2 ∧ (s.table.proc (initSlot 0).1).tNum = NTHREADS :=
    Machine.Sys.exists_reachable sixteenth (boot_init 0) (by decide +kernel)
  exact ⟨s, hreach, ⟨hme, _, hctl⟩, hlive, congrArg some htNum⟩

end Xv6.Ptable
