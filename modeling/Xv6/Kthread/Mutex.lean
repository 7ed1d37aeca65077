import Xv6.Param
import Xv6.Lib.Machine
import Mathlib.Data.Fintype.Basic
import Mathlib.Logic.Function.Iterate

/-!
# Kernel mutexes

`kthread_mutex_alloc`, `kthread_mutex_lock` and `kthread_mutex_unlock` of `proc.c`.  Lock and unlock
copy the table entry into a local variable and take the spinlock, test and set `locked`, sleep and
wake on that copy.  The copy and the critical section are one step each; `kill` may wake a sleeping
thread.

`holds` and `contended` are ghost fields.  `holds t id`: thread `t` has returned 0 from
`kthread_mutex_lock(id)` and has not called `kthread_mutex_unlock(id)` since.  `contended t`: when
`t` last called lock another thread held the mutex, and no thread has called unlock on it since.
-/

namespace Xv6.Kthread

open Function Machine.Sys Option

/-- `struct kthread_mutex_t`; of the spinlock only whether it is held. -/
structure Mutex where
  locked : Bool
  lk : Bool
  id : ℤ
  deriving DecidableEq

/-- The mutex table and the number of mutexes handed out. -/
structure Table where
  /-- The memory at `mutexes`; the array is the indices `0 .. MAX_MUTEXES - 1`. -/
  mutexes : ℤ → Mutex
  mutexNum : ℕ

/-- The table after boot: static storage is zero, `mem` is the memory around it. -/
def Table.boot (mem : ℤ → Mutex) : Table :=
  ⟨fun i => if 0 ≤ i ∧ i < MAX_MUTEXES then ⟨false, false, 0⟩ else mem i, 0⟩

/-- `kthread_mutex_alloc`, run alone: the id returned and the new table. -/
def kthreadMutexAlloc (k : Table) : ℤ × Table :=
  if k.mutexNum = MAX_MUTEXES then (-1, k)
  else
    let num := k.mutexNum + 1
    (num, ⟨update k.mutexes (num - 1 : ℤ) ⟨false, false, num⟩, num⟩)

inductive MutexPc where
  | user
  /-- In lock, past the range check. -/
  | lockCopy (id : ℤ)
  /-- In lock with the local copy `m`, RUNNABLE before the critical section. -/
  | lockAcquire (id : ℤ) (m : Mutex)
  /-- SLEEPING in lock, on the address of its local copy. -/
  | lockSleep (id : ℤ) (m : Mutex)
  /-- In unlock, past the range check. -/
  | unlockCopy (id : ℤ)
  /-- In unlock with the local copy `m`, before the critical section. -/
  | unlockAcquire (id : ℤ) (m : Mutex)
  deriving DecidableEq

@[simp] def MutexPc.locking : MutexPc → Option ℤ
  | lockCopy id | lockAcquire id _ | lockSleep id _ => some id
  | _ => none

/-- Sleep channels: the addresses of the local variables `mutex`, one for each thread and call. -/
inductive Chan (T : Type) where
  | lockVar (t : T)
  | unlockVar (t : T)
  deriving DecidableEq

structure MutexState (T : Type) where
  table : Table
  pc : T → MutexPc
  /-- Ghost: who holds which mutex. -/
  holds : T → ℤ → Bool
  /-- Ghost: whose lock call found the mutex held by another thread. -/
  contended : T → Bool

inductive MutexAct where
  | lock (id : ℤ)
  | unlock (id : ℤ)
  /-- Run to the end of the next critical section or copy. -/
  | run
  /-- The thread is killed, which wakes it. -/
  | kill
  deriving DecidableEq

def outOfRange (id : ℤ) : Bool := 0 > id || id > MAX_MUTEXES

variable {T : Type} [DecidableEq T] {s : MutexState T}

namespace MutexState

def goto (s : MutexState T) (t : T) (p : MutexPc) : MutexState T :=
  { s with pc := update s.pc t p }

/-- `wakeup(chan)`: a thread sleeping in lock sleeps on its own local variable. -/
def wakeup (s : MutexState T) (chan : Chan T) : MutexState T :=
  { s with pc := fun t =>
      match s.pc t with
      | .lockSleep id m => if chan = .lockVar t then .lockAcquire id m else .lockSleep id m
      | p => p }

/-- The critical section of `kthread_mutex_lock` on the local copy `m`. -/
def lockSection (s : MutexState T) (t : T) (id : ℤ) (m : Mutex) : Option (MutexState T) :=
  if m.lk then none  -- `acquire` spins: the copied spinlock is never released
  else if m.locked then some (s.goto t (.lockSleep id m))
  else some ({ s with holds := update s.holds t (update (s.holds t) id true) }.goto t
    .user)

/-- The critical section of `kthread_mutex_unlock` on the local copy `m`. -/
def unlockSection (s : MutexState T) (t : T) (m : Mutex) : Option (MutexState T) :=
  if m.lk then none else some ((s.wakeup (.unlockVar t)).goto t .user)

variable [Fintype T]

variable (s : MutexState T)

/-- Thread `t` calls lock; out of range it returns -1 at once. -/
def callLock (t : T) (id : ℤ) : MutexState T :=
  if outOfRange id then s
  else
    { s with contended := update s.contended t (decide (∃ u, u ≠ t ∧ s.holds u id)) }.goto
      t (.lockCopy id)

/-- Thread `t` calls unlock; out of range it returns -1 at once. -/
def callUnlock (t : T) (id : ℤ) : MutexState T :=
  if outOfRange id then s
  else
    { s with
      holds := update s.holds t (update (s.holds t) id false)
      contended := fun u => if (s.pc u).locking = some id then false else s.contended u }.goto t
      (.unlockCopy id)

def next (t : T) : MutexAct → Option (MutexState T)
  | .lock id => if s.pc t = .user then some (s.callLock t id) else none
  | .unlock id => if s.pc t = .user then some (s.callUnlock t id) else none
  | .kill =>
    match s.pc t with
    | .lockSleep id m => some (s.goto t (.lockAcquire id m))
    | _ => none
  | .run =>
    match s.pc t with
    | .lockCopy id => some (s.goto t (.lockAcquire id (s.table.mutexes (id - 1))))
    | .lockAcquire id m => s.lockSection t id m
    | .unlockCopy id => some (s.goto t (.unlockAcquire id (s.table.mutexes (id - 1))))
    | .unlockAcquire _ m => s.unlockSection t m
    | _ => none

end MutexState

/-- The threads of `T` outside the mutex calls, after `n` calls of `kthread_mutex_alloc`. -/
def MutexState.allocated (T : Type) (mem : ℤ → Mutex) (n : ℕ) : MutexState T :=
  ⟨(fun k => (kthreadMutexAlloc k).2)^[n] (.boot mem), fun _ => .user, fun _ _ => false,
    fun _ => false⟩

/-- The threads of `T` locking and unlocking after `n` calls of `kthread_mutex_alloc`. -/
def mutexSys (T : Type) [DecidableEq T] [Fintype T] (n : ℕ) :
    Machine.Sys (MutexState T) (T × MutexAct) where
  init s := ∃ mem, s = .allocated T mem n
  next s i := s.next i.1 i.2

def Exclusive (s : MutexState T) (id : ℤ) : Prop :=
  ∀ t u, s.holds t id → s.holds u id → t = u

/-- No lock call that found the mutex held by another thread has returned before an unlock. -/
def Waited (s : MutexState T) : Prop := ∀ t, s.pc t = .user → s.contended t = false

/-- Lock is called only while no other thread holds the mutex or is inside lock on it. -/
def Serialised (s : MutexState T) (i : T × MutexAct) : Prop :=
  ∀ id, i.2 = .lock id → ∀ u, u ≠ i.1 → s.holds u id = false ∧ (s.pc u).locking ≠ some id

instance [Fintype T] (s : MutexState T) (i : T × MutexAct) : Decidable (Serialised s i) :=
  match i with
  | (t, .lock id) => decidable_of_iff (∀ u, u ≠ t → s.holds u id = false ∧
    (s.pc u).locking ≠ some id)
      ⟨fun h _ hid => by cases hid; exact h, fun h => h id rfl⟩
  | (_, .unlock _) => .isTrue fun _ h => nomatch h
  | (_, .run) => .isTrue fun _ h => nomatch h
  | (_, .kill) => .isTrue fun _ h => nomatch h

/-! ## Lock never waits -/

/-- The entries of the array are unlocked, with free spinlocks. -/
def Table.Unlocked (k : Table) : Prop :=
  ∀ id, 0 < id → outOfRange id = false →
    (k.mutexes (id - 1)).locked = false ∧ (k.mutexes (id - 1)).lk = false

theorem Table.unlocked_boot (mem : ℤ → Mutex) : (Table.boot mem).Unlocked := by
  intro id h0 hr
  have hi : 0 ≤ id - 1 ∧ id - 1 < MAX_MUTEXES := by
    simp only [outOfRange, Bool.or_eq_false_iff, decide_eq_false_iff_not] at hr
    omega
  simp only [Table.boot, if_pos hi, and_self]

theorem Table.Unlocked.alloc {k : Table} (h : k.Unlocked) : (kthreadMutexAlloc k).2.Unlocked := by
  unfold kthreadMutexAlloc
  split_ifs
  · exact h
  · intro id h0 hr
    simp only [update_apply]
    split_ifs
    · exact ⟨rfl, rfl⟩
    · exact h id h0 hr

theorem Table.unlocked_allocs (mem : ℤ → Mutex) (n : ℕ) :
    ((fun k => (kthreadMutexAlloc k).2)^[n] (.boot mem)).Unlocked := by
  induction n with
  | zero => exact unlocked_boot mem
  | succ n ih =>
    rw [Function.iterate_succ_apply']
    exact ih.alloc

/-- A thread in lock or unlock works on an unlocked copy and is not asleep. -/
def MutexPc.Unlocked : MutexPc → Prop
  | user => True
  | lockCopy id | unlockCopy id => 0 < id → outOfRange id = false
  | lockAcquire id m | unlockAcquire id m => 0 < id → m.locked = false ∧ m.lk = false
  | lockSleep id _ => ¬ 0 < id

theorem MutexState.table_of_next [Fintype T] {s s' : MutexState T} {t : T} {a : MutexAct}
    (h : s.next t a = some s') : s'.table = s.table := by
  cases a <;> simp only [next, lockSection, unlockSection, callLock, callUnlock] at h
  all_goals (split at h <;> (try split_ifs at h) <;> cases h <;> rfl)

theorem MutexState.unlocked_goto {t : T} (p : MutexPc) (hp : p.Unlocked)
    (h : ∀ u, (s.pc u).Unlocked) (u : T) : ((s.goto t p).pc u).Unlocked :=
  (forall_update_iff s.pc fun _ q => MutexPc.Unlocked q).2 ⟨hp, fun u _ => h u⟩ u

theorem MutexState.unlocked_wakeup (c : Chan T) (h : ∀ u, (s.pc u).Unlocked)
    (u : T) : ((s.wakeup c).pc u).Unlocked := by
  have hu := h u
  simp only [wakeup]
  split
  · rename_i id m hpc
    rw [hpc] at hu
    split_ifs
    · exact fun h0 => absurd h0 hu
    · exact hu
  · exact hu

theorem MutexState.unlocked_of_next [Fintype T] {s s' : MutexState T} {t : T} {a : MutexAct}
    (hk : s.table.Unlocked) (h : ∀ u, (s.pc u).Unlocked) (hn : s.next t a = some s') (u : T) :
    (s'.pc u).Unlocked := by
  have ht := h t
  cases a with
  | lock id =>
    simp only [next, ite_none_right_eq_some, some.injEq, callLock] at hn
    obtain ⟨-, rfl⟩ := hn
    split_ifs with hr
    · exact h u
    · exact unlocked_goto (.lockCopy id) (fun _ => Bool.of_not_eq_true hr) (fun v => h v) u
  | unlock id =>
    simp only [next, ite_none_right_eq_some, some.injEq, callUnlock] at hn
    obtain ⟨-, rfl⟩ := hn
    split_ifs with hr
    · exact h u
    · exact unlocked_goto (.unlockCopy id) (fun _ => Bool.of_not_eq_true hr) (fun v => h v) u
  | kill =>
    simp only [next] at hn
    split at hn <;> cases hn
    rename_i id m hpc
    rw [hpc] at ht
    exact unlocked_goto (.lockAcquire id m) (fun h0 => absurd h0 ht) h u
  | run =>
    simp only [next, lockSection, unlockSection] at hn
    split at hn
    · rename_i id hpc
      rw [hpc] at ht
      cases hn
      exact unlocked_goto (.lockAcquire id _) (fun h0 => hk id h0 (ht h0)) h u
    · rename_i id m hpc
      rw [hpc] at ht
      split_ifs at hn with hlk hl <;> cases hn
      · exact unlocked_goto (.lockSleep id m) (fun h0 => by simp [(ht h0).1] at hl) h u
      · exact unlocked_goto .user trivial (fun v => h v) u
    · rename_i id hpc
      rw [hpc] at ht
      cases hn
      exact unlocked_goto (.unlockAcquire id _) (fun h0 => hk id h0 (ht h0)) h u
    · split_ifs at hn
      cases hn
      exact unlocked_goto .user trivial (unlocked_wakeup _ h) u
    · cases hn

def MutexState.Unlocked (s : MutexState T) : Prop := s.table.Unlocked ∧ ∀ u, (s.pc u).Unlocked

/-- In no run does a thread sleep or spin in `kthread_mutex_lock(id)`, whoever holds the mutex: no
call writes the table, and `locked` is 0 in every copy. -/
theorem lock_never_waits [Fintype T] {n : ℕ} {s : MutexState T} (h : (mutexSys T n).Reachable s)
    {t : T} {id : ℤ} (hid : 0 < id) {m : Mutex} : s.pc t ≠ .lockSleep id m ∧
      (s.pc t = .lockAcquire id m → ∃ s', s.next t .run = some s' ∧ s'.holds t id) := by
  have inv : s.Unlocked := by
    refine h.invariant ?_ fun s i s' inv hn => ?_
    · rintro _ ⟨mem, rfl⟩
      exact ⟨Table.unlocked_allocs mem n, fun _ => trivial⟩
    · exact ⟨MutexState.table_of_next hn ▸ inv.1, MutexState.unlocked_of_next inv.1 inv.2 hn⟩
  have ht := inv.2 t
  refine ⟨fun hpc => ?_, fun hpc => ?_⟩
  · rw [hpc] at ht
    exact ht hid
  · rw [hpc] at ht
    obtain ⟨hl, hlk⟩ := ht hid
    refine ⟨_, by simp only [MutexState.next, hpc, MutexState.lockSection, hl, hlk]; rfl, ?_⟩
    simp [MutexState.goto]

/-! ## Two holders -/

def bothLock : List (Fin 2 × MutexAct) :=
  [(0, .lock 1), (0, .run), (0, .run), (1, .lock 1), (1, .run), (1, .run)]

/-- Thread 1 comes to the lock that thread 0 holds. -/
theorem lock_never_waits_held : ∃ s s' : MutexState (Fin 2), s.holds 0 1 ∧ s.next 1 .run = some s' ∧
    s'.holds 1 1 := by
  obtain ⟨s, m, hs, h0, hpc⟩ :
    ∃ s m, (mutexSys (Fin 2) 1).run (.allocated (Fin 2) (fun _ => ⟨false, false, 0⟩) 1)
      (bothLock.take 5) = some s ∧ s.holds 0 1 ∧ s.pc 1 = .lockAcquire 1 m := ⟨_, _, rfl, rfl, rfl⟩
  obtain ⟨s', hn, h1⟩ := (lock_never_waits (reachable_of_run (.init ⟨_, rfl⟩) hs) Int.one_pos).2 hpc
  exact ⟨s, s', h0, hn, h1⟩

/-- Mutual exclusion fails, and so does waiting: thread 1 calls lock while thread 0 holds the mutex
and returns without an unlock. -/
theorem two_holders :
    ∃ s : MutexState (Fin 2), (mutexSys (Fin 2) 1).Reachable s ∧ ¬ Exclusive s 1 ∧ ¬ Waited s := by
  obtain ⟨s, hs, h0, h1, hpc, hc⟩ : ∃ s, (mutexSys (Fin 2) 1).run
      (.allocated (Fin 2) (fun _ => ⟨false, false, 0⟩) 1) bothLock = some s ∧ s.holds 0 1 ∧
      s.holds 1 1 ∧ s.pc 1 = .user ∧ s.contended 1 := ⟨_, rfl, rfl, rfl, rfl, rfl⟩
  refine ⟨s, reachable_of_run (.init ⟨_, rfl⟩) hs, fun he => ?_, fun hw => ?_⟩
  · exact absurd (he 0 1 h0 h1) (by decide)
  · rw [hw 1 hpc] at hc
    exact absurd hc (by decide)

/-! ## Serialised callers -/

/-- Thread `t` holds the mutex or is inside lock on it. -/
def engaged (s : MutexState T) (t : T) (id : ℤ) : Prop :=
  s.holds t id ∨ (s.pc t).locking = some id

theorem engaged_goto {t u : T} {p : MutexPc} {id : ℤ}
    (hp : p.locking = some id → engaged s t id) (h : engaged (s.goto t p) u id) :
    engaged s u id := by
  by_cases hu : u = t
  · subst hu
    refine h.elim Or.inl fun hl => hp ?_
    simpa [MutexState.goto] using hl
  · refine h.imp_right fun hl => ?_
    simpa [MutexState.goto, hu] using hl

theorem engaged_wakeup {u : T} {c : Chan T} {id : ℤ}
    (h : engaged (s.wakeup c) u id) : engaged s u id := by
  refine h.imp_right fun hl => ?_
  simp only [MutexState.wakeup] at hl
  split at hl
  · rename_i hpc
    rw [hpc]
    split_ifs at hl <;> exact hl
  · exact hl

variable [Fintype T]

section

variable {s s' : MutexState T} {t : T} {a : MutexAct} (h : s.next t a = some s') {u : T}

include h

theorem engaged_of_next {id : ℤ} (hu : engaged s' u id) : engaged s u id ∨
    (u = t ∧ a = .lock id) := by
  cases a with
  | lock j =>
    simp only [MutexState.next, ite_none_right_eq_some, some.injEq] at h
    obtain ⟨-, rfl⟩ := h
    unfold MutexState.callLock at hu
    split_ifs at hu with hr
    · exact .inl hu
    · by_cases hj : u = t ∧ j = id
      · exact .inr ⟨hj.1, by rw [hj.2]⟩
      · refine .inl (hu.imp_right fun hl => ?_)
        simp only [MutexState.goto, update_apply] at hl
        split_ifs at hl with hut
        · exact absurd ⟨hut, some.inj hl⟩ hj
        · exact hl
  | unlock j =>
    simp only [MutexState.next, ite_none_right_eq_some, some.injEq] at h
    obtain ⟨-, rfl⟩ := h
    unfold MutexState.callUnlock at hu
    split_ifs at hu with hr
    · exact .inl hu
    · left
      refine (engaged_goto (by simp) hu).imp_left fun hh => ?_
      simp only [update_apply] at hh
      split_ifs at hh with hut
      · subst hut
        simp only [update_apply] at hh
        split_ifs at hh
        exact hh
      · exact hh
  | kill =>
    simp only [MutexState.next] at h
    split at h <;> cases h
    rename_i j m hpc
    exact .inl (engaged_goto (fun hj => .inr (by rw [hpc]; exact hj)) hu)
  | run =>
    left
    simp only [MutexState.next] at h
    split at h
    · rename_i j hpc
      cases h
      exact engaged_goto (fun hj => .inr (by rw [hpc]; exact hj)) hu
    · rename_i j m hpc
      simp only [MutexState.lockSection] at h
      split_ifs at h <;> cases h
      · exact engaged_goto (fun hj => .inr (by rw [hpc]; exact hj)) hu
      · -- the call returns 0: the thread holds what it was locking
        rcases engaged_goto (by simp) hu with hh | hl
        · simp only [update_apply] at hh
          split_ifs at hh with hut
          · subst hut
            simp only [update_apply] at hh
            split_ifs at hh with hid
            · exact .inr (by rw [hpc, hid]; rfl)
            · exact .inl hh
          · exact .inl hh
        · exact .inr hl
    · cases h
      exact engaged_goto (by simp) hu
    · simp only [MutexState.unlockSection] at h
      split_ifs at h
      cases h
      exact engaged_wakeup (engaged_goto (by simp) hu)
    · cases h

theorem contended_of_next (hu : s'.contended u) :
    s.contended u ∨ ∃ id v, a = .lock id ∧ v ≠ t ∧ s.holds v id := by
  cases a with
  | lock j =>
    simp only [MutexState.next, ite_none_right_eq_some, some.injEq] at h
    obtain ⟨-, rfl⟩ := h
    unfold MutexState.callLock at hu
    split_ifs at hu with hr
    · exact .inl hu
    · simp only [MutexState.goto, update_apply] at hu
      split_ifs at hu with hut
      · obtain ⟨v, hv, hh⟩ := of_decide_eq_true hu
        exact .inr ⟨j, v, rfl, hv, hh⟩
      · exact .inl hu
  | unlock j =>
    simp only [MutexState.next, ite_none_right_eq_some, some.injEq] at h
    obtain ⟨-, rfl⟩ := h
    unfold MutexState.callUnlock at hu
    split_ifs at hu with hr
    · exact .inl hu
    · simp only [MutexState.goto] at hu
      split_ifs at hu
      exact .inl hu
  | kill =>
    simp only [MutexState.next] at h
    split at h <;> cases h
    exact .inl hu
  | run =>
    left
    simp only [MutexState.next, MutexState.lockSection, MutexState.unlockSection] at h
    split at h <;> (try split_ifs at h) <;> cases h <;> exact hu

end

structure MutexInv (s : MutexState T) : Prop where
  unique : ∀ id t u, engaged s t id → engaged s u id → t = u
  free : ∀ t, s.contended t = false

theorem MutexInv.step {s s' : MutexState T} {t : T} {a : MutexAct} (inv : MutexInv s)
    (hok : Serialised s (t, a)) (h : s.next t a = some s') : MutexInv s' where
  unique id v w hv hw := by
    have hcall : ∀ x, engaged s x id → a = .lock id → x = t := fun x hx ha => by
      by_contra hxt
      obtain ⟨hh, hl⟩ := hok id ha x hxt
      exact hx.elim (by simp [hh]) hl
    rcases engaged_of_next h hv with hv | ⟨rfl, ha⟩ <;>
      rcases engaged_of_next h hw with hw | ⟨rfl, hb⟩
    · exact inv.unique id v w hv hw
    · exact hcall v hv hb
    · exact (hcall w hw ha).symm
    · rfl
  free u := by
    by_contra hu
    rcases contended_of_next h (Bool.of_not_eq_false hu) with hc | ⟨id, v, ha, hv, hh⟩
    · rw [inv.free u] at hc
      exact absurd hc (by decide)
    · rw [(hok id ha v hv).1] at hh
      exact absurd hh (by decide)

/-- In every run in which lock is called only while no other thread holds the mutex or is inside
lock on it, at most one thread holds a mutex in every state reached, and no lock call that found the
mutex held has returned before an unlock. -/
theorem mutex_exclusive_of_serialised {n : ℕ} {s : MutexState T}
    (h : (mutexSys T n).ReachableVia Serialised s) : (∀ id, Exclusive s id) ∧ Waited s := by
  have inv : MutexInv s := by
    refine h.invariant ?_ fun s i s' inv hok hn => inv.step hok hn
    rintro _ ⟨mem, rfl⟩
    exact ⟨fun id t u ht _ => by simp [engaged, MutexState.allocated] at ht, fun _ => rfl⟩
  exact ⟨fun id t u ht hu => inv.unique id t u (.inl ht) (.inl hu), fun t _ => inv.free t⟩

/-- Thread 0 locks and unlocks the mutex, then thread 1 locks it. -/
theorem mutex_exclusive_of_handover : ∃ s : MutexState (Fin 2),
    (mutexSys (Fin 2) 1).ReachableVia Serialised s ∧ s.holds 1 1 ∧ Exclusive s 1 ∧ Waited s := by
  obtain ⟨s, hr, hh⟩ : ∃ s, (mutexSys (Fin 2) 1).ReachableVia Serialised s ∧ s.holds 1 1 :=
    exists_reachableVia
      [(0, .lock 1), (0, .run), (0, .run), (0, .unlock 1), (0, .run), (0, .run),
        (1, .lock 1), (1, .run), (1, .run)]
      (show (mutexSys (Fin 2) 1).init (.allocated (Fin 2) (fun _ => ⟨false, false, 0⟩) 1)
        from ⟨_, rfl⟩) (by decide +kernel)
  have h := mutex_exclusive_of_serialised hr
  exact ⟨s, hr, hh, h.1 1, h.2⟩

end Xv6.Kthread
