import Xv6.Kthread.Mutex
import Mathlib.Data.List.Perm.Basic

/-!
# Ids of kernel mutexes

`kthread_mutex_alloc`, `kthread_mutex_dealloc` and the table accesses of lock and unlock, for
threads that interleave between any two accesses to `mutex_num`, to the table and to `mutexes_lock`.
The table keeps no record of which entries are in use: an id is the value of the counter
`mutex_num`.

`live`, `index` and `out` are ghost fields: the ids returned by alloc and not since deallocated with
success, the index into `mutexes` that the last step used, and what it returned.
-/

namespace Xv6.Kthread

open Function Machine.Sys Option

inductive Op where
  | alloc
  | dealloc (id : ℤ)
  | lock (id : ℤ)
  | unlock (id : ℤ)
  deriving DecidableEq

def Op.id? : Op → Option ℤ
  | alloc => none
  | dealloc id | lock id | unlock id => some id

/-- Where a thread stands: before which access. -/
inductive AllocPc where
  | user
  /-- `mutex_num == 0`. -/
  | allocInit
  /-- `mutex_num == MAX_MUTEXES`. -/
  | allocCheck
  | allocLock
  | allocCount
  | allocUnlock
  /-- `&mutexes[mutex_num - 1]`. -/
  | allocEntry
  /-- `initlock` and `acquire` of the lock of entry `i`. -/
  | allocEntryLock (i : ℤ)
  /-- The entry is written, and its lock released. -/
  | allocSet (i : ℤ)
  | allocRelock (i : ℤ)
  /-- `mutexes[mutex_num - 1] = *mutex`. -/
  | allocCopy (i : ℤ)
  | allocRelease (i : ℤ)
  /-- `return mutex->id`. -/
  | allocRet (i : ℤ)
  | deallocCopy (id : ℤ)
  /-- With the local copy of the entry. -/
  | deallocTest (id : ℤ) (m : Mutex)
  | deallocLock (id : ℤ)
  | deallocCount (id : ℤ)
  | deallocUnlock (id : ℤ)
  | lockCopy (id : ℤ)
  | lockTest (id : ℤ) (m : Mutex)
  | unlockCopy (id : ℤ)
  | unlockTest (id : ℤ) (m : Mutex)
  deriving DecidableEq

def AllocPc.inside : AllocPc → Bool
  | user | lockCopy _ | lockTest _ _ | unlockCopy _ | unlockTest _ _ => false
  | _ => true

/-- The id by which the thread is about to read the table. -/
def AllocPc.copies : AllocPc → Option ℤ
  | deallocCopy id | lockCopy id | unlockCopy id => some id
  | _ => none

structure TableState (T : Type) where
  mutexes : ℤ → Mutex
  mutexNum : ℤ
  mutexesLock : Option T
  pc : T → AllocPc
  live : List ℤ
  index : Option ℤ
  out : Option (Op × ℤ)

/-- A call with its arguments, or the next step of one. -/
inductive TableAct where
  | call (op : Op)
  | run
  deriving DecidableEq

variable {T : Type}

section Steps

variable [DecidableEq T]

namespace TableState

variable (s : TableState T) (t : T)

def goto (p : AllocPc) : TableState T :=
  { s with pc := update s.pc t p, index := none, out := none }

/-- The same, with an access to `mutexes[i]`. -/
def access (i : ℤ) (p : AllocPc) : TableState T :=
  { s with pc := update s.pc t p, index := some i, out := none }

def ret (op : Op) (r : ℤ) : TableState T :=
  { s with pc := update s.pc t .user, index := none, out := some (op, r) }

def setEntry (i : ℤ) (m : Mutex) : TableState T :=
  { s with mutexes := update s.mutexes i m }

def acquire (p : AllocPc) : Option (TableState T) :=
  if s.mutexesLock = none then some ({ s with mutexesLock := some t }.goto t p) else none

/-- `release(&mutexes_lock)`, which panics if the thread has lost the lock to an `initlock`. -/
def release : Option (TableState T) :=
  if s.mutexesLock = some t then some { s with mutexesLock := none } else none

/-- Thread `t` enters a call, up to its range check. -/
def call : Op → TableState T
  | .alloc => s.goto t .allocInit
  | .dealloc id => if outOfRange id then s.ret t (.dealloc id) (-1) else s.goto t (.deallocCopy id)
  | .lock id => if outOfRange id then s.ret t (.lock id) (-1) else s.goto t (.lockCopy id)
  | .unlock id => if outOfRange id then s.ret t (.unlock id) (-1) else s.goto t (.unlockCopy id)

def run : Option (TableState T) :=
  match s.pc t with
  | .user => none
  | .allocInit =>
    -- `initlock` frees the lock even if another thread holds it
    some ({ s with mutexesLock := if s.mutexNum = 0 then none else s.mutexesLock }.goto t
      .allocCheck)
  | .allocCheck =>
    some (if s.mutexNum = MAX_MUTEXES then s.ret t .alloc (-1) else s.goto t .allocLock)
  | .allocLock => s.acquire t .allocCount
  | .allocCount => some ({ s with mutexNum := s.mutexNum + 1 }.goto t .allocUnlock)
  | .allocUnlock => (s.release t).map fun s => s.goto t .allocEntry
  | .allocEntry => some (s.goto t (.allocEntryLock (s.mutexNum - 1)))
  | .allocEntryLock i =>
    some ((s.setEntry i { s.mutexes i with lk := true }).access t i (.allocSet i))
  | .allocSet i => some ((s.setEntry i ⟨false, false, s.mutexNum⟩).access t i (.allocRelock i))
  | .allocRelock i => s.acquire t (.allocCopy i)
  | .allocCopy i =>
    some ((s.setEntry (s.mutexNum - 1) (s.mutexes i)).access t (s.mutexNum - 1) (.allocRelease i))
  | .allocRelease i => (s.release t).map fun s => s.goto t (.allocRet i)
  | .allocRet i =>
    let id := (s.mutexes i).id
    some { { s with live := id :: s.live }.ret t .alloc id with index := some i }
  | .deallocCopy id => some (s.access t (id - 1) (.deallocTest id (s.mutexes (id - 1))))
  | .deallocTest id m =>
    if m.locked then some (s.ret t (.dealloc id) (-1))
    else if m.lk then none  -- `acquire` spins on the copied spinlock
    else some (s.goto t (.deallocLock id))
  | .deallocLock id => s.acquire t (.deallocCount id)
  | .deallocCount id => some ({ s with mutexNum := s.mutexNum - 1 }.goto t (.deallocUnlock id))
  | .deallocUnlock id =>
    (s.release t).map fun s => { s with live := s.live.erase id }.ret t (.dealloc id) 0
  | .lockCopy id => some (s.access t (id - 1) (.lockTest id (s.mutexes (id - 1))))
  -- a copy that is locked stays so, and the call never returns
  | .lockTest id m => if m.lk ∨ m.locked then none else some (s.ret t (.lock id) 0)
  | .unlockCopy id => some (s.access t (id - 1) (.unlockTest id (s.mutexes (id - 1))))
  | .unlockTest id m => if m.lk then none else some (s.ret t (.unlock id) 0)

def next : TableAct → Option (TableState T)
  | .call op => if s.pc t = .user then some (s.call t op) else none
  | .run => s.run t

/-- After boot: static storage is zero, `mem` is the memory around it. -/
def boot (T : Type) (mem : ℤ → Mutex) : TableState T :=
  ⟨(Table.boot mem).mutexes, 0, none, fun _ => .user, [], none, none⟩

end TableState

def tableSys (T : Type) [DecidableEq T] : Machine.Sys (TableState T) (T × TableAct) where
  init s := ∃ mem, s = .boot T mem
  next s l := s.next l.1 l.2

/-- Alloc and dealloc are called one at a time, dealloc for the last id in use, and lock and unlock
for ids in use; ids out of range are allowed. -/
def stackwise [Fintype T] (s : TableState T) (l : T × TableAct) : Bool :=
  match l.2 with
  | .call .alloc => decide (∀ u, (s.pc u).inside = false)
  | .call (.dealloc id) => outOfRange id ||
      decide (id ∈ s.live ∧ (∀ j ∈ s.live, j ≤ id) ∧ ∀ u, (s.pc u).inside = false)
  | .call (.lock id) | .call (.unlock id) => outOfRange id || decide (id ∈ s.live)
  | .run => true

end Steps

/-! ## The invariant -/

/-- The ids in use are `1 .. n`. -/
structure Stack (live : List ℤ) : Prop where
  nodup : live.Nodup
  mem : ∀ id, id ∈ live ↔ 1 ≤ id ∧ id ≤ live.length
  le : live.length ≤ MAX_MUTEXES

theorem stack_nil : Stack [] := ⟨List.nodup_nil, fun id => by simp; omega, by decide⟩

theorem Stack.push {live : List ℤ} (h : Stack live) (hlt : live.length < MAX_MUTEXES) :
    Stack ((live.length + 1 : ℤ) :: live) where
  nodup := List.nodup_cons.2 ⟨fun hmem => by have := (h.mem _).1 hmem; omega, h.nodup⟩
  mem id := by
    rw [List.mem_cons, h.mem, List.length_cons]
    push_cast
    omega
  le := hlt

theorem Stack.pop {live : List ℤ} (h : Stack live) (hpos : 0 < live.length) :
    Stack (live.erase (live.length : ℤ)) where
  nodup := h.nodup.erase _
  mem id := by
    have hmem : (live.length : ℤ) ∈ live := (h.mem _).2 (by omega)
    rw [h.nodup.mem_erase_iff, h.mem, List.length_erase_of_mem hmem]
    omega
  le := (List.erase_sublist.length_le).trans h.le

/-- What holds of the counter, its lock and the new entry while thread `t` is at `p` in alloc or
dealloc. -/
def TableState.Mid (s : TableState T) (t : T) : AllocPc → Prop
  | .allocInit | .allocCheck => s.mutexNum = s.live.length ∧ s.mutexesLock = none
  | .allocLock => s.mutexNum = s.live.length ∧ s.live.length < MAX_MUTEXES ∧ s.mutexesLock = none
  | .allocCount => s.mutexNum = s.live.length ∧ s.live.length < MAX_MUTEXES ∧ s.mutexesLock = some t
  | .allocUnlock => s.mutexNum = s.live.length + 1 ∧ s.live.length < MAX_MUTEXES ∧
    s.mutexesLock = some t
  | .allocEntry => s.mutexNum = s.live.length + 1 ∧ s.live.length < MAX_MUTEXES ∧
    s.mutexesLock = none
  | .allocEntryLock i | .allocSet i => i = s.live.length ∧ s.mutexNum = s.live.length + 1 ∧
      s.live.length < MAX_MUTEXES ∧ s.mutexesLock = none
  | .allocRelock i | .allocRet i => i = s.live.length ∧ s.mutexNum = s.live.length + 1 ∧
      s.live.length < MAX_MUTEXES ∧ s.mutexesLock = none ∧ (s.mutexes i).id = s.live.length + 1
  | .allocCopy i | .allocRelease i => i = s.live.length ∧ s.mutexNum = s.live.length + 1 ∧
      s.live.length < MAX_MUTEXES ∧ s.mutexesLock = some t ∧ (s.mutexes i).id = s.live.length + 1
  | .deallocCopy id | .deallocTest id _ | .deallocLock id =>
      id = s.live.length ∧ 0 < id ∧ s.mutexNum = s.live.length ∧ s.mutexesLock = none
  | .deallocCount id => id = s.live.length ∧ 0 < id ∧ s.mutexNum = s.live.length ∧
    s.mutexesLock = some t
  | .deallocUnlock id =>
      id = s.live.length ∧ 0 < id ∧ s.mutexNum = s.live.length - 1 ∧ s.mutexesLock = some t
  | _ => True

/-- One thread at most is in alloc or dealloc, and otherwise the counter is the number of ids in
use. -/
structure TableInv (s : TableState T) : Prop where
  stack : Stack s.live
  alone : ∀ t u, (s.pc t).inside → (s.pc u).inside → t = u
  mid : ∀ t, (s.pc t).inside → s.Mid t (s.pc t)
  quiet : (∀ t, (s.pc t).inside = false) → s.mutexNum = s.live.length ∧ s.mutexesLock = none
  range : ∀ t id, (s.pc t).copies = some id → 1 ≤ id ∧ id ≤ MAX_MUTEXES
  index : ∀ i, s.index = some i → 0 ≤ i ∧ i < MAX_MUTEXES
  out : s.out = some (.alloc, -1) → s.live.length = MAX_MUTEXES

variable {s s' : TableState T} {t : T}

theorem tableInv_boot (mem : ℤ → Mutex) : TableInv (TableState.boot T mem) where
  stack := stack_nil
  alone _ _ h := nomatch h
  mid _ h := nomatch h
  quiet _ := ⟨rfl, rfl⟩
  range _ _ h := nomatch h
  index _ h := nomatch h
  out h := nomatch h

theorem TableState.Mid.congr {p : AllocPc} {u : T} (h : s.Mid u p)
    (hmutexes : s'.mutexes = s.mutexes) (hnum : s'.mutexNum = s.mutexNum)
    (hlock : s'.mutexesLock = s.mutexesLock) (hlive : s'.live = s.live) : s'.Mid u p := by
  cases p <;> simp only [TableState.Mid, hmutexes, hnum, hlock, hlive] at h ⊢ <;> exact h

theorem one_le_of_inRange (inv : TableInv s) {id : ℤ} (h : id ∈ s.live) :
    1 ≤ id ∧ id ≤ MAX_MUTEXES := by
  have := (inv.stack.mem id).1 h
  have := inv.stack.le
  omega

variable [DecidableEq T]

theorem TableInv.move (inv : TableInv s) {p : AllocPc} (hpc : s'.pc = update s.pc t p)
    (halone : ∀ u, (s.pc u).inside → u = t) (hstack : Stack s'.live) (hmid : p.inside → s'.Mid t p)
    (hquiet : p.inside = false → s'.mutexNum = s'.live.length ∧ s'.mutexesLock = none)
    (hrange : ∀ id, p.copies = some id → 1 ≤ id ∧ id ≤ MAX_MUTEXES)
    (hindex : ∀ i, s'.index = some i → 0 ≤ i ∧ i < MAX_MUTEXES)
    (hout : s'.out = some (.alloc, -1) → s'.live.length = MAX_MUTEXES) : TableInv s' := by
  have hself : s'.pc t = p := by rw [hpc, update_self]
  have hother : ∀ u, u ≠ t → s'.pc u = s.pc u := fun u hu => by rw [hpc, update_of_ne hu]
  have hin : ∀ u, (s'.pc u).inside → u = t := fun u hu => by
    by_contra hut
    rw [hother u hut] at hu
    exact hut (halone u hu)
  refine ⟨hstack, fun u v hu hv => (hin u hu).trans (hin v hv).symm, fun u hu => ?_, fun hno => ?_,
    fun u id hu => ?_, hindex, hout⟩
  · obtain rfl := hin u hu
    rw [hself] at hu ⊢
    exact hmid hu
  · exact hquiet (hself ▸ hno t)
  · by_cases hut : u = t
    · rw [hut, hself] at hu
      exact hrange id hu
    · rw [hother u hut] at hu
      exact inv.range u id hu

theorem TableInv.apart (inv : TableInv s) {p : AllocPc} (hpc : s'.pc = update s.pc t p)
    (ht : (s.pc t).inside = false) (hp : p.inside = false) (hmutexes : s'.mutexes = s.mutexes)
    (hnum : s'.mutexNum = s.mutexNum) (hlock : s'.mutexesLock = s.mutexesLock)
    (hlive : s'.live = s.live) (hrange : ∀ id, p.copies = some id → 1 ≤ id ∧ id ≤ MAX_MUTEXES)
    (hindex : ∀ i, s'.index = some i → 0 ≤ i ∧ i < MAX_MUTEXES)
    (hout : s'.out ≠ some (.alloc, -1)) : TableInv s' := by
  have hself : s'.pc t = p := by rw [hpc, update_self]
  have hother : ∀ u, u ≠ t → s'.pc u = s.pc u := fun u hu => by rw [hpc, update_of_ne hu]
  have hin : ∀ u, (s'.pc u).inside → s'.pc u = s.pc u := fun u hu => hother u fun hut => by
    rw [hut, hself, hp] at hu
    cases hu
  refine ⟨hlive ▸ inv.stack, fun u v hu hv => ?_, fun u hu => ?_, fun hno => ?_, fun u id hu => ?_,
    hindex, fun h => absurd h hout⟩
  · exact inv.alone u v (hin u hu ▸ hu) (hin v hv ▸ hv)
  · have heq := hin u hu
    rw [heq] at hu ⊢
    exact (inv.mid u hu).congr hmutexes hnum hlock hlive
  · rw [hnum, hlive, hlock]
    refine inv.quiet fun u => ?_
    by_cases hut : u = t
    · rw [hut, ht]
    · rw [← hother u hut]
      exact hno u
  · by_cases hut : u = t
    · rw [hut, hself] at hu
      exact hrange id hu
    · rw [hother u hut] at hu
      exact inv.range u id hu

theorem TableInv.call [Fintype T] (inv : TableInv s) {op : Op} (hok : stackwise s (t, .call op))
    (ht : s.pc t = .user) : TableInv (s.call t op) := by
  have hout : (s.pc t).inside = false := by rw [ht]; rfl
  have hquiet : (∀ u, (s.pc u).inside = false) → ∀ u, (s.pc u).inside → u = t := fun h u hu => by
    simp [h u] at hu
  cases op with
  | alloc =>
    have hno := of_decide_eq_true hok
    exact inv.move rfl (hquiet hno) inv.stack (fun _ => inv.quiet hno) nofun
      nofun nofun nofun
  | dealloc id =>
    by_cases hr : outOfRange id
    · simp only [TableState.call, if_pos hr]
      exact inv.apart rfl hout rfl rfl rfl rfl rfl nofun nofun
        (by simp [TableState.ret])
    · simp only [stackwise, hr, Bool.false_or, decide_eq_true_eq] at hok
      obtain ⟨hlive, hlast, hno⟩ := hok
      have hid := (inv.stack.mem id).1 hlive
      have hmax := hlast s.live.length ((inv.stack.mem _).2 (by omega))
      simp only [TableState.call, if_neg hr]
      obtain ⟨hnum, hlock⟩ := inv.quiet hno
      exact inv.move rfl (hquiet hno) inv.stack
        (fun _ => ⟨by simp only [TableState.goto]; omega, by omega, hnum, hlock⟩) nofun
        (fun _ h => by cases h; exact one_le_of_inRange inv hlive) nofun nofun
  | lock id | unlock id =>
    by_cases hr : outOfRange id
    · simp only [TableState.call, if_pos hr]
      exact inv.apart rfl hout rfl rfl rfl rfl rfl nofun nofun
        (by simp [TableState.ret])
    · simp only [stackwise, hr, Bool.false_or, decide_eq_true_eq] at hok
      simp only [TableState.call, if_neg hr]
      exact inv.apart rfl hout rfl rfl rfl rfl rfl
        (fun _ h => by cases h; exact one_le_of_inRange inv hok) nofun
        (by simp [TableState.goto])

theorem TableInv.inner (inv : TableInv s) {p : AllocPc} (hin : (s.pc t).inside)
    (hpc : s'.pc = update s.pc t p) (hp : p.inside) (hcopies : p.copies = none)
    (hlive : s'.live = s.live) (hmid : s'.Mid t p) (hout : s'.out = none)
    (hindex : ∀ i, s'.index = some i → 0 ≤ i ∧ i < MAX_MUTEXES) : TableInv s' :=
  inv.move hpc (fun u hu => inv.alone u t hu hin) (hlive ▸ inv.stack) (fun _ => hmid)
    (fun h => by simp [hp] at h) (fun id h => by simp [hcopies] at h) hindex
    fun h => by simp [hout] at h

theorem TableInv.leave (inv : TableInv s) (hin : (s.pc t).inside)
    (hpc : s'.pc = update s.pc t .user) (hstack : Stack s'.live)
    (hnum : s'.mutexNum = s'.live.length) (hlock : s'.mutexesLock = none)
    (hindex : ∀ i, s'.index = some i → 0 ≤ i ∧ i < MAX_MUTEXES)
    (hout : s'.out = some (.alloc, -1) → s'.live.length = MAX_MUTEXES) : TableInv s' :=
  inv.move hpc (fun u hu => inv.alone u t hu hin) hstack nofun (fun _ => ⟨hnum, hlock⟩)
    nofun hindex hout

theorem TableState.acquire_eq_some {p : AllocPc} : s.acquire t p = some s' ↔ s.mutexesLock = none ∧
      s' = { s with mutexesLock := some t }.goto t p := by
  simp only [TableState.acquire, ite_none_right_eq_some, some.injEq, eq_comm (a := s')]

theorem TableState.release_map_eq_some {f : TableState T → TableState T} :
    (s.release t).map f = some s' ↔ s.mutexesLock = some t ∧
      s' = f { s with mutexesLock := none } := by
  simp only [TableState.release, map_eq_some_iff, ite_none_right_eq_some, some.injEq]
  constructor
  · rintro ⟨_, ⟨h, rfl⟩, rfl⟩
    exact ⟨h, rfl⟩
  · rintro ⟨h, rfl⟩
    exact ⟨_, ⟨h, rfl⟩, rfl⟩

theorem TableInv.run (inv : TableInv s) (hs : s.run t = some s') : TableInv s' := by
  have hin : ∀ {p}, s.pc t = p → p.inside → (s.pc t).inside ∧ s.Mid t p := fun h hp => by
    subst h
    exact ⟨hp, inv.mid t hp⟩
  have hrange := inv.range t
  unfold TableState.run at hs
  generalize hpc : s.pc t = p at hs
  cases p with
  | user => cases hs
  | allocInit =>
    obtain ⟨ht, hnum, hlock⟩ := hin hpc rfl
    cases hs
    exact inv.inner ht rfl rfl rfl rfl ⟨hnum, by simp [TableState.goto, hlock]⟩ rfl nofun
  | allocCheck =>
    obtain ⟨ht, hnum, hlock⟩ := hin hpc rfl
    cases hs
    split_ifs with hmax
    · exact inv.leave ht rfl inv.stack hnum hlock nofun fun _ => by
        simp only [TableState.ret]
        omega
    · have := inv.stack.le
      exact inv.inner ht rfl rfl rfl rfl ⟨hnum, by simp only [TableState.goto]; omega, hlock⟩ rfl
        nofun
  | allocLock =>
    obtain ⟨ht, hnum, hlt, -⟩ := hin hpc rfl
    obtain ⟨-, rfl⟩ := TableState.acquire_eq_some.1 hs
    exact inv.inner ht rfl rfl rfl rfl ⟨hnum, hlt, rfl⟩ rfl nofun
  | allocCount =>
    obtain ⟨ht, hnum, hlt, hlock⟩ := hin hpc rfl
    cases hs
    exact inv.inner ht rfl rfl rfl rfl ⟨by simp only [TableState.goto, hnum], hlt, hlock⟩ rfl nofun
  | allocUnlock =>
    obtain ⟨ht, hnum, hlt, -⟩ := hin hpc rfl
    obtain ⟨-, rfl⟩ := TableState.release_map_eq_some.1 hs
    exact inv.inner ht rfl rfl rfl rfl ⟨hnum, hlt, rfl⟩ rfl nofun
  | allocEntry =>
    obtain ⟨ht, hnum, hlt, hlock⟩ := hin hpc rfl
    cases hs
    exact inv.inner ht rfl rfl rfl rfl ⟨by simp only [TableState.goto]; omega, hnum, hlt, hlock⟩ rfl
      nofun
  | allocEntryLock i =>
    obtain ⟨ht, hi, hnum, hlt, hlock⟩ := hin hpc rfl
    cases hs
    refine inv.inner ht rfl rfl rfl rfl ⟨hi, hnum, hlt, hlock⟩ rfl fun j hj => ?_
    cases hj
    omega
  | allocSet i =>
    obtain ⟨ht, hi, hnum, hlt, hlock⟩ := hin hpc rfl
    cases hs
    refine inv.inner ht rfl rfl rfl rfl ⟨hi, hnum, hlt, hlock, ?_⟩ rfl fun j hj => ?_
    · simpa [TableState.access, TableState.setEntry] using hnum
    · cases hj
      omega
  | allocRelock i =>
    obtain ⟨ht, hi, hnum, hlt, -, hid⟩ := hin hpc rfl
    obtain ⟨-, rfl⟩ := TableState.acquire_eq_some.1 hs
    exact inv.inner ht rfl rfl rfl rfl ⟨hi, hnum, hlt, rfl, hid⟩ rfl nofun
  | allocCopy i =>
    obtain ⟨ht, hi, hnum, hlt, hlock, hid⟩ := hin hpc rfl
    cases hs
    -- the entry is copied to itself
    have hself : s.mutexNum - 1 = i := by omega
    refine inv.inner ht rfl rfl rfl rfl ⟨hi, hnum, hlt, hlock, ?_⟩ rfl fun j hj => ?_
    · simpa [TableState.access, TableState.setEntry, hself] using hid
    · cases hj
      omega
  | allocRelease i =>
    obtain ⟨ht, hi, hnum, hlt, -, hid⟩ := hin hpc rfl
    obtain ⟨-, rfl⟩ := TableState.release_map_eq_some.1 hs
    exact inv.inner ht rfl rfl rfl rfl ⟨hi, hnum, hlt, rfl, hid⟩ rfl nofun
  | allocRet i =>
    obtain ⟨ht, hi, hnum, hlt, hlock, hid⟩ := hin hpc rfl
    cases hs
    refine inv.leave ht rfl ?_ ?_ hlock (fun j hj => ?_) fun h => ?_
    · simp only [TableState.ret, hid]
      exact inv.stack.push hlt
    · simp [TableState.ret, hnum]
    · cases hj
      omega
    · simp only [TableState.ret, hid, some.injEq, Prod.mk.injEq, true_and] at h
      omega
  | deallocCopy id =>
    obtain ⟨ht, hid⟩ := hin hpc rfl
    cases hs
    refine inv.inner ht rfl rfl rfl rfl hid rfl fun j hj => ?_
    have := hrange id (by rw [hpc]; rfl)
    cases hj
    omega
  | deallocTest id m =>
    obtain ⟨ht, hid⟩ := hin hpc rfl
    dsimp only at hs
    split_ifs at hs <;> cases hs
    · exact inv.leave ht rfl inv.stack hid.2.2.1 hid.2.2.2 nofun fun h => by
        simp [TableState.ret] at h
    · exact inv.inner ht rfl rfl rfl rfl hid rfl nofun
  | deallocLock id =>
    obtain ⟨ht, hid, hpos, hnum, -⟩ := hin hpc rfl
    obtain ⟨-, rfl⟩ := TableState.acquire_eq_some.1 hs
    exact inv.inner ht rfl rfl rfl rfl ⟨hid, hpos, hnum, rfl⟩ rfl nofun
  | deallocCount id =>
    obtain ⟨ht, hid, hpos, hnum, hlock⟩ := hin hpc rfl
    cases hs
    exact inv.inner ht rfl rfl rfl rfl ⟨hid, hpos, by simp only [TableState.goto, hnum], hlock⟩ rfl
      nofun
  | deallocUnlock id =>
    obtain ⟨ht, hid, hpos, hnum, -⟩ := hin hpc rfl
    obtain ⟨-, rfl⟩ := TableState.release_map_eq_some.1 hs
    have hmem : id ∈ s.live := (inv.stack.mem id).2 (by omega)
    refine inv.leave ht rfl ?_ ?_ rfl nofun fun h => by simp [TableState.ret] at h
    · simp only [TableState.ret, hid]
      exact inv.stack.pop (by omega)
    · have := List.length_erase_of_mem hmem
      simp only [TableState.ret]
      omega
  | lockCopy id | unlockCopy id =>
    have := hrange id (by rw [hpc]; rfl)
    cases hs
    refine inv.apart rfl (by rw [hpc]; rfl) rfl rfl rfl rfl rfl nofun (fun j hj => ?_) nofun
    cases hj
    omega
  | lockTest id m | unlockTest id m =>
    dsimp only at hs
    split_ifs at hs
    cases hs
    exact inv.apart rfl (by rw [hpc]; rfl) rfl rfl rfl rfl rfl nofun nofun
      (by simp [TableState.ret])

variable [Fintype T]

theorem tableInv_of_reachable (h : (tableSys T).ReachableVia (fun s l => stackwise s l) s) :
    TableInv s := by
  refine h.invariant ?_ ?_
  · rintro _ ⟨mem, rfl⟩
    exact tableInv_boot mem
  · rintro s ⟨t, op | _⟩ s' inv hok hs
    · simp only [tableSys, TableState.next, ite_none_right_eq_some, some.injEq] at hs
      exact hs.2 ▸ inv.call hok hs.1
    · exact inv.run hs

/-- In every run that keeps to `stackwise`: the ids in use are distinct and at most `MAX_MUTEXES`,
alloc fails only when that many are in use, `mutexes` is used within its bounds, and a call for an
id that is not in use returns -1 and changes nothing. -/
theorem mutex_ids_of_stackwise (h : (tableSys T).ReachableVia (fun s l => stackwise s l) s) :
    s.live.Nodup ∧ s.live.length ≤ MAX_MUTEXES ∧
    (s.out = some (.alloc, -1) → s.live.length = MAX_MUTEXES) ∧
    (∀ i, s.index = some i → 0 ≤ i ∧ i < MAX_MUTEXES) ∧
    ∀ t op id s', op.id? = some id → id ∉ s.live → stackwise s (t, .call op) →
      (tableSys T).next s (t, .call op) = some s' →
      s'.out = some (op, -1) ∧ s'.mutexes = s.mutexes ∧ s'.mutexNum = s.mutexNum := by
  have inv := tableInv_of_reachable h
  refine ⟨inv.stack.nodup, inv.stack.le, inv.out, inv.index, fun t op id s' hid hlive hok hs => ?_⟩
  simp only [tableSys, TableState.next, ite_none_right_eq_some, some.injEq] at hs
  obtain ⟨-, rfl⟩ := hs
  cases op with
  | alloc => cases hid
  | dealloc j | lock j | unlock j =>
    obtain rfl : j = id := some.inj hid
    have hr : outOfRange j := by
      by_contra hr
      simp [stackwise, hr, hlive] at hok
    simp only [TableState.call, if_pos hr]
    exact ⟨rfl, rfl, rfl⟩

/-! ## Runs -/

theorem boot_init : (tableSys (Fin 2)).init (.boot (Fin 2) fun _ => ⟨false, false, 0⟩) := ⟨_, rfl⟩

/-- Thread `t` makes a call and runs it for `n` steps. -/
def calls (t : Fin 2) (op : Op) (n : ℕ) : List (Fin 2 × TableAct) :=
  (t, .call op) :: List.replicate n (t, .run)

theorem mutex_ids_of_lastOut : ∃ s, (tableSys (Fin 2)).ReachableVia (fun s l => stackwise s l) s ∧
    s.live = [2, 1] ∧ s.live.Nodup := by
  obtain ⟨s, hreach, hlive⟩ : ∃ s, (tableSys (Fin 2)).ReachableVia (fun s l => stackwise s l) s ∧
      s.live = [2, 1] :=
    exists_reachableVia (calls 0 .alloc 12 ++ calls 0 .alloc 12 ++ calls 1 (.dealloc 2) 5 ++ calls 0
      .alloc 12)
      boot_init (by decide +kernel)
  exact ⟨s, hreach, hlive, (mutex_ids_of_stackwise hreach).1⟩

/-- After alloc, alloc, dealloc(1), alloc the id 2 is in use twice.  Two threads in alloc at once
get the same id.  With no mutex in use, dealloc(0) reads `mutexes[-1]` and lock(5) returns 0. -/
theorem mutex_ids_reused :
    (∃ s, (tableSys (Fin 2)).Reachable s ∧ ∀ t, s.pc t = .user ∧ s.live = [2, 2]) ∧
    (∃ s, (tableSys (Fin 2)).Reachable s ∧ s.live = [2, 2] ∧ s.mutexNum = 2) ∧
    (∃ s, (tableSys (Fin 2)).Reachable s ∧ s.live = [] ∧ s.index = some (-1)) ∧
    ∃ s, (tableSys (Fin 2)).Reachable s ∧ s.live = [] ∧ s.out = some (.lock 5, 0) := by
  refine ⟨exists_reachable (calls 0 .alloc 12 ++ calls 0 .alloc 12 ++ calls 0 (.dealloc 1) 5 ++
    calls 0 .alloc 12) boot_init (by decide +kernel), ?_,
    exists_reachable (calls 0 (.dealloc 0) 1) boot_init (by decide +kernel),
    exists_reachable (calls 0 (.lock 5) 2) boot_init (by decide +kernel)⟩
  -- both count up before either looks for its entry
  exact exists_reachable
    (calls 0 .alloc 5 ++ calls 1 .alloc 5 ++ List.replicate 7 (0, .run) ++ List.replicate 7
      (1, .run)) boot_init
    (by decide +kernel)

end Xv6.Kthread
