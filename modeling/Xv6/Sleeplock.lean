import Xv6.Lib.Machine
import Mathlib.Data.Fintype.Defs
import Mathlib.Logic.Function.Basic

/-!
# Sleep locks

`acquiresleep`, `releasesleep` and `holdingsleep` of `sleeplock.c` on one lock, for any number of
threads; thread `t` belongs to the process with id `pid t`.  Each statement is a step, and so is
each stretch with `ptable.lock`.  A ghost field says which threads have taken the lock and not given
it back.

The lock records the process of its holder, not the thread.
-/

namespace Xv6.Sleeplock

open Function

inductive Pc where
  | user
  -- `acquiresleep`: `acquire`, also that of `sleep`; the test of the loop; `sleep`; `locked = 1`; `pid = ...`
  | aAcquire
  | aTest
  | aSleep
  | aTake
  | aPid
  -- `releasesleep`: `acquire`; `locked = 0`; `pid = 0`; `wakeup`
  | rAcquire
  | rClear
  | rPid
  | rWake
  -- `holdingsleep`: `acquire`; the test; `release`, with the result
  | hAcquire
  | hTest
  | hRelease (r : Bool)
  | release
  deriving DecidableEq

structure State (T : Type) where
  locked : Bool
  pid : Nat
  lk : Option T
  pc : T → Pc
  /-- The thread is `SLEEPING` on the lock. -/
  asleep : T → Bool
  holds : T → Bool

/-- Calls of a thread, its next step, and a `wakeup` by `kill` or `exec`. -/
inductive Act (T : Type) where
  | acquiresleep (t : T)
  | releasesleep (t : T)
  | holdingsleep (t : T)
  | go (t : T)
  | wake (t : T)

namespace State

variable {T : Type} [DecidableEq T]

def goto (s : State T) (t : T) (pc : Pc) : State T := { s with pc := update s.pc t pc }

def acquire (s : State T) (t : T) (pc : Pc) : Option (State T) :=
  if s.lk = none then some { s.goto t pc with lk := some t } else none

variable (pid : T → Nat) (s : State T)

def go (t : T) : Option (State T) :=
  match s.pc t with
  | .user => none
  | .aAcquire => s.acquire t .aTest
  | .aTest => some (s.goto t (if s.locked then .aSleep else .aTake))
  | .aSleep =>
    some { s.goto t .aAcquire with lk := none, asleep := update s.asleep t true }
  | .aTake => some { s.goto t .aPid with locked := true, holds := update s.holds t true }
  | .aPid => some { s.goto t .release with pid := pid t }
  | .rAcquire => s.acquire t .rClear
  | .rClear => some { s.goto t .rPid with locked := false, holds := update s.holds t false }
  | .rPid => some { s.goto t .rWake with pid := 0 }
  | .rWake => some { s.goto t .release with asleep := fun _ => false }
  | .hAcquire => s.acquire t .hTest
  | .hTest => some (s.goto t (.hRelease (s.locked && s.pid == pid t)))
  | .hRelease _ | .release => some { s.goto t .user with lk := none }

def call (s : State T) (t : T) (pc : Pc) : Option (State T) :=
  if s.pc t = .user then some (s.goto t pc) else none

/-- One step; `releasesleep` is called by a holder. -/
def next : Act T → Option (State T)
  | .acquiresleep t => s.call t .aAcquire
  | .releasesleep t => if s.holds t then s.call t .rAcquire else none
  | .holdingsleep t => s.call t .hAcquire
  | .go t => if s.asleep t = false then s.go pid t else none
  | .wake t => some { s with asleep := update s.asleep t false }

/-- After `initsleeplock`. -/
structure Fresh (s : State T) : Prop where
  locked : s.locked = false
  lk : s.lk = none
  pc : ∀ t, s.pc t = .user
  holds : ∀ t, s.holds t = false

end State

variable {T : Type} [DecidableEq T] {pid : T → Nat} {s s' : State T} {t : T} {pc : Pc}

def sys (pid : T → Nat) : Machine.Sys (State T) (Act T) where
  init := State.Fresh
  next := State.next pid

def Apart (pid : T → Nat) (s : State T) : Act T → Prop
  | .go t => s.pc t = .hTest → ∀ u, s.holds u → pid u = pid t → u = t
  | _ => True

instance [Fintype T] (pid : T → Nat) (s : State T) : DecidablePred (Apart pid s)
  | .go t => inferInstanceAs (Decidable (s.pc t = .hTest → ∀ u, s.holds u → pid u = pid t → u = t))
  | .acquiresleep _ | .releasesleep _ | .holdingsleep _ | .wake _ =>
    inferInstanceAs (Decidable True)

/-- The code between `acquire` and `release`. -/
def Pc.inside : Pc → Bool
  | .user | .aAcquire | .rAcquire | .hAcquire => false
  | _ => true

def Pc.owner : Pc → Bool
  | .aPid | .rAcquire | .rClear => true
  | _ => false

def Pc.vacant : Pc → Bool
  | .aTake | .rPid => true
  | _ => false

/-- The lock is taken by one thread or by none, and its fields say so. -/
structure Inv (pid : T → Nat) (s : State T) : Prop where
  lk : ∀ t, (s.pc t).inside → s.lk = some t
  single : ∀ t u, s.holds t → s.holds u → t = u
  locked : s.locked ↔ ∃ t, s.holds t
  pid : ∀ t, s.holds t → s.pc t ≠ .aPid → s.pid = pid t
  vacant : ∀ t, (s.pc t).vacant → s.locked = false
  owner : ∀ t, (s.pc t).owner → s.holds t

omit [DecidableEq T] in
theorem Inv.fresh (h : s.Fresh) : Inv pid s := by
  constructor <;> simp [h.locked, h.pc, h.holds, Pc.inside, Pc.owner, Pc.vacant]

theorem Pc.inside_of_vacant (h : pc.vacant) : pc.inside := by
  cases pc <;> simp_all [vacant, inside]

attribute [local simp] State.goto

theorem Inv.enter (h : Inv pid s) {lk : Option T} (hout : (s.pc t).inside = false)
    (hpc : pc.vacant = false) (howner : pc.owner → s.holds t)
    (hin : pc.inside → lk = some t) (hlk : ∀ u, (s.pc u).inside → lk = some u) :
    Inv pid { s.goto t pc with lk := lk } := by
  refine ⟨fun u hu => ?_, h.single, h.locked, fun u hu hne => ?_, fun u hu => ?_,
    fun u hu => ?_⟩ <;>
    by_cases hut : u = t
  · subst hut
    simp only [State.goto, update_self] at hu
    exact hin hu
  · simp only [State.goto, update_of_ne hut] at hu
    exact hlk u hu
  · subst hut
    refine h.pid u hu fun ha => ?_
    simp [ha, Pc.inside] at hout
  · simp only [State.goto, update_of_ne hut] at hne
    exact h.pid u hu hne
  · subst hut
    simp [hpc] at hu
  · simp only [State.goto, update_of_ne hut] at hu
    exact h.vacant u hu
  · subst hut
    simp only [State.goto, update_self] at hu
    exact howner hu
  · simp only [State.goto, update_of_ne hut] at hu
    exact h.owner u hu

theorem Inv.call (h : Inv pid s) (hpc : pc.inside = false)
    (howner : pc.owner → s.holds t) (hs : s.call t pc = some s') : Inv pid s' := by
  unfold State.call at hs
  split_ifs at hs with huser
  cases hs
  refine h.enter (by simp [huser, Pc.inside]) ?_ howner (by simp [hpc]) h.lk
  exact Bool.eq_false_iff.2 fun hv => by simp [Pc.inside_of_vacant hv] at hpc

theorem Inv.acquire (h : Inv pid s) (hout : (s.pc t).inside = false)
    (hpc : pc.vacant = false) (howner : pc.owner → s.holds t) (hs : s.acquire t pc = some s') :
    Inv pid s' := by
  unfold State.acquire at hs
  split_ifs at hs with hfree
  cases hs
  refine h.enter hout hpc howner (fun _ => rfl) fun u hu => ?_
  have hlk := h.lk u hu
  rw [hfree] at hlk
  cases hlk

omit [DecidableEq T] in
theorem Inv.eq_of_inside (h : Inv pid s) {u : T} (ht : (s.pc t).inside)
    (hu : (s.pc u).inside) : u = t :=
  Option.some.inj ((h.lk u hu).symm.trans (h.lk t ht))

theorem Inv.inside (h : Inv pid s) (hin : (s.pc t).inside)
    (hpc : s'.pc = update s.pc t pc) (hlk : pc.inside → s'.lk = some t)
    (hsingle : ∀ u v, s'.holds u → s'.holds v → u = v) (hlocked : s'.locked ↔ ∃ u, s'.holds u)
    (hpid : ∀ u, s'.holds u → u ≠ t ∨ pc ≠ .aPid → s'.pid = pid u)
    (hvacant : pc.vacant → s'.locked = false) (howner : pc.owner → s'.holds t)
    (hholds : ∀ u, u ≠ t → s'.holds u = s.holds u) : Inv pid s' := by
  have hself : s'.pc t = pc := by simp [hpc]
  have hother : ∀ u, u ≠ t → s'.pc u = s.pc u := fun u hu => by simp [hpc, hu]
  refine ⟨fun u hu => ?_, hsingle, hlocked, fun u hu hne => ?_, fun u hu => ?_, fun u hu => ?_⟩ <;>
    by_cases hut : u = t
  · subst hut
    exact hlk (hself ▸ hu)
  · rw [hother u hut] at hu
    exact absurd (h.eq_of_inside hin hu) hut
  · exact hpid u hu (Or.inr fun hp => hne (by rw [hut, hself, hp]))
  · exact hpid u hu (Or.inl hut)
  · subst hut
    exact hvacant (hself ▸ hu)
  · rw [hother u hut] at hu
    exact absurd (h.eq_of_inside hin (Pc.inside_of_vacant hu)) hut
  · subst hut
    exact howner (hself ▸ hu)
  · rw [hholds u hut]
    exact h.owner u (by rwa [hother u hut] at hu)

theorem Inv.goto (h : Inv pid s) (hin : (s.pc t).inside) {lk : Option T}
    {asleep : T → Bool} (hlk : pc.inside → lk = some t) (hold : s.pc t ≠ .aPid)
    (hvacant : pc.vacant → s.locked = false) (howner : pc.owner = false) :
    Inv pid { s.goto t pc with lk := lk, asleep := asleep } := by
  refine h.inside hin rfl hlk h.single h.locked (fun u hu _ => h.pid u hu fun ha => ?_) hvacant
    (by simp [howner]) fun _ _ => rfl
  have hut : u = t := h.eq_of_inside hin (by simp [ha, Pc.inside])
  exact hold (hut ▸ ha)

omit [DecidableEq T] in
theorem Inv.none_holds (h : Inv pid s) (hfree : s.locked = false) (u : T) : s.holds u = false :=
  Bool.eq_false_iff.2 fun hu => absurd (h.locked.2 ⟨u, hu⟩) (by simp [hfree])

theorem Inv.go (h : Inv pid s) (hs : s.go pid t = some s') : Inv pid s' := by
  unfold State.go at hs
  cases hpc : s.pc t <;> simp only [hpc] at hs
  case user => cases hs
  case aAcquire | hAcquire => exact h.acquire (by simp [hpc, Pc.inside]) rfl (by simp [Pc.owner]) hs
  case rAcquire =>
    exact h.acquire (by simp [hpc, Pc.inside]) rfl (fun _ => h.owner t (by simp [hpc, Pc.owner])) hs
  all_goals
    cases hs
    have hin : (s.pc t).inside := by simp [hpc, Pc.inside]
  case aTest =>
    refine h.goto hin (fun _ => h.lk t hin) (by simp [hpc]) (fun ha => ?_) (by split_ifs <;> rfl)
    split_ifs at ha with hl
    · simp [Pc.vacant] at ha
    · exact Bool.eq_false_iff.2 hl
  case rWake | hTest => exact h.goto hin (fun _ => h.lk t hin) (by simp [hpc]) (by simp [Pc.vacant]) rfl
  case aSleep | hRelease | release =>
    exact h.goto hin (by simp [Pc.inside]) (by simp [hpc]) (by simp [Pc.vacant]) rfl
  case aTake =>
    have hnone := h.none_holds (h.vacant t (by simp [hpc, Pc.vacant]))
    have hholds : ∀ u, update s.holds t true u → u = t := fun u hu => by
      by_contra hut
      simp [hut, hnone] at hu
    refine h.inside hin rfl (fun _ => h.lk t hin) (fun u v hu hv => (hholds u hu).trans (hholds v hv).symm)
      ⟨fun _ => ⟨t, by simp⟩, fun _ => rfl⟩ (fun u hu hne => ?_) (by simp [Pc.vacant]) (by simp)
      fun u hu => by simp [hu]
    simp [hholds u hu] at hne
  case aPid =>
    have hheld := h.owner t (by simp [hpc, Pc.owner])
    exact h.inside hin rfl (fun _ => h.lk t hin) h.single h.locked
      (fun u hu _ => by rw [h.single u t hu hheld]) (by simp [Pc.vacant]) (by simp [Pc.owner]) fun _ _ => rfl
  case rClear =>
    have hheld := h.owner t (by simp [hpc, Pc.owner])
    have hnone : ∀ u, update s.holds t false u = false := fun u => by
      by_cases hut : u = t
      · simp [hut]
      · have : s.holds u ≠ true := fun hu => hut (h.single u t hu hheld)
        simpa [hut] using this
    exact h.inside hin rfl (fun _ => h.lk t hin) (by simp [hnone]) (by simp [hnone]) (by simp [hnone])
      (fun _ => rfl) (by simp [Pc.owner]) fun u hu => by simp [hu]
  case rPid =>
    have hnone := h.none_holds (h.vacant t (by simp [hpc, Pc.vacant]))
    exact h.inside hin rfl (fun _ => h.lk t hin) h.single h.locked (by simp [hnone])
      (by simp [Pc.vacant]) (by simp [Pc.owner]) fun _ _ => rfl

theorem Inv.next (h : Inv pid s) {a : Act T} (hs : s.next pid a = some s') : Inv pid s' := by
  cases a with
  | acquiresleep t | holdingsleep t => exact h.call rfl (by simp [Pc.owner]) hs
  | releasesleep t =>
    simp only [State.next] at hs
    split_ifs at hs with hheld
    exact h.call rfl (fun _ => hheld) hs
  | go t =>
    simp only [State.next] at hs
    split_ifs at hs
    exact h.go hs
  | wake t =>
    cases hs
    exact ⟨h.lk, h.single, h.locked, h.pid, h.vacant, h.owner⟩

/-! ## What `holdingsleep` returns -/

/-- `holdingsleep` returns whether its caller holds the lock. -/
def Told (s : State T) : Prop := ∀ t r, s.pc t = .hRelease r → (r ↔ s.holds t)

omit [DecidableEq T] in
/-- What the test finds, if no other thread of the process holds the lock. -/
theorem Inv.test (h : Inv pid s) (hpc : s.pc t = .hTest) (hapart : Apart pid s (.go t)) :
    (s.locked && s.pid == pid t) ↔ s.holds t := by
  have hin : (s.pc t).inside := by simp [hpc, Pc.inside]
  have hpid : ∀ u, s.holds u → s.pid = pid u := fun u hu => h.pid u hu fun ha => by
    have hut : u = t := h.eq_of_inside hin (by simp [ha, Pc.inside])
    simp [hut, hpc] at ha
  rw [Bool.and_eq_true, beq_iff_eq]
  constructor
  · rintro ⟨hlocked, hp⟩
    obtain ⟨u, hu⟩ := h.locked.1 hlocked
    rw [← hapart hpc u hu ((hpid u hu).symm.trans hp)]
    exact hu
  · intro ht
    exact ⟨h.locked.2 ⟨t, ht⟩, hpid t ht⟩

theorem Told.goto (h : Told s) {u : T}
    (hs : ∀ t, t ≠ u → s'.pc t = s.pc t ∧ s'.holds t = s.holds t) (hu : s'.pc u = pc)
    (hpc : ∀ r, pc = .hRelease r → (r ↔ s'.holds u)) : Told s' := by
  intro t r ht
  by_cases htu : t = u
  · subst htu
    exact hpc r (hu.symm.trans ht)
  · rw [(hs t htu).1] at ht
    rw [(hs t htu).2]
    exact h t r ht

theorem Told.go (h : Told s) (hinv : Inv pid s) (hok : Apart pid s (.go t))
    (hs : s.go pid t = some s') : Told s' := by
  have hother : ∀ {pc : Pc} {u : T}, u ≠ t → (s.goto t pc).pc u = s.pc u := fun hu => by
    simp [hu]
  have hself : ∀ {pc : Pc}, (s.goto t pc).pc t = pc := by simp
  unfold State.go at hs
  cases hpc : s.pc t <;> simp only [hpc] at hs
  case user => cases hs
  case aAcquire | rAcquire | hAcquire =>
    unfold State.acquire at hs
    split_ifs at hs
    cases hs
    exact h.goto (fun u hu => ⟨hother hu, rfl⟩) hself (by simp)
  all_goals cases hs
  case hTest =>
    refine h.goto (fun u hu => ⟨hother hu, rfl⟩) hself fun r hr => ?_
    cases hr
    exact hinv.test hpc hok
  case aTest => exact h.goto (fun u hu => ⟨hother hu, rfl⟩) hself (by split_ifs <;> simp)
  case aTake | rClear => exact h.goto (fun u hu => ⟨hother hu, by simp [hu]⟩) hself (by simp)
  all_goals exact h.goto (fun u hu => ⟨hother hu, rfl⟩) hself (by simp)

theorem Told.call (h : Told s) (hpc : pc.inside = false) (hs : s.call t pc = some s') :
    Told s' := by
  unfold State.call at hs
  split_ifs at hs
  cases hs
  have hself : (s.goto t pc).pc t = pc := by simp
  refine h.goto (fun u hu => ⟨by simp [hu], rfl⟩) hself fun r hr => ?_
  simp [hr, Pc.inside] at hpc

theorem Told.next (h : Told s) (hinv : Inv pid s) {a : Act T} (hok : Apart pid s a)
    (hs : s.next pid a = some s') : Told s' := by
  cases a with
  | acquiresleep t | holdingsleep t => exact h.call rfl hs
  | releasesleep t =>
    simp only [State.next] at hs
    split_ifs at hs
    exact h.call rfl hs
  | go t =>
    simp only [State.next] at hs
    split_ifs at hs
    exact h.go hinv hok hs
  | wake t =>
    cases hs
    exact h

/-- At most one thread holds the lock; and `holdingsleep` returns true exactly if its caller holds
the lock, if no other thread of the caller's process does. -/
theorem sleeplock_owner (pid : T → Nat) :
    (∀ s, (sys pid).Reachable s → ∀ t u, s.holds t → s.holds u → t = u) ∧
      ∀ s, (sys pid).ReachableVia (Apart pid) s →
        ∀ t r, s.pc t = .hRelease r → (r ↔ s.holds t) := by
  have hinv : ∀ s, (sys pid).Reachable s → Inv pid s := by
    intro s h
    refine Machine.Sys.Reachable.invariant (I := Inv pid) ?_ ?_ h
    · intro s hs
      exact .fresh hs
    · intro s a s' hI hs
      exact hI.next hs
  refine ⟨fun s h => (hinv s h).single, fun s h => ?_⟩
  have hboth : Inv pid s ∧ Told s := by
    refine Machine.Sys.ReachableVia.invariant (I := fun s => Inv pid s ∧ Told s) ?_ ?_ h
    · intro s hs
      exact ⟨.fresh hs, fun t r ht => by simp [hs.pc] at ht⟩
    · rintro s a s' ⟨hI, hT⟩ hok hs
      exact ⟨hI.next hs, hT.next hI hok hs⟩
  exact hboth.2

def newLock : State Bool := ⟨false, 0, none, fun _ => .user, fun _ => false, fun _ => false⟩

theorem newLock_fresh : newLock.Fresh := by constructor <;> simp [newLock]

/-- One thread takes the lock, and then thread `t` tests it. -/
def takeAndTest (t : Bool) : List (Act Bool) :=
  .acquiresleep false :: List.replicate 5 (.go false) ++ .holdingsleep t :: List.replicate 2 (.go t)

theorem sleeplock_owner_takeAndTest :
    ∃ s, (sys fun t => cond t 1 2).ReachableVia (Apart fun t => cond t 1 2) s ∧
      s.pc true = .hRelease false ∧ s.holds true ≠ true := by
  obtain ⟨s, hreach, hpc⟩ : ∃ s, (sys fun t => cond t 1 2).ReachableVia (Apart fun t => cond t 1 2)
    s ∧
      s.pc true = .hRelease false :=
    Machine.Sys.exists_reachableVia (takeAndTest true) newLock_fresh (by decide +kernel)
  refine ⟨s, hreach, hpc, fun hholds => ?_⟩
  simpa using ((sleeplock_owner fun t => cond t 1 2).2 s hreach true false hpc).2 hholds

/-- Both threads belong to the same process. -/
theorem holdingsleep_wrong :
    ∃ s, (sys fun _ => 1).Reachable s ∧ s.pc true = .hRelease true ∧ s.holds true = false ∧
      s.holds false :=
  Machine.Sys.exists_reachable (takeAndTest true) newLock_fresh (by decide +kernel)

end Xv6.Sleeplock
