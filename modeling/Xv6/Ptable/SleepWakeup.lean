import Xv6.Lib.Machine
import Mathlib.Logic.Function.Basic

/-!
# Sleep and wakeup

`sleep`, `wakeup`, `sched`, `yield` and `scheduler` of `proc.c`, for threads that use them in the
way they are meant: a waiter runs `acquire(lk); while(!cond) sleep(chan, lk); ...; release(lk)`, and
a waker changes `cond` only with `lk` held and calls `wakeup(chan)` before it releases `lk`, before
or after the change.  A thread may also yield, and it may force sleeping threads to wake up, as
`kill` and `exec` do.

If `same` holds, `lk` is `ptable.lock` itself, and a waker calls `wakeup1`.
-/

namespace Xv6.Sleep

open Function Option Bool

/-- States of a thread that has been created. -/
inductive RunState where
  | RUNNABLE
  | RUNNING
  | SLEEPING
  deriving DecidableEq

inductive Pc where
  | user
  -- `yield`
  | yAcquire
  | yMark
  | ySched
  | yRelease
  -- the waiter's loop, and what follows it
  | wAcquire
  | wTest
  | wBody
  -- `sleep`
  | sAcquire
  | sRelease
  | sMark
  | sSched
  | sTidy
  | sUnlock
  | sRelock
  -- the waker: whether it has changed `cond`, and called `wakeup`, since it took `lk`
  | kAcquire
  | kIn (changed woke : Bool)
  | kLock (changed woke : Bool)
  | kWake (changed woke : Bool)
  | kUnlock (changed : Bool)
  -- a forced wakeup
  | fAcquire
  | fWake
  deriving DecidableEq

/-- `struct thread`; `chan` says whether `t->chan` is the channel. -/
structure Thread where
  state : RunState
  chan : Bool
  pc : Pc
  deriving DecidableEq

inductive Cpu (T : Type) where
  /-- In `scheduler`, before it takes `ptable.lock`. -/
  | idle
  /-- In the loop of `scheduler`. -/
  | loop
  | run (t : T)
  deriving DecidableEq

structure State (C T : Type) where
  ptable : Option C
  /-- The holder of `lk`, if that is another lock. -/
  lk : Option C
  cond : Bool
  cpu : C → Cpu T
  thread : T → Thread

inductive Act (T : Type) where
  | go
  | yield
  | wait
  | wake
  | force
  | set (b : Bool)
  | wakeup
  | leave
  /-- The thread to run, or to wake up. -/
  | pick (t : T)
  deriving DecidableEq

variable {C T : Type}

section Steps

variable [DecidableEq C] [DecidableEq T]

namespace State

def setThread (s : State C T) (t : T) (th : Thread) : State C T :=
  { s with thread := update s.thread t th }

def goto (s : State C T) (t : T) (p : Pc) : State C T := s.setThread t { s.thread t with pc := p }

def wakeup1 (s : State C T) : State C T :=
  { s with thread := fun t =>
      if (s.thread t).state = .SLEEPING ∧ (s.thread t).chan then
        { s.thread t with state := .RUNNABLE }
      else s.thread t }

/-- `acquire(&ptable.lock)`, after which thread `t` goes to `p`. -/
def acquirePtable (s : State C T) (c : C) (t : T) (p : Pc) : Option (State C T) :=
  if s.ptable = none then some ({ s with ptable := some c }.goto t p) else none

variable (same : Bool) (s : State C T)

def acquireLk (c : C) (t : T) (p : Pc) : Option (State C T) :=
  if same then s.acquirePtable c t p
  else if s.lk = none then some ({ s with lk := some c }.goto t p) else none

def releaseLk : State C T :=
  if same then { s with ptable := none } else { s with lk := none }

def run (c : C) (t : T) (a : Act T) : Option (State C T) :=
  match (s.thread t).pc, a with
  | .user, .yield => some (s.goto t .yAcquire)
  | .user, .wait => some (s.goto t .wAcquire)
  | .user, .wake => some (s.goto t .kAcquire)
  | .user, .force => some (s.goto t .fAcquire)
  | .yAcquire, .go => s.acquirePtable c t .yMark
  | .yMark, .go => some (s.setThread t { s.thread t with state := .RUNNABLE, pc := .ySched })
  | .ySched, .go => some { s.goto t .yRelease with cpu := update s.cpu c .loop }
  | .yRelease, .go => some ({ s with ptable := none }.goto t .user)
  | .wAcquire, .go => s.acquireLk same c t .wTest
  | .wTest, .go => some (s.goto t (if s.cond then .wBody else if same then .sMark else .sAcquire))
  | .wBody, .set b => some { s with cond := b }
  | .wBody, .leave => some ((s.releaseLk same).goto t .user)
  | .sAcquire, .go => s.acquirePtable c t .sRelease
  | .sRelease, .go => some ({ s with lk := none }.goto t .sMark)
  | .sMark, .go => some (s.setThread t ⟨.SLEEPING, true, .sSched⟩)
  | .sSched, .go => some { s.goto t .sTidy with cpu := update s.cpu c .loop }
  | .sTidy, .go =>
    some (s.setThread t { s.thread t with chan := false, pc := if same then .wTest else .sUnlock })
  | .sUnlock, .go => some ({ s with ptable := none }.goto t .sRelock)
  | .sRelock, .go => s.acquireLk same c t .wTest
  | .kAcquire, .go => s.acquireLk same c t (.kIn false false)
  | .kIn _ woke, .set b => some ({ s with cond := b }.goto t (.kIn true woke))
  | .kIn changed woke, .wakeup =>
    some (if same then s.wakeup1.goto t (.kIn changed true) else s.goto t (.kLock changed woke))
  | .kIn changed woke, .leave =>
    if woke ∨ changed = false then some ((s.releaseLk same).goto t .user) else none
  | .kLock changed woke, .go => s.acquirePtable c t (.kWake changed woke)
  | .kWake changed _, .go => some (s.wakeup1.goto t (.kUnlock changed))
  | .kUnlock changed, .go => some ({ s with ptable := none }.goto t (.kIn changed true))
  | .fAcquire, .go => s.acquirePtable c t .fWake
  | .fWake, .pick u =>
    if (s.thread u).state = .SLEEPING then
      some (s.setThread u { s.thread u with state := .RUNNABLE })
    else none
  | .fWake, .leave => some ({ s with ptable := none }.goto t .user)
  | _, _ => none

def next (c : C) (a : Act T) : Option (State C T) :=
  match s.cpu c, a with
  | .idle, .go =>
    if s.ptable = none then some { s with ptable := some c, cpu := update s.cpu c .loop } else none
  | .loop, .pick t =>
    if (s.thread t).state = .RUNNABLE then
      some { s.setThread t { s.thread t with state := .RUNNING } with cpu := update s.cpu c (.run t) }
    else none
  | .loop, .leave => some { s with ptable := none, cpu := update s.cpu c .idle }
  | .run t, a => s.run same c t a
  | _, _ => none

/-- All threads are new: they will release `ptable.lock` in `forkret` and return to user space. -/
def boot (C T : Type) (cond : Bool) : State C T :=
  ⟨none, none, cond, fun _ => .idle, fun _ => ⟨.RUNNABLE, false, .yRelease⟩⟩

end State

def sleepSys (C T : Type) [DecidableEq C] [DecidableEq T] (same : Bool) :
    Machine.Sys (State C T) (C × Act T) where
  init s := ∃ cond, s = .boot C T cond
  next s l := s.next same l.1 l.2

end Steps

/-! ## Locks -/

/-- A thread at this point has `ptable.lock`. -/
def Pc.holdsPtable (same : Bool) : Pc → Bool
  | yMark | ySched | yRelease | sRelease | sMark | sSched | sTidy | sUnlock | kWake _ _ | kUnlock _
  | fWake => true
  | wTest | wBody | kIn _ _ => same
  | _ => false

/-- A thread at this point has `lk`. -/
def Pc.holdsLk (same : Bool) : Pc → Bool
  | wTest | wBody | kIn _ _ => !same
  | sAcquire | sRelease | kLock _ _ | kWake _ _ | kUnlock _ => true
  | _ => false

/-- These points are not reached if `lk` is `ptable.lock`. -/
@[simp] def Pc.apart : Pc → Bool
  | sAcquire | sRelease | sUnlock | sRelock | kLock _ _ | kWake _ _ | kUnlock _ => true
  | _ => false

/-- Points at which a thread may be without a CPU. -/
def Pc.saved : Pc → Bool
  | yRelease | sTidy => true
  | _ => false

/-- The thread is between the tests of `cond` and the release of the lock that protects it. -/
@[simp] def Pc.inside : Pc → Bool
  | wTest | wBody | sAcquire | sRelease | kIn _ _ | kLock _ _ | kWake _ _ | kUnlock _ => true
  | _ => false

/-- A waker has changed `cond`, and has still to call `wakeup`. -/
def Pc.pending : Pc → Bool
  | kIn true false | kLock true false | kWake true false => true
  | _ => false

/-- A step from `p` to `q` that stays away from `sched` and from the sleep. -/
def Pc.plain (same : Bool) (p q : Pc) : Bool :=
  p ≠ .sSched && p ≠ .ySched && p ≠ .sTidy && q ≠ .sSched && q ≠ .sTidy && q ≠ .sMark &&
    !(same && q.apart)

/-- No thread is asleep while a thread is here: it has found `cond` true, or has called `wakeup`. -/
def Pc.calm : Pc → Bool
  | wBody | kIn _ true | kLock _ true | kWake _ true | kUnlock _ => true
  | _ => false

/-- The thread is asleep on the channel, or will be without another look at `cond`. -/
def Thread.asleep (th : Thread) : Bool := th.pc = .sMark || th.state = .SLEEPING

theorem Pc.inside_of_pending {p : Pc} (h : p.pending) : p.inside := by
  unfold Pc.pending at h
  split at h <;> first | rfl | cases h

theorem Pc.inside_of_calm {p : Pc} (h : p.calm) : p.inside := by
  unfold Pc.calm at h
  split at h <;> first | rfl | cases h

/-- What a step of the thread on CPU `c` may do to a lock, whether it had it before and has it
after. -/
inductive LockMove {C : Type} (c : C) : Bool → Bool → Option C → Option C → Prop where
  | keep {h : Bool} {o : Option C} : LockMove c h h o o
  | take : LockMove c false true none (some c)
  | drop {o : Option C} : LockMove c true false o none

theorem LockMove.holder {c : C} {h h' : Bool} {o o' : Option C} {A B : C → Prop}
    (hm : LockMove c h h' o o') (hA : ∀ d, o = some d ↔ A d) (hc : A c ↔ h) (hc' : B c ↔ h')
    (hother : ∀ d, d ≠ c → (B d ↔ A d)) (d : C) : o' = some d ↔ B d := by
  by_cases hd : d = c
  · subst hd
    cases hm with
    | keep => rw [hA, hc, hc']
    | take => simp [hc']
    | drop => simp [hc']
  · rw [hother d hd]
    cases hm with
    | keep => exact hA d
    | take => simp [← hA, Ne.symm hd]
    | drop =>
      have hoc := (hA c).2 (hc.2 rfl)
      simp [← hA, hoc, Ne.symm hd]

/-! ## The invariant -/

structure Inv (same : Bool) (s : State C T) : Prop where
  ptable : ∀ c, s.ptable = some c ↔
    s.cpu c = .loop ∨ ∃ t, s.cpu c = .run t ∧ (s.thread t).pc.holdsPtable same
  lk : ∀ c, s.lk = some c ↔ ∃ t, s.cpu c = .run t ∧ (s.thread t).pc.holdsLk same
  once : ∀ c d t, s.cpu c = .run t → s.cpu d = .run t → c = d
  here : ∀ t, (s.thread t).pc.saved = false → ∃ c, s.cpu c = .run t
  running : ∀ c t, s.cpu c = .run t →
    (s.thread t).state = .RUNNING ∨ (s.thread t).pc = .sSched ∨ (s.thread t).pc = .ySched
  sleeping : ∀ t, (s.thread t).state = .SLEEPING → (s.thread t).pc = .sSched ∨
    (s.thread t).pc = .sTidy
  chan : ∀ t, (s.thread t).chan ↔ (s.thread t).pc = .sSched ∨ (s.thread t).pc = .sTidy
  apart : same → ∀ t, (s.thread t).pc.apart = false
  tested : ∀ t, (s.thread t).pc = .sAcquire ∨ (s.thread t).pc = .sRelease → s.cond = false
  key : ∀ t, (s.thread t).asleep → s.cond = false ∨ ∃ u, (s.thread u).pc.pending
  calm : ∀ u, (s.thread u).pc.calm → ∀ t, (s.thread t).asleep = false

attribute [local simp] State.boot

theorem inv_boot (same cond : Bool) : Inv same (State.boot C T cond) where
  ptable c := by simp
  lk c := by simp
  once c d t h := nomatch h
  here t h := nomatch h
  running c t h := nomatch h
  sleeping t h := nomatch h
  chan t := by simp
  apart _ t := rfl
  tested t h := by simp at h
  key t h := by simp [Thread.asleep] at h
  calm u h := nomatch h

variable {same : Bool} {s s' : State C T} {c : C} {t : T}

section

variable (inv : Inv same s)

include inv

theorem Inv.ptable_unique {u v : T} (hu : (s.thread u).pc.holdsPtable same)
    (hv : (s.thread v).pc.holdsPtable same) (hru : ∃ c, s.cpu c = .run u)
    (hrv : ∃ c, s.cpu c = .run v) : u = v := by
  obtain ⟨c, hc⟩ := hru
  obtain ⟨d, hd⟩ := hrv
  have hcd : c = d := some.inj
    (((inv.ptable c).2 (.inr ⟨u, hc, hu⟩)).symm.trans ((inv.ptable d).2 (.inr ⟨v, hd, hv⟩)))
  subst hcd
  rw [hc] at hd
  cases hd
  rfl

theorem Inv.inside_held {u : T} (hu : (s.thread u).pc.inside) :
    ∃ c, s.cpu c = .run u ∧ if same then s.ptable = some c else s.lk = some c := by
  obtain ⟨c, hc⟩ := inv.here u (by cases hp : (s.thread u).pc <;> simp [hp, Pc.saved] at hu ⊢)
  refine ⟨c, hc, ?_⟩
  cases same with
  | true =>
    -- only the points where the thread has `ptable.lock` are left
    have hapart := inv.apart rfl u
    refine (inv.ptable c).2 (.inr ⟨u, hc, ?_⟩)
    cases hp : (s.thread u).pc <;> simp [hp, Pc.holdsPtable] at hu hapart ⊢
  | false =>
    refine (inv.lk c).2 ⟨u, hc, ?_⟩
    cases hp : (s.thread u).pc <;> simp [hp, Pc.holdsLk] at hu ⊢

theorem Inv.inside_unique {u v : T} (hu : (s.thread u).pc.inside)
    (hv : (s.thread v).pc.inside) : u = v := by
  obtain ⟨c, hc, hheld⟩ := inv.inside_held hu
  obtain ⟨d, hd, hheld'⟩ := inv.inside_held hv
  have hcd : c = d := by
    cases same with
    | true => exact some.inj (hheld.symm.trans hheld')
    | false => exact some.inj (hheld.symm.trans hheld')
  subst hcd
  rw [hc] at hd
  cases hd
  rfl

theorem Inv.not_asleep_of_wTest (hpc : (s.thread t).pc = .wTest) (hcond : s.cond)
    (u : T) : (s.thread u).asleep = false := by
  by_contra hu
  rcases inv.key u (by simpa using hu) with h | ⟨w, hw⟩
  · simp [hcond] at h
  · -- a waker with its change made would be inside the section too
    have := inv.inside_unique (Pc.inside_of_pending hw) (v := t) (by rw [hpc]; rfl)
    rw [this, hpc] at hw
    cases hw

theorem Inv.wakes {W : T → Prop} [DecidablePred W]
    (hW : ∀ u, W u → (s.thread u).state = .SLEEPING) (hcpu : s'.cpu = s.cpu)
    (hptable : s'.ptable = s.ptable) (hlk : s'.lk = s.lk) (hcond : s'.cond = s.cond)
    (hthread : ∀ u, s'.thread u = if W u then { s.thread u with state := .RUNNABLE } else
    s.thread u) :
    Inv same s' := by
  have hsame : ∀ u, (s'.thread u).pc = (s.thread u).pc ∧ (s'.thread u).chan = (s.thread u).chan :=
    fun u => by
    rw [hthread]
    split_ifs <;> exact ⟨rfl, rfl⟩
  have hasleep : ∀ u, (s'.thread u).asleep → (s.thread u).asleep := fun u hu => by
    rw [hthread] at hu
    split_ifs at hu with hw
    · simp [Thread.asleep, hW u hw]
    · exact hu
  refine ⟨?_, ?_, by rw [hcpu]; exact inv.once, ?_, fun d u hd => ?_, fun u hu => ?_, ?_, ?_, ?_,
    fun u hu => ?_,
    fun w hw u => ?_⟩
  · simpa only [hptable, hcpu, hsame] using inv.ptable
  · simpa only [hlk, hcpu, hsame] using inv.lk
  · simpa only [hcpu, hsame] using inv.here
  · rw [hcpu] at hd
    rw [(hsame u).1, hthread]
    split_ifs with hw
    · -- a thread that sleeps has left its CPU, or still has `ptable.lock`
      refine .inr ?_
      rcases inv.sleeping u (hW u hw) with h | h
      · exact .inl h
      · have := inv.running d u hd
        rw [hW u hw, h] at this
        simp at this
    · exact inv.running d u hd
  · rw [(hsame u).1]
    rw [hthread] at hu
    split_ifs at hu
    exact inv.sleeping u hu
  · simpa only [hsame] using inv.chan
  · simpa only [hsame] using inv.apart
  · simpa only [hsame, hcond] using inv.tested
  · simpa only [hsame, hcond] using inv.key u (hasleep u hu)
  · by_contra hu
    have hu := hasleep u (by simpa using hu)
    rw [(hsame w).1] at hw
    simp [inv.calm w hw u] at hu

theorem Inv.not_asleep_wakeup1 (hrun : s.cpu c = .run t)
    (hpt : (s.thread t).pc.holdsPtable same) (hpc : (s.thread t).pc ≠ .sMark) (u : T) :
    (s.wakeup1.thread u).asleep = false := by
  by_contra hu
  simp only [State.wakeup1] at hu
  split_ifs at hu with hw
  · simp only [Thread.asleep, reduceCtorEq, decide_false, Bool.or_false, decide_eq_true_eq,
      Bool.not_eq_false] at hu
    rcases inv.sleeping u hw.1 with h | h <;> simp [h] at hu
  · simp only [Thread.asleep, Bool.or_eq_true, decide_eq_true_eq, Bool.not_eq_false] at hu
    rcases hu with hmark | hsleep
    · -- it would have `ptable.lock` too
      have := inv.ptable_unique (u := u) (v := t) (by rw [hmark]; rfl) hpt
        (inv.here u (by rw [hmark]; rfl)) ⟨c, hrun⟩
      exact hpc (this ▸ hmark)
    · exact hw ⟨hsleep, (inv.chan u).2 (inv.sleeping u hsleep)⟩

end

theorem wakeup1_pc (s : State C T) (u : T) : (s.wakeup1.thread u).pc = (s.thread u).pc := by
  simp only [State.wakeup1]
  split_ifs <;> rfl

theorem Inv.wakeup1 (inv : Inv same s) : Inv same s.wakeup1 :=
  inv.wakes (W := fun u => (s.thread u).state = .SLEEPING ∧ (s.thread u).chan) (fun _ h => h.1)
    rfl rfl rfl rfl fun _ => rfl

structure Heard (s : State C T) : Prop where
  tested : ∀ t, (s.thread t).pc = .sAcquire ∨ (s.thread t).pc = .sRelease → s.cond = false
  key : ∀ t, (s.thread t).asleep → s.cond = false ∨ ∃ u, (s.thread u).pc.pending
  calm : ∀ u, (s.thread u).pc.calm → ∀ t, (s.thread t).asleep = false

theorem Inv.ready (inv : Inv same s) (hrun : s.cpu c = .run t)
    (hfrom : (s.thread t).pc ≠ .sSched ∧ (s.thread t).pc ≠ .ySched ∧ (s.thread t).pc ≠ .sTidy) :
    (s.thread t).state = .RUNNING ∧ (s.thread t).chan = false := by
  refine ⟨(inv.running c t hrun).resolve_right fun h => h.elim hfrom.1 hfrom.2.1, ?_⟩
  by_contra h
  exact ((inv.chan t).1 (by simpa using h)).elim hfrom.1 hfrom.2.2

variable [DecidableEq T]

theorem Inv.heard (inv : Inv same s) {th : Thread} (hthread : s'.thread = update s.thread t th)
    (hcond : s'.cond = s.cond) (hasleep : th.asleep → (s.thread t).asleep)
    (htested : th.pc = .sAcquire ∨ th.pc = .sRelease → s.cond = false)
    (hpending : (s.thread t).pc.pending → th.pc.pending ∨ ∀ u, (s.thread u).asleep = false)
    (hcalm : th.pc.calm → ∀ u, (s.thread u).asleep = false) : Heard s' := by
  have hself : s'.thread t = th := by rw [hthread, update_self]
  have hother : ∀ u, u ≠ t → s'.thread u = s.thread u :=
    fun u hu => by rw [hthread, update_of_ne hu]
  have hold : ∀ u, (s'.thread u).asleep → (s.thread u).asleep := fun u hu => by
    by_cases hut : u = t
    · rw [hut, hself] at hu
      exact hut ▸ hasleep hu
    · rwa [hother u hut] at hu
  refine ⟨fun u hu => ?_, fun u hu => ?_, fun w hw u => ?_⟩
  · rw [hcond]
    by_cases hut : u = t
    · rw [hut, hself] at hu
      exact htested hu
    · rw [hother u hut] at hu
      exact inv.tested u hu
  · rw [hcond]
    refine (inv.key u (hold u hu)).imp_right fun ⟨w, hw⟩ => ⟨w, ?_⟩
    by_cases hwt : w = t
    · rw [hwt, hself]
      exact (hpending (hwt ▸ hw)).resolve_right fun h => by simpa [h u] using hold u hu
    · rw [hother w hwt]
      exact hw
  · by_contra hu
    have hu := hold u (by simpa using hu)
    by_cases hwt : w = t
    · rw [hwt, hself] at hw
      simp [hcalm hw u] at hu
    · rw [hother w hwt] at hw
      simp [inv.calm w hw u] at hu

variable [DecidableEq C]

section

variable (inv : Inv same s)

include inv

theorem Inv.moves (b b' : Bool) {th : Thread}
    (hbefore : s.cpu c = if b then .run t else .loop) (hoff : ∀ d, d ≠ c → s.cpu d ≠ .run t)
    (hcpu : s'.cpu = update s.cpu c (if b' then .run t else .loop))
    (hthread : s'.thread = update s.thread t th)
    (hptable : LockMove c (!b || (s.thread t).pc.holdsPtable same) (!b' || th.pc.holdsPtable same)
    s.ptable s'.ptable) (hlk :
    LockMove c (b && (s.thread t).pc.holdsLk same) (b' && th.pc.holdsLk same) s.lk s'.lk) (hhere :
    b' ∨ th.pc.saved) (hrunning : b' → th.state = .RUNNING ∨ th.pc = .sSched ∨ th.pc = .ySched)
    (hsleeping : th.state = .SLEEPING → th.pc = .sSched ∨ th.pc = .sTidy)
    (hchan : th.chan ↔ th.pc = .sSched ∨ th.pc = .sTidy)
    (hapart : same → th.pc.apart = false) (heard : Heard s') : Inv same s' := by
  have hself : s'.thread t = th := by rw [hthread, update_self]
  have hother : ∀ u, u ≠ t → s'.thread u = s.thread u :=
    fun u hu => by rw [hthread, update_of_ne hu]
  have hforall : ∀ {Q : T → Thread → Prop}, Q t th → (∀ u, Q u (s.thread u)) →
    ∀ u, Q u (s'.thread u) :=
    fun {Q} ht h => by
      rw [hthread]
      exact (forall_update_iff s.thread Q).2 ⟨ht, fun u _ => h u⟩
  have hc : s'.cpu c = if b' then .run t else .loop := by rw [hcpu, update_self]
  have hd : ∀ d, d ≠ c → s'.cpu d = s.cpu d := fun d hd => by rw [hcpu, update_of_ne hd]
  -- a CPU runs a thread as before, or is the one that runs `t`
  have hruns : ∀ {d u}, s'.cpu d = .run u → d ≠ c ∧ u ≠ t ∧ s.cpu d = .run u ∨ d = c ∧ u = t ∧ b' :=
    fun {d u} h => by
      by_cases hdc : d = c
      · rw [hdc, hc] at h
        cases b' <;> simp_all
      · rw [hd d hdc] at h
        exact .inl ⟨hdc, fun hu => hoff d hdc (hu ▸ h), h⟩
  have hlock : ∀ (f : Pc → Bool) {d}, d ≠ c →
      ((∃ u, s'.cpu d = .run u ∧ f (s'.thread u).pc) ↔ ∃ u, s.cpu d = .run u ∧ f (s.thread u).pc) :=
    fun f {d} hdc => by
      rw [hd d hdc]
      refine exists_congr fun u => and_congr_right fun hu => ?_
      rw [hother u fun hut => hoff d hdc (hut ▸ hu)]
  refine ⟨fun d => ?_, fun d => ?_, fun d e u hdu heu => ?_, fun u hu => ?_, fun d u hu => ?_,
    hforall (Q := fun _ x => x.state = .SLEEPING → x.pc = .sSched ∨ x.pc = .sTidy) hsleeping
    inv.sleeping,
    hforall (Q := fun _ x => x.chan ↔ x.pc = .sSched ∨ x.pc = .sTidy) hchan inv.chan,
    fun h => hforall (Q := fun _ x => x.pc.apart = false) (hapart h) (inv.apart h), heard.tested,
    heard.key, heard.calm⟩
  · refine hptable.holder (B := fun d => s'.cpu d = .loop ∨
      ∃ u, s'.cpu d = .run u ∧ (s'.thread u).pc.holdsPtable same) inv.ptable ?_ ?_ (fun d hdc =>
      ?_) d
    · cases b <;> simp [hbefore]
    · cases b' <;> simp [hc, hself]
    · rw [hlock _ hdc, hd d hdc]
  · refine hlk.holder (B := fun d => ∃ u, s'.cpu d = .run u ∧ (s'.thread u).pc.holdsLk same) inv.lk
      ?_ ?_ (fun d hdc => hlock _ hdc) d
    · cases b <;> simp [hbefore]
    · cases b' <;> simp [hc, hself]
  · rcases hruns hdu with ⟨-, hut, hdu⟩ | ⟨hdc, hut, -⟩ <;>
      rcases hruns heu with ⟨-, hut', heu⟩ | ⟨hec, hut', -⟩
    · exact inv.once d e u hdu heu
    · exact absurd hut' hut
    · exact absurd hut hut'
    · rw [hdc, hec]
  · by_cases hut : u = t
    · subst hut
      rw [hself] at hu
      exact ⟨c, by rw [hc, hhere.resolve_right (by simp [hu]), if_pos rfl]⟩
    · rw [hother u hut] at hu
      obtain ⟨d, hdu⟩ := inv.here u hu
      refine ⟨d, ?_⟩
      rwa [hd d]
      rintro rfl
      rw [hbefore] at hdu
      cases b <;> simp_all
  · rcases hruns hu with ⟨-, hut, hu⟩ | ⟨-, rfl, hb⟩
    · rw [hother u hut]
      exact inv.running d u hu
    · rw [hself]
      exact hrunning hb

section

variable (hrun : s.cpu c = .run t)

include hrun

theorem Inv.move {th : Thread} (hthread : s'.thread = update s.thread t th) (hcpu : s'.cpu = s.cpu)
    (hptable : LockMove c ((s.thread t).pc.holdsPtable same) (th.pc.holdsPtable same) s.ptable
    s'.ptable) (hlk : LockMove c ((s.thread t).pc.holdsLk same) (th.pc.holdsLk same) s.lk s'.lk)
    (hrunning : th.state = .RUNNING ∨ th.pc = .sSched ∨ th.pc = .ySched)
    (hsleeping : th.state = .SLEEPING → th.pc = .sSched ∨ th.pc = .sTidy)
    (hchan : th.chan ↔ th.pc = .sSched ∨ th.pc = .sTidy)
    (hapart : same → th.pc.apart = false) (heard : Heard s') : Inv same s' := by
  refine inv.moves true true hrun (fun d hd hdt => hd (inv.once d c t hdt hrun)) ?_ hthread hptable
    hlk
    (.inl rfl) (fun _ => hrunning) hsleeping hchan hapart heard
  rw [hcpu, if_pos rfl, ← hrun, update_eq_self]

theorem Inv.awake {th : Thread}
    (hthread : s'.thread = update s.thread t th) (hcpu : s'.cpu = s.cpu) (hcond : s'.cond = s.cond)
    (hptable : LockMove c ((s.thread t).pc.holdsPtable same) (th.pc.holdsPtable same) s.ptable
    s'.ptable) (hlk : LockMove c ((s.thread t).pc.holdsLk same) (th.pc.holdsLk same) s.lk s'.lk)
    (hstate : th.state = .RUNNING ∨ th.state = .RUNNABLE ∧ th.pc = .ySched)
      (hchan : th.chan = false) (hpc : th.pc ≠ .sSched ∧ th.pc ≠ .sTidy ∧ th.pc ≠ .sMark)
      (hapart : same → th.pc.apart = false) (htested : th.pc = .sAcquire ∨ th.pc = .sRelease →
      s.cond = false) (hpending : (s.thread t).pc.pending → th.pc.pending ∨
      ∀ u, (s.thread u).asleep = false) (hcalm : th.pc.calm →
      ∀ u, (s.thread u).asleep = false) : Inv same s' := by
  have hasleep : th.asleep → (s.thread t).asleep := fun h => by
    rcases hstate with h' | ⟨h', -⟩ <;> simp [Thread.asleep, h', hpc.2.2] at h
  refine inv.move hrun hthread hcpu hptable hlk (hstate.imp_right fun h => .inr h.2) (fun h => ?_)
    ?_ hapart
    (inv.heard hthread hcond hasleep htested hpending hcalm)
  · rcases hstate with h' | ⟨h', -⟩ <;> simp [h'] at h
  · simp [hchan, hpc.1, hpc.2.1]

theorem Inv.goto {p q : Pc} (hpc : (s.thread t).pc = p)
    (hthread : s'.thread = update s.thread t { s.thread t with pc := q }) (hcpu : s'.cpu = s.cpu)
    (hcond : s'.cond = s.cond) (hptable : LockMove c (p.holdsPtable same) (q.holdsPtable same)
      s.ptable s'.ptable)
    (hlk : LockMove c (p.holdsLk same) (q.holdsLk same) s.lk s'.lk) (hplain : p.plain same q)
    (htested : q = .sAcquire ∨ q = .sRelease → s.cond = false)
    (hpending : p.pending → q.pending ∨ ∀ u, (s.thread u).asleep = false)
    (hcalm : q.calm → ∀ u, (s.thread u).asleep = false) : Inv same s' := by
  subst hpc
  simp only [Pc.plain, and_eq_true, decide_eq_true_eq, not_eq_true', and_eq_false_imp,
    ne_eq] at hplain
  obtain ⟨⟨⟨⟨⟨⟨h₁, h₂⟩, h₃⟩, hq₁⟩, hq₂⟩, hq₃⟩, hapart⟩ := hplain
  obtain ⟨hstate, hchan⟩ := inv.ready hrun ⟨h₁, h₂, h₃⟩
  exact inv.awake hrun hthread hcpu hcond hptable hlk (.inl hstate) hchan ⟨hq₁, hq₂, hq₃⟩ hapart
    htested hpending hcalm

theorem Inv.mark (hthread : s'.thread = update s.thread t { s.thread t with pc := .sMark })
    (hcpu : s'.cpu = s.cpu)
    (hcond : s'.cond = s.cond) (hfalse : s.cond = false)
    (hptable : LockMove c ((s.thread t).pc.holdsPtable same) true s.ptable s'.ptable)
    (hlk : LockMove c ((s.thread t).pc.holdsLk same) false s.lk s'.lk)
    (hfrom : (s.thread t).pc = .wTest ∨ (s.thread t).pc = .sRelease) : Inv same s' := by
  obtain ⟨hstate, hchan⟩ := inv.ready hrun (by rcases hfrom with h | h <;> simp [h])
  refine inv.move hrun hthread hcpu hptable hlk (.inl hstate) (fun h => by simp [hstate] at h)
    (by simp [hchan])
    (fun _ => rfl) ⟨fun _ _ => hcond.trans hfalse, fun _ _ => .inl (hcond.trans hfalse),
      fun w hw => ?_⟩
  -- a thread at a calm point would be inside the section too
  have hwt : w ≠ t := fun h => by simp [h, hthread, Pc.calm] at hw
  rw [hthread, update_of_ne hwt] at hw
  have htin : (s.thread t).pc.inside := by rcases hfrom with h | h <;> rw [h] <;> rfl
  exact absurd (inv.inside_unique (Pc.inside_of_calm hw) htin) hwt

/-- The thread inside the section changes `cond`: it still has to call `wakeup`, or nobody is
asleep. -/
theorem Inv.set {p q : Pc} (hpc : (s.thread t).pc = p)
    (hthread : s'.thread = update s.thread t { s.thread t with pc := q }) (hcpu : s'.cpu = s.cpu)
    (hptable : LockMove c (p.holdsPtable same) (q.holdsPtable same) s.ptable s'.ptable)
    (hlk : LockMove c (p.holdsLk same) (q.holdsLk same) s.lk s'.lk) (hin : p.inside)
    (hq : q ≠ .sSched ∧ q ≠ .sTidy ∧ q ≠ .sMark ∧ q ≠ .sAcquire ∧ q ≠ .sRelease ∧ q.apart = false)
    (hcalm : q.calm = p.calm) (hpending : p.calm ∨ q.pending) : Inv same s' := by
  subst hpc
  have hself : s'.thread t = { s.thread t with pc := q } := by rw [hthread, update_self]
  have hother : ∀ u, u ≠ t → s'.thread u = s.thread u :=
    fun u hu => by rw [hthread, update_of_ne hu]
  obtain ⟨hstate, hchan⟩ := inv.ready hrun ⟨fun h => by simp [h] at hin,
    fun h => by simp [h] at hin, fun h => by simp [h] at hin⟩
  -- whoever is asleep was so, and the thread is at a calm point only if it was before
  have hasleep : ∀ u, (s'.thread u).asleep → (s.thread u).asleep := fun u hu => by
    by_cases hut : u = t
    · rw [hut, hself] at hu
      simp [Thread.asleep, hstate, hq] at hu
    · rwa [hother u hut] at hu
  have hnone : ∀ {w}, (s.thread w).pc.calm → ∀ u, (s'.thread u).asleep = false := fun {w} hw u => by
    by_contra hu
    have hu := hasleep u (by simpa using hu)
    simp [inv.calm w hw u] at hu
  refine inv.move hrun hthread hcpu hptable hlk (.inl hstate) (fun h => by simp [hstate] at h)
    (by simp [hchan, hq])
    (fun _ => hq.2.2.2.2.2) ⟨fun u hu => ?_, fun u hu => ?_, fun w hw => ?_⟩
  · -- nobody else has tested `cond` and still holds the lock
    have hut : u ≠ t := fun h => by
      rw [h, hself] at hu
      simp [hq] at hu
    rw [hother u hut] at hu
    refine absurd (inv.inside_unique ?_ hin) hut
    rcases hu with h | h <;> rw [h] <;> rfl
  · rcases hpending with h | h
    · simp [hnone h u] at hu
    · exact .inr ⟨t, by rw [hself]; exact h⟩
  · by_cases hwt : w = t
    · rw [hwt, hself] at hw
      exact hnone (hcalm ▸ hw)
    · exact hnone (hother w hwt ▸ hw)

theorem Inv.sleep (hpc : (s.thread t).pc = .sMark) :
    Inv same (s.setThread t ⟨.SLEEPING, true, .sSched⟩) :=
  -- it counted as asleep before
  inv.move hrun rfl rfl (by rw [hpc]; exact .keep) (by rw [hpc]; exact .keep) (.inr (.inl rfl))
    (fun _ => .inl rfl) (by simp) (fun _ => rfl)
    (inv.heard rfl rfl (fun _ => by simp [Thread.asleep, hpc]) (by simp) (by simp [hpc, Pc.pending])
      (by simp [Pc.calm]))

theorem Inv.acquirePtable {p q : Pc} (hpc : (s.thread t).pc = p)
    (h : s.acquirePtable c t q = some s') (hp : p.holdsPtable same = false)
    (hq : q.holdsPtable same) (hlk : p.holdsLk same = q.holdsLk same) (hplain : p.plain same q)
    (htested : q = .sAcquire ∨ q = .sRelease → s.cond = false) (hpending : p.pending = q.pending)
    (hcalm : q.calm → ∀ u, (s.thread u).asleep = false) : Inv same s' := by
  unfold State.acquirePtable at h
  split_ifs at h with hfree
  cases h
  refine inv.goto hrun hpc rfl rfl rfl ?_ ?_ hplain htested (fun h => .inl (hpending ▸ h)) hcalm
  · rw [hp, hq, hfree]
    exact .take
  · rw [hlk]
    exact .keep

theorem Inv.acquireLk {p q : Pc} (hpc : (s.thread t).pc = p) (h : s.acquireLk same c t q = some s')
    (hp : p.holdsPtable same = false ∧ p.holdsLk same = false)
    (hq : q.holdsPtable same = same ∧ q.holdsLk same = !same) (hplain : p.plain same q)
    (htested : q ≠ .sAcquire ∧ q ≠ .sRelease) (hpending : p.pending = q.pending)
    (hcalm : q.calm = false) : Inv same s' := by
  have htested' : q = .sAcquire ∨ q = .sRelease → s.cond = false := fun h => by simp [htested] at h
  have hcalm' : q.calm → ∀ u, (s.thread u).asleep = false := fun h => by simp [hcalm] at h
  unfold State.acquireLk at h
  cases same with
  | true =>
    exact inv.acquirePtable hrun hpc h hp.1 hq.1 (hp.2.trans hq.2.symm) hplain htested' hpending
      hcalm'
  | false =>
    simp only [false_eq_true, if_false] at h
    split_ifs at h with hfree
    cases h
    refine inv.goto hrun hpc rfl rfl rfl ?_ ?_ hplain htested' (fun h => .inl (hpending ▸ h)) hcalm'
    · rw [hp.1, hq.1]
      exact .keep
    · rw [hp.2, hq.2, hfree]
      exact .take

theorem Inv.releaseLk {p : Pc} (hpc : (s.thread t).pc = p)
    (hp : p.holdsPtable same = same ∧ p.holdsLk same = !same) (hplain : p.plain same .user)
    (hpending : p.pending = false) : Inv same ((s.releaseLk same).goto t .user) := by
  refine inv.goto hrun hpc ?_ ?_ ?_ ?_ ?_ hplain (by simp) (fun h => by simp [hpending] at h)
    (fun h => nomatch h)
  · cases same <;> rfl
  · cases same <;> rfl
  · cases same <;> rfl
  · rw [hp.1]
    cases same
    · exact .keep
    · exact .drop
  · rw [hp.2]
    cases same
    · exact .drop
    · exact .keep

end

end

/-! ## The scheduler -/

omit [DecidableEq T] in
theorem Inv.scheduler (inv : Inv same s) {o : Option C} {x : Cpu T}
    (h : s.cpu c = .idle ∧ s.ptable = none ∧ x = .loop ∧ o = some c ∨ s.cpu c = .loop ∧ x = .idle ∧
    o = none) : Inv same { s with ptable := o, cpu := update s.cpu c x } := by
  set s' : State C T := { s with ptable := o, cpu := update s.cpu c x } with hs'
  have hself : s'.cpu c = x := update_self ..
  have hcpu : ∀ d, d ≠ c → s'.cpu d = s.cpu d := fun d hd => update_of_ne hd ..
  have hruns : ∀ d u, s'.cpu d = .run u ↔ s.cpu d = .run u := fun d u => by
    by_cases hd : d = c
    · rw [hd, hself]
      rcases h with ⟨h, -, rfl, -⟩ | ⟨h, rfl, -⟩ <;> simp [h]
    · rw [hcpu d hd]
  refine ⟨fun d => ?_, ?_, ?_, ?_, ?_, inv.sleeping, inv.chan, inv.apart, inv.tested, inv.key,
    inv.calm⟩
  · show o = some d ↔ _
    by_cases hd : d = c
    · subst hd
      rw [hself]
      rcases h with ⟨-, -, rfl, rfl⟩ | ⟨-, rfl, rfl⟩ <;> simp
    · simp only [hcpu d hd]
      show _ ↔ s.cpu d = .loop ∨ ∃ u, s.cpu d = .run u ∧ (s.thread u).pc.holdsPtable same
      rw [← inv.ptable d]
      rcases h with ⟨-, hpt, -, rfl⟩ | ⟨hloop, -, rfl⟩
      · simp [hpt, Ne.symm hd]
      · simp [(inv.ptable c).2 (.inl hloop), Ne.symm hd]
  · simpa only [hruns] using inv.lk
  · simpa only [hruns] using inv.once
  · simpa only [hruns] using inv.here
  · simpa only [hruns] using inv.running

theorem Inv.sched (inv : Inv same s) (hrun : s.cpu c = .run t) {p : Pc}
    (hp : (s.thread t).pc = .ySched ∧ p = .yRelease ∨ (s.thread t).pc = .sSched ∧ p = .sTidy) :
    Inv same { s.goto t p with cpu := update s.cpu c .loop } := by
  have hchan := inv.chan t
  have hsleeping := inv.sleeping t
  have heard : Heard { s.goto t p with cpu := update s.cpu c .loop } := by
    refine inv.heard rfl rfl (fun h => ?_) (fun h => ?_) (fun h => ?_) fun h => ?_
    · rcases hp with ⟨h', rfl⟩ | ⟨h', rfl⟩ <;> simpa [Thread.asleep, h'] using h
    · rcases hp with ⟨-, rfl⟩ | ⟨-, rfl⟩ <;> simp at h
    · rcases hp with ⟨h', -⟩ | ⟨h', -⟩ <;> rw [h'] at h <;> cases h
    · rcases hp with ⟨-, rfl⟩ | ⟨-, rfl⟩ <;> cases h
  refine inv.moves true false hrun (fun d hd hdt => hd (inv.once d c t hdt hrun)) rfl rfl ?_ ?_ ?_
    (fun h => nomatch h) ?_ ?_ (fun _ => ?_) heard
  · rcases hp with ⟨h, -⟩ | ⟨h, -⟩ <;> rw [h] <;> exact .keep
  · rcases hp with ⟨h, -⟩ | ⟨h, -⟩ <;> rw [h] <;> exact .keep
  · rcases hp with ⟨-, rfl⟩ | ⟨-, rfl⟩ <;> exact .inr rfl
  · rcases hp with ⟨h, rfl⟩ | ⟨h, rfl⟩ <;> simp_all
  · rcases hp with ⟨h, rfl⟩ | ⟨h, rfl⟩ <;> simpa [h] using hchan
  · rcases hp with ⟨-, rfl⟩ | ⟨-, rfl⟩ <;> rfl

theorem Inv.pick (inv : Inv same s) (hloop : s.cpu c = .loop)
    (hstate : (s.thread t).state = .RUNNABLE) :
    Inv same { s.setThread t { s.thread t with state := .RUNNING } with
      cpu := update s.cpu c (.run t) } := by
  -- a runnable thread is on no CPU: on its way to `sched` it would have `ptable.lock`
  have hoff : ∀ d, s.cpu d ≠ .run t := fun d hd => by
    have hheld : (s.thread t).pc.holdsPtable same := by
      have := inv.running d t hd
      rw [hstate] at this
      rcases this with h | h | h
      · cases h
      · rw [h]; rfl
      · rw [h]; rfl
    have hdc : d = c := some.inj
      (((inv.ptable d).2 (.inr ⟨t, hd, hheld⟩)).symm.trans ((inv.ptable c).2 (.inl hloop)))
    rw [hdc, hloop] at hd
    cases hd
  have hsaved : (s.thread t).pc = .yRelease ∨ (s.thread t).pc = .sTidy := by
    have : (s.thread t).pc.saved := by
      by_contra h
      obtain ⟨d, hd⟩ := inv.here t (by simpa using h)
      exact hoff d hd
    cases hpc : (s.thread t).pc <;> simp [hpc, Pc.saved] at this ⊢
  refine inv.moves false true hloop (fun d _ => hoff d) rfl rfl ?_ ?_ (.inl rfl) (fun _ => .inl rfl)
    (fun h => nomatch h) (inv.chan t) (fun h => inv.apart h t)
    (inv.heard rfl rfl (fun h => ?_) (inv.tested t) .inl (inv.calm t))
  · rcases hsaved with h | h <;> rw [h] <;> exact .keep
  · rcases hsaved with h | h <;> rw [h] <;> exact .keep
  · rcases hsaved with h' | h' <;> simp [Thread.asleep, h'] at h

/-! ## Runs -/

theorem Inv.run (inv : Inv same s) (hrun : s.cpu c = .run t) {a : Act T} (h : s.run same c t a = some s') :
    Inv same s' := by
  -- some points are not reached if `lk` is `ptable.lock`
  have hdiff : ∀ {p}, (s.thread t).pc = p → p.apart → same = false := fun hp h => by
    by_contra hs
    have := inv.apart (by simpa using hs) t
    rw [hp, h] at this
    cases this
  unfold State.run at h
  split at h
  -- a call
  case h_1 hpc | h_2 hpc | h_3 hpc | h_4 hpc =>
    cases h
    exact inv.goto hrun hpc rfl rfl rfl .keep .keep (by cases same <;> rfl) (by simp) nofun nofun
  -- `yield`
  case h_5 hpc => exact inv.acquirePtable hrun hpc h rfl rfl rfl (by cases same <;> rfl) (by simp) rfl nofun
  case h_6 hpc =>
    cases h
    have hchan : (s.thread t).chan = false := by simpa [hpc] using inv.chan t
    exact inv.awake hrun rfl rfl rfl (by rw [hpc]; exact .keep) (by rw [hpc]; exact .keep) (.inr ⟨rfl, rfl⟩)
      hchan (by simp) (fun _ => rfl) (by simp) (by simp [hpc, Pc.pending]) nofun
  case h_7 hpc =>
    cases h
    exact inv.sched hrun (.inl ⟨hpc, rfl⟩)
  case h_8 hpc =>
    cases h
    exact inv.goto hrun hpc rfl rfl rfl .drop .keep (by cases same <;> rfl) (by simp) nofun nofun
  -- the waiter
  case h_9 hpc => exact inv.acquireLk hrun hpc h ⟨rfl, rfl⟩ ⟨rfl, rfl⟩ (by cases same <;> rfl) (by simp) rfl rfl
  case h_10 hpc =>
    cases h
    split_ifs with hcond hsame
    · exact inv.goto hrun hpc rfl rfl rfl .keep .keep (by cases same <;> rfl) (by simp) nofun
        fun _ => inv.not_asleep_of_wTest hpc hcond
    · subst hsame
      exact inv.mark hrun rfl rfl rfl (by simpa using hcond) (by rw [hpc]; exact .keep) (by rw [hpc]; exact .keep)
        (.inl hpc)
    · obtain rfl : same = false := by simpa using hsame
      exact inv.goto hrun hpc rfl rfl rfl .keep .keep rfl (fun _ => by simpa using hcond) nofun nofun
  case h_11 hpc =>
    cases h
    refine inv.set hrun (q := .wBody) hpc ?_ rfl .keep .keep rfl (by simp) rfl (.inl rfl)
    rw [← hpc, update_eq_self]
  case h_12 hpc =>
    cases h
    exact inv.releaseLk hrun hpc ⟨rfl, rfl⟩ (by cases same <;> rfl) rfl
  -- `sleep`
  case h_13 hpc =>
    obtain rfl := hdiff hpc rfl
    exact inv.acquirePtable hrun hpc h rfl rfl rfl rfl (fun _ => inv.tested t (.inl hpc)) rfl nofun
  case h_14 hpc =>
    cases h
    exact inv.mark hrun rfl rfl rfl (inv.tested t (.inr hpc)) (by rw [hpc]; exact .keep)
      (by rw [hpc]; exact .drop) (.inr hpc)
  case h_15 hpc =>
    cases h
    exact inv.sleep hrun hpc
  case h_16 hpc =>
    cases h
    exact inv.sched hrun (.inr ⟨hpc, rfl⟩)
  case h_17 hpc =>
    cases h
    have hstate : (s.thread t).state = .RUNNING := by simpa [hpc] using inv.running c t hrun
    cases same <;> exact inv.awake hrun rfl rfl rfl (by rw [hpc]; exact .keep) (by rw [hpc]; exact .keep)
      (.inl hstate) rfl (by simp) (by simp) (by simp) (by simp [hpc, Pc.pending]) nofun
  case h_18 hpc =>
    cases h
    obtain rfl := hdiff hpc rfl
    exact inv.goto hrun hpc rfl rfl rfl .drop .keep rfl (by simp) nofun nofun
  case h_19 hpc => exact inv.acquireLk hrun hpc h ⟨rfl, rfl⟩ ⟨rfl, rfl⟩ (by cases same <;> rfl) (by simp) rfl rfl
  -- the waker
  case h_20 hpc => exact inv.acquireLk hrun hpc h ⟨rfl, rfl⟩ ⟨rfl, rfl⟩ (by cases same <;> rfl) (by simp) rfl rfl
  case h_21 changed woke b hpc =>
    cases h
    refine inv.set hrun hpc rfl rfl .keep .keep rfl (by simp) (by cases woke <;> rfl) ?_
    cases woke
    · exact .inr rfl
    · exact .inl rfl
  case h_22 changed woke hpc =>
    cases h
    cases same with
    | true =>
      have hcalm := inv.not_asleep_wakeup1 hrun (by rw [hpc]; rfl) (by simp [hpc])
      exact inv.wakeup1.goto hrun ((wakeup1_pc s t).trans hpc) rfl rfl rfl .keep .keep rfl (by simp)
        (fun _ => .inr hcalm) fun _ => hcalm
    | false =>
      refine inv.goto hrun hpc rfl rfl rfl .keep .keep rfl (by simp) (fun h => .inl ?_) fun h => inv.calm t ?_
      · cases changed <;> cases woke <;> first | rfl | cases h
      · rw [hpc]
        cases woke <;> first | rfl | cases h
  case h_23 changed woke hpc =>
    split_ifs at h with hleave
    cases h
    refine inv.releaseLk hrun hpc ⟨rfl, rfl⟩ (by cases same <;> rfl) ?_
    rcases hleave with rfl | rfl
    · cases changed <;> rfl
    · rfl
  case h_24 changed woke hpc =>
    obtain rfl := hdiff hpc rfl
    refine inv.acquirePtable hrun hpc h rfl rfl rfl rfl (by simp) ?_ fun h => inv.calm t ?_
    · cases changed <;> cases woke <;> rfl
    · rw [hpc]
      cases woke <;> first | rfl | cases h
  case h_25 changed woke hpc =>
    cases h
    obtain rfl := hdiff hpc rfl
    have hcalm := inv.not_asleep_wakeup1 hrun (by rw [hpc]; rfl) (by simp [hpc])
    exact inv.wakeup1.goto hrun ((wakeup1_pc s t).trans hpc) rfl rfl rfl .keep .keep rfl (by simp)
      (fun _ => .inr hcalm) fun _ => hcalm
  case h_26 changed hpc =>
    cases h
    obtain rfl := hdiff hpc rfl
    exact inv.goto hrun hpc rfl rfl rfl .drop .keep rfl (by simp) nofun fun _ => inv.calm t (by rw [hpc]; rfl)
  -- a forced wakeup
  case h_27 hpc => exact inv.acquirePtable hrun hpc h rfl rfl rfl (by cases same <;> rfl) (by simp) rfl nofun
  case h_28 u hpc =>
    split_ifs at h with hu
    cases h
    refine inv.wakes (W := (· = u)) (fun w hw => hw ▸ hu) rfl rfl rfl rfl fun w => ?_
    split_ifs with hw
    · rw [hw]
      exact update_self ..
    · exact update_of_ne hw ..
  case h_29 hpc =>
    cases h
    exact inv.goto hrun hpc rfl rfl rfl .drop .keep (by cases same <;> rfl) (by simp) nofun nofun
  case h_30 => cases h

theorem Inv.next (inv : Inv same s) {a : Act T} (h : s.next same c a = some s') : Inv same s' := by
  unfold State.next at h
  split at h
  case h_1 hidle =>
    split_ifs at h with hfree
    cases h
    exact inv.scheduler (.inl ⟨hidle, hfree, rfl, rfl⟩)
  case h_2 hloop =>
    split_ifs at h with hstate
    cases h
    exact inv.pick hloop hstate
  case h_3 hloop =>
    cases h
    exact inv.scheduler (.inr ⟨hloop, rfl, rfl⟩)
  case h_4 hrun => exact inv.run hrun h
  case h_5 => cases h

theorem inv_of_reachable (h : (sleepSys C T same).Reachable s) : Inv same s := by
  refine Machine.Sys.Reachable.invariant (I := Inv same) ?_ ?_ h
  · rintro _ ⟨cond, rfl⟩
    exact inv_boot same cond
  · intro _ _ _ inv h
    exact inv.next h

/-- In every run: while `lk` and `ptable.lock` are free, no thread sleeps on the channel with `cond`
true; and a thread that has returned from `sleep` to test `cond` again holds `lk`, with its `chan`
cleared. -/
theorem no_lost_wakeup (C T : Type) [DecidableEq C] [DecidableEq T] (same : Bool) (s : State C T)
    (h : (sleepSys C T same).Reachable s) : (s.ptable = none → s.lk = none →
      ∀ t, (s.thread t).state = .SLEEPING → (s.thread t).chan → s.cond = false) ∧
    ∀ t, (s.thread t).pc = .wTest → (s.thread t).chan = false ∧
        ∃ c, s.cpu c = .run t ∧ (if same then s.ptable = some c else s.lk = some c) := by
  have inv := inv_of_reachable h
  refine ⟨fun hptable hlk t hstate _ => ?_, fun t hpc => ⟨by simpa [hpc] using inv.chan t, ?_⟩⟩
  · refine (inv.key t (by simp [Thread.asleep, hstate])).resolve_right fun ⟨w, hw⟩ => ?_
    -- a waker with its change made still has the lock
    obtain ⟨c, -, hheld⟩ := inv.inside_held (Pc.inside_of_pending hw)
    cases same with
    | true => cases hptable.symm.trans hheld
    | false => cases hlk.symm.trans hheld
  · exact inv.inside_held (by rw [hpc]; rfl)

/-- Thread `false` waits on one CPU. -/
def falls : List (Bool × Act Bool) :=
  [.go, .pick false, .go, .wait, .go, .go, .go, .go, .go, .go, .leave].map (false, ·)

/-- Thread `true` makes `cond` true on the other CPU, and the waiter goes back to its test. -/
def rises : List (Bool × Act Bool) :=
  [.go, .pick true, .go, .wake, .go, .set true, .wakeup, .go, .go, .go, .leave].map (true, ·) ++
    [.go, .pick false, .go, .go, .go].map (false, ·)

theorem no_lost_wakeup_two :
    (∃ s, (sleepSys Bool Bool false).Reachable s ∧ (s.thread false).state = .SLEEPING ∧ s.cond = false) ∧
    ∃ s, (sleepSys Bool Bool false).Reachable s ∧ s.cond ∧ (s.thread false).chan = false ∧
      ∃ c, s.cpu c = .run false ∧ s.lk = some c := by
  have hboot : (sleepSys Bool Bool false).init (.boot Bool Bool false) := ⟨false, rfl⟩
  obtain ⟨s, hreach, hptable, hlk, hstate, hchan⟩ : ∃ s, (sleepSys Bool Bool false).Reachable s ∧ s.ptable = none ∧
      s.lk = none ∧ (s.thread false).state = .SLEEPING ∧ (s.thread false).chan :=
    Machine.Sys.exists_reachable falls hboot (by decide +kernel)
  obtain ⟨s', hreach', hpc, hcond⟩ : ∃ s, (sleepSys Bool Bool false).Reachable s ∧ (s.thread false).pc = .wTest ∧
      s.cond := Machine.Sys.exists_reachable (falls ++ rises) hboot (by decide +kernel)
  exact ⟨⟨s, hreach, hstate, (no_lost_wakeup _ _ _ s hreach).1 hptable hlk false hstate hchan⟩,
    s', hreach', hcond, (no_lost_wakeup _ _ _ s' hreach').2 false hpc⟩

end Xv6.Sleep
