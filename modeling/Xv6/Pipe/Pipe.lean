import Xv6.Param
import Xv6.Lib.Fifo
import Xv6.Lib.Machine

/-!
# Pipes

`pipewrite`, `piperead` and `pipeclose` of `pipe.c`, for any number of threads on one pipe.  Between
`acquire` and `release` or `sleep`, each statement that reads or changes the pipe is a step, and so
is each stretch with `ptable.lock`: a `wakeup`, the change to `SLEEPING` in `sleep` with the release
of `p->lock`, and a `kill`.

Two ghost fields list the bytes that `pipewrite` has stored and those that `piperead` has delivered.
-/

namespace Xv6.Pipes

open Fifo

def PIPESIZE : Nat := 512

instance : NeZero PIPESIZE := ⟨by decide⟩

/-- `struct pipe`, without its lock.  The counters are of type `uint` and wrap. -/
structure Pipe where
  data : Fin PIPESIZE → UInt8
  nread : Fin (2 ^ 32)
  nwrite : Fin (2 ^ 32)
  readopen : Bool
  writeopen : Bool

/-- The channels `&p->nread` and `&p->nwrite`. -/
inductive Chan where
  | nread
  | nwrite
  deriving DecidableEq

inductive Pc where
  | user
  -- `pipewrite`: `acquire`, also that of `sleep`; the loops, and whether bytes have been stored since;
  -- `wakeup` and `sleep` in the inner loop; the last `wakeup`
  | wAcquire (i : Nat) (n : Int)
  | wTop (i : Nat) (n : Int) (stored : Bool)
  | wFull (i : Nat) (n : Int)
  | wSleep (i : Nat) (n : Int)
  | wLast
  -- `piperead`: `acquire`, also that of `sleep`; the test of the loop; `sleep`; the copy; `wakeup`
  | rAcquire (n : Int)
  | rTest (n : Int)
  | rSleep (n : Int)
  | rCopy (i : Nat) (n : Int)
  | rLast
  -- `pipeclose`
  | cAcquire (writable : Bool)
  | cClose (writable : Bool)
  | cWake (writable : Bool)
  | cLast
  /-- `release` and return. -/
  | release
  deriving DecidableEq

structure Thread where
  pc : Pc
  /-- The channel that the thread sleeps on, if it is `SLEEPING`. -/
  chan : Option Chan
  killed : Bool

structure State (T : Type) where
  pipe : Pipe
  /-- The holder of `p->lock`. -/
  lk : Option T
  /-- `kfree` has overwritten the pipe, with a lock that is never free. -/
  freed : Bool
  thread : T → Thread
  stored : List UInt8
  delivered : List UInt8

/-- Calls of a thread with the number of bytes or the end of the pipe, its next step with the byte
that it finds at `addr[i]`, and `kill` of some threads. -/
inductive Act (T : Type) where
  | write (t : T) (n : Int)
  | read (t : T) (n : Int)
  | close (t : T) (writable : Bool)
  | go (t : T) (x : UInt8)
  | kill (victims : T → Bool)

namespace Pipe

def buf (p : Pipe) : Buffer PIPESIZE (2 ^ 32) UInt8 := ⟨p.data, p.nread, p.nwrite⟩

def full (p : Pipe) : Bool := p.nwrite = p.nread + Fin.ofNat (2 ^ 32) PIPESIZE

def empty (p : Pipe) : Bool := p.nread = p.nwrite

def store (p : Pipe) (x : UInt8) : Pipe :=
  { p with data := Function.update p.data (Fin.ofNat PIPESIZE p.nwrite.val) x, nwrite :=
    p.nwrite + 1 }

def next (p : Pipe) : UInt8 := p.data (Fin.ofNat PIPESIZE p.nread.val)

def take (p : Pipe) : Pipe := { p with nread := p.nread + 1 }

def close (p : Pipe) (writable : Bool) : Pipe :=
  if writable then { p with writeopen := false } else { p with readopen := false }

end Pipe

namespace State

variable {T : Type} [DecidableEq T]

variable (s : State T) (t : T)

def goto (pc : Pc) : State T :=
  { s with thread := Function.update s.thread t { s.thread t with pc := pc } }

def acquire (pc : Pc) : Option (State T) :=
  if s.lk = none ∧ s.freed = false then some { s.goto t pc with lk := some t } else none

def wakeup (c : Chan) : State T :=
  { s with thread := fun t =>
      if (s.thread t).chan = some c then { s.thread t with chan := none } else s.thread t }

/-- `sleep(chan, &p->lock)`, up to the switch to another thread. -/
def sleep (c : Chan) (pc : Pc) : State T :=
  { s with lk := none, thread := Function.update s.thread t ⟨pc, some c, (s.thread t).killed⟩ }

def go (x : UInt8) : Option (State T) :=
  match (s.thread t).pc with
  | .user => none
  | .wAcquire i n => s.acquire t (.wTop i n false)
  | .wTop i n _ =>
    if (i : Int) < n then
      if s.pipe.full then
        if s.pipe.readopen = false ∨ (s.thread t).killed then some (s.goto t .release)
        else some (s.goto t (.wFull i n))
      else
        some { s.goto t (.wTop (i + 1) n true) with pipe := s.pipe.store x, stored :=
          s.stored ++ [x] }
    else some (s.goto t .wLast)
  | .wFull i n => some ((s.wakeup .nread).goto t (.wSleep i n))
  | .wSleep i n => some (s.sleep t .nwrite (.wAcquire i n))
  | .wLast => some ((s.wakeup .nread).goto t .release)
  | .rAcquire n => s.acquire t (.rTest n)
  | .rTest n =>
    if s.pipe.empty ∧ s.pipe.writeopen then
      if (s.thread t).killed then some (s.goto t .release) else some (s.goto t (.rSleep n))
    else some (s.goto t (.rCopy 0 n))
  | .rSleep n => some (s.sleep t .nread (.rAcquire n))
  | .rCopy i n =>
    if (i : Int) < n ∧ s.pipe.empty = false then
      some { s.goto t (.rCopy (i + 1) n) with
             pipe := s.pipe.take, delivered := s.delivered ++ [s.pipe.next] }
    else some (s.goto t .rLast)
  | .rLast => some ((s.wakeup .nwrite).goto t .release)
  | .cAcquire w => s.acquire t (.cClose w)
  | .cClose w => some { s.goto t (.cWake w) with pipe := s.pipe.close w }
  | .cWake w => some ((s.wakeup (if w then .nread else .nwrite)).goto t .cLast)
  | .cLast =>
    some { s.goto t .user with
           lk := none, freed := s.freed || !s.pipe.readopen && !s.pipe.writeopen }
  | .release => some { s.goto t .user with lk := none }

def call (pc : Pc) : Option (State T) :=
  if (s.thread t).pc = .user then some (s.goto t pc) else none

/-- `kill`, of all threads of a process. -/
def kill (victims : T → Bool) : State T :=
  { s with thread := fun t => if victims t then ⟨(s.thread t).pc, none, true⟩ else s.thread t }

def next : Act T → Option (State T)
  | .write t n => s.call t (.wAcquire 0 n)
  | .read t n => s.call t (.rAcquire n)
  | .close t w => s.call t (.cAcquire w)
  | .go t x => if (s.thread t).chan = none then s.go t x else none
  | .kill victims => some (s.kill victims)

/-- A pipe as `pipealloc` leaves it, with no thread in a call. -/
structure Fresh (s : State T) : Prop where
  nread : s.pipe.nread = 0
  nwrite : s.pipe.nwrite = 0
  readopen : s.pipe.readopen
  writeopen : s.pipe.writeopen
  lk : s.lk = none
  thread : ∀ t, (s.thread t).pc = .user ∧ (s.thread t).chan = none
  stored : s.stored = []
  delivered : s.delivered = []

end State

def sys (T : Type) [DecidableEq T] : Machine.Sys (State T) (Act T) where
  init := State.Fresh
  next := State.next

/-! ## The bytes in the buffer -/

theorem Pipe.full_iff (p : Pipe) : p.full ↔ p.buf.size = PIPESIZE := by
  rw [Pipe.full, decide_eq_true_iff]
  exact (p.buf.size_eq_iff (by decide)).symm

theorem Pipe.empty_iff (p : Pipe) : p.empty ↔ p.buf.size = 0 := by
  rw [Pipe.empty, decide_eq_true_iff]
  exact p.buf.size_eq_zero_iff.symm

/-- What a step does to the buffer and to the bytes stored and delivered. -/
inductive Moves {T : Type} (s s' : State T) : Prop where
  | same (hbuf : s'.pipe.buf = s.pipe.buf) (hstored : s'.stored = s.stored)
      (hdelivered : s'.delivered = s.delivered)
  | store (x : UInt8) (hroom : s.pipe.full = false) (hbuf : s'.pipe.buf = s.pipe.buf.push x)
      (hstored : s'.stored = s.stored ++ [x]) (hdelivered : s'.delivered = s.delivered)
  | take (hfilled : s.pipe.empty = false) (hbuf : s'.pipe.buf = s.pipe.buf.pop)
      (hstored : s'.stored = s.stored)
      (hdelivered : s'.delivered = s.delivered ++ [s.pipe.buf.front])

section

variable {T : Type} [DecidableEq T] {s s' : State T} {t : T}

theorem Moves.acquire {pc : Pc} (h : s.acquire t pc = some s') : Moves s s' := by
  unfold State.acquire at h
  split_ifs at h
  cases h
  exact .same rfl rfl rfl

theorem Moves.call {pc : Pc} (h : s.call t pc = some s') : Moves s s' := by
  unfold State.call at h
  split_ifs at h
  cases h
  exact .same rfl rfl rfl

theorem Moves.go {x : UInt8} (h : s.go t x = some s') : Moves s s' := by
  unfold State.go at h
  cases hpc : (s.thread t).pc <;> simp only [hpc] at h
  case wAcquire | rAcquire | cAcquire => exact .acquire h
  case wTop =>
    split_ifs at h with hi hfull hfail <;> cases h
    · exact .same rfl rfl rfl
    · exact .same rfl rfl rfl
    · exact .store x (Bool.eq_false_iff.2 hfull) rfl rfl rfl
    · exact .same rfl rfl rfl
  case rTest => split_ifs at h <;> cases h <;> exact .same rfl rfl rfl
  case rCopy =>
    split_ifs at h with hc <;> cases h
    · exact .take hc.2 rfl rfl rfl
    · exact .same rfl rfl rfl
  case cClose w =>
    cases h
    cases w <;> exact .same rfl rfl rfl
  all_goals cases h
  all_goals exact .same rfl rfl rfl

theorem Moves.next {a : Act T} (h : s.next a = some s') : Moves s s' := by
  cases a with
  | write t n | read t n | close t w => exact .call h
  | go t x =>
    simp only [State.next] at h
    split_ifs at h
    exact .go h
  | kill victims =>
    cases h
    exact .same rfl rfl rfl

/-- The buffer holds the bytes that have been stored and not delivered. -/
structure Holds (s : State T) : Prop where
  size : s.pipe.buf.size ≤ PIPESIZE
  bytes : s.stored = s.delivered ++ s.pipe.buf.contents

omit [DecidableEq T] in
theorem Holds.fresh (h : s.Fresh) : Holds s := by
  have hsize : s.pipe.buf.size = 0 := by
    rw [s.pipe.buf.size_eq_zero_iff]
    exact h.nread.trans h.nwrite.symm
  refine ⟨by omega, ?_⟩
  rw [h.stored, h.delivered, Buffer.contents, hsize]
  rfl

omit [DecidableEq T] in
theorem Holds.moves (hs : Holds s) (h : Moves s s') : Holds s' := by
  cases h with
  | same hbuf hstored hdelivered =>
    exact ⟨hbuf ▸ hs.size, by rw [hstored, hdelivered, hbuf, hs.bytes]⟩
  | store x hroom hbuf hstored hdelivered =>
    have hlt : s.pipe.buf.size < PIPESIZE := by
      refine lt_of_le_of_ne hs.size fun heq => ?_
      rw [(s.pipe.full_iff).2 heq] at hroom
      cases hroom
    refine ⟨?_, ?_⟩
    · rw [hbuf, Buffer.size_push _ _ hlt (by decide)]
      omega
    · rw [hstored, hdelivered, hbuf, Buffer.contents_push _ _ (by decide) hlt (by decide), hs.bytes,
        List.append_assoc]
  | take hfilled hbuf hstored hdelivered =>
    have hpos : 0 < s.pipe.buf.size := by
      refine Nat.pos_of_ne_zero fun heq => ?_
      rw [(s.pipe.empty_iff).2 heq] at hfilled
      cases hfilled
    refine ⟨?_, ?_⟩
    · rw [hbuf, Buffer.size_pop _ hpos]
      exact (Nat.sub_le _ _).trans hs.size
    · rw [hstored, hdelivered, hbuf, hs.bytes, Buffer.contents_pop _ hpos, List.append_assoc]
      rfl

/-- A pipe is a queue of at most `PIPESIZE` bytes. -/
theorem pipe_fifo (h : (sys T).Reachable s) : (s.pipe.nwrite - s.pipe.nread).val ≤ PIPESIZE ∧
      s.stored = s.delivered ++ (List.range (s.pipe.nwrite - s.pipe.nread).val).map fun k =>
        s.pipe.data (Fin.ofNat PIPESIZE (s.pipe.nread + Fin.ofNat (2 ^ 32) k).val) := by
  have hholds : Holds s := by
    refine Machine.Sys.Reachable.invariant (I := Holds) ?_ ?_ h
    · intro s hs
      exact .fresh hs
    · intro s a s' hs hstep
      exact hs.moves (.next hstep)
  exact ⟨hholds.size, hholds.bytes⟩

end

def newPipe : State Bool where
  pipe := ⟨fun _ => 0, 0, 0, true, true⟩
  lk := none
  freed := false
  thread _ := ⟨.user, none, false⟩
  stored := []
  delivered := []

theorem newPipe_fresh : newPipe.Fresh := by
  constructor <;> simp [newPipe]

/-- One thread writes two bytes, and the other one reads the first. -/
def writeTwo : List (Act Bool) :=
  .write false 2 :: List.map (.go false) [0, 7, 8, 0, 0, 0] ++
    .read true 1 :: List.replicate 6 (.go true 0)

theorem pipe_fifo_writeTwo : ∃ s, (sys Bool).Reachable s ∧ s.delivered = [7] ∧
      s.stored = s.delivered ++ (List.range (s.pipe.nwrite - s.pipe.nread).val).map fun k =>
        s.pipe.data (Fin.ofNat PIPESIZE (s.pipe.nread + Fin.ofNat (2 ^ 32) k).val) := by
  obtain ⟨s, hreach, hdelivered⟩ : ∃ s, (sys Bool).Reachable s ∧ s.delivered = [7] :=
    Machine.Sys.exists_reachable writeTwo newPipe_fresh (by decide +kernel)
  exact ⟨s, hreach, hdelivered, (pipe_fifo hreach).2⟩

end Xv6.Pipes
