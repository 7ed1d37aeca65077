import Xv6.Param
import Xv6.Lib.Machine
import Mathlib.Logic.Function.Basic

/-!
# The disk drivers

`ide.c`: the queue is the linked list of the source.  A step is a stretch of code with `idelock`, or
one link of the loop of `iderw` that looks for the end of the queue; the disk finishes a command in
a step of its own, and raises one interrupt for it.  A thread that sleeps may be woken at any time.

Threads change the buffers whose locks they hold outside `iderw`; `bget` changes buffers that nobody
holds.  `memide.c`: `iderw` copies the block to or from a disk in memory.
-/

namespace Xv6.Ide

open Function

/-- `struct buf`, as far as the drivers use it; `valid` and `dirty` are the bits of `flags`. -/
structure Buf (D : Type) where
  valid : Bool
  dirty : Bool
  dev : ℕ
  blockno : ℕ
  data : D

/-- `(b->flags & (B_VALID|B_DIRTY)) == B_VALID`. -/
def Buf.synced {D : Type} (x : Buf D) : Bool := x.valid && !x.dirty

/-- A change of a buffer outside the driver, or a request that the disk completes. -/
inductive Ev (B D : Type) where
  | set (b : B) (x : Buf D)
  | iderw (b : B)

/-! ## The disk in memory -/

/-- `memdisk`, and the buffers. -/
structure Mem (B D : Type) where
  disk : ℕ → D
  buf : B → Buf D

section Mem

variable {B D : Type} [DecidableEq B]

/-- `iderw` of `memide.c`, for a buffer whose lock is held, if it does not panic. -/
def Mem.iderw (disksize : ℕ) (m : Mem B D) (b : B) : Option (Mem B D) :=
  let x := m.buf b
  if x.synced then none
  else if x.dev ≠ 1 then none
  else if disksize ≤ x.blockno then none
  else if x.dirty then
    some
      { disk := update m.disk x.blockno x.data
        buf := update m.buf b { x with dirty := false, valid := true } }
  else some { m with buf := update m.buf b { x with data := m.disk x.blockno, valid := true } }

def memSys (disksize : ℕ) : Machine.Sys (Mem B D) (Ev B D) where
  init _ := True
  next m
    | .set b x => some { m with buf := update m.buf b x }
    | .iderw b => m.iderw disksize b

end Mem

/-! ## The driver -/

/-- A command as the registers of the disk hold it; `write` is the data of a write. -/
structure Cmd (D : Type) where
  dev : ℕ
  sector : ℕ
  write : Option D

def SECTOR_SIZE : ℕ := 512

/-- The sector in the registers, which take 8, 8, 8 and 4 bits. -/
def lba (sector : ℕ) : ℕ :=
  sector % 2 ^ 8 + sector / 2 ^ 8 % 2 ^ 8 * 2 ^ 8 + sector / 2 ^ 16 % 2 ^ 8 * 2 ^ 16 + sector /
    2 ^ 24 % 2 ^ 4 * 2 ^ 24

/-- The command that `idestart` gives. -/
def Buf.cmd {D : Type} (x : Buf D) : Cmd D where
  dev := x.dev % 2
  sector := lba (x.blockno * (BSIZE / SECTOR_SIZE))
  write := if x.dirty then some x.data else none

def Cmd.perform {D : Type} (c : Cmd D) (medium : ℕ → ℕ → D) : ℕ → ℕ → D :=
  match c.write with
  | some d => update medium c.dev (update (medium c.dev) c.sector d)
  | none => medium

inductive Pc (B : Type) where
  | user
  | acquire (b : B)
  /-- In the loop over the queue; `pp` is `&idequeue` or `&x->qnext`. -/
  | walk (b : B) (pp : Option B)
  /-- In `sleep`. -/
  | asleep (b : B)
  deriving DecidableEq

structure State (T B D : Type) where
  idequeue : Option B
  qnext : B → Option B
  buf : B → Buf D
  /-- The thread that holds `idelock` between two steps. -/
  lock : Option T
  pc : T → Pc B
  /-- The thread that holds the sleep lock of the buffer. -/
  holder : B → Option T
  /-- The blocks of disks 0 and 1. -/
  medium : ℕ → ℕ → D
  /-- The command started last, up to its interrupt. -/
  cmd : Option (Cmd D)
  busy : Bool
  /-- Interrupts raised and not handled. -/
  intr : ℕ
  /-- A function has called `panic`. -/
  halted : Bool
  appended : List B
  completed : List B
  history : List (Ev B D)

inductive Act (T B D : Type) where
  | acquiresleep (t : T) (b : B)
  | releasesleep (t : T) (b : B)
  /-- The thread changes a buffer that it holds. -/
  | touch (t : T) (b : B) (x : Buf D)
  /-- `bget` takes a buffer for another block. -/
  | recycle (b : B) (x : Buf D)
  | iderw (t : T) (b : B)
  | go (t : T)
  /-- The thread wakes up and tests the flags. -/
  | wake (t : T)
  | finish
  | ideintr

namespace State

variable {T B D : Type} [DecidableEq T] [DecidableEq B]

variable (s : State T B D) (b : B)

def goto (t : T) (pc : Pc B) : State T B D := { s with pc := update s.pc t pc }

def setBuf (x : Buf D) : State T B D := { s with buf := update s.buf b x }

/-- `idestart`; without a result it waits for the disk. -/
def idestart : Option (State T B D) :=
  if FSSIZE ≤ (s.buf b).blockno then some { s with halted := true }
  else if s.busy then none
  else some { s with cmd := some (s.buf b).cmd, busy := true }

/-- `*pp`. -/
def deref : Option B → Option B
  | none => s.idequeue
  | some x => s.qnext x

/-- `*pp = b`. -/
def store : Option B → State T B D
  | none => { s with idequeue := some b }
  | some x => { s with qnext := update s.qnext x (some b) }

/-- The test of `iderw` before it sleeps. -/
def await (t : T) (b : B) : State T B D :=
  s.goto t (if (s.buf b).synced then .user else .asleep b)

def go (t : T) : Option (State T B D) :=
  match s.pc t with
  | .user | .asleep _ => none
  | .acquire b =>
    if s.lock = none then
      some ({ s with lock := some t, qnext := update s.qnext b none }.goto t (.walk b none))
    else none
  | .walk b pp =>
    match s.deref pp with
    | some x => some (s.goto t (.walk b (some x)))
    | none =>
      let s₁ := { s.store b pp with appended := s.appended ++ [b] }
      let s₂ := if s₁.idequeue = some b then s₁.idestart b else some s₁
      s₂.map fun s₃ => { s₃ with lock := none }.await t b

/-- `ideintr` for the buffer at the head of the queue. -/
def complete : State T B D :=
  let x := s.buf b
  let data := match s.cmd with
    | some c => if x.dirty then x.data else s.medium c.dev c.sector
    | none => x.data
  { s with
    idequeue := s.qnext b
    buf := update s.buf b { x with valid := true, dirty := false, data := data }
    cmd := none
    completed := s.completed ++ [b]
    history := s.history ++ [.iderw b] }

def ideintr : Option (State T B D) :=
  match s.idequeue with
  | none => some s
  | some b =>
    -- `idewait(1)` waits for the disk
    if s.busy && !(s.buf b).dirty then none
    else match (s.complete b).idequeue with
      | none => some (s.complete b)
      | some b' => (s.complete b).idestart b'

def next (havedisk1 : Bool) (s : State T B D) (a : Act T B D) : Option (State T B D) :=
  if s.halted then none
  else match a with
  | .acquiresleep t b =>
    if s.pc t = .user ∧ s.holder b = none then
      some { s with holder := update s.holder b (some t) } else none
  | .releasesleep t b =>
    if s.pc t = .user ∧ s.holder b = some t then
      some { s with holder := update s.holder b none } else none
  | .touch t b x =>
    if s.pc t = .user ∧ s.holder b = some t then
      some { s.setBuf b x with history := s.history ++ [.set b x] } else none
  | .recycle b x =>
    if s.holder b = none then some { s.setBuf b x with history := s.history ++ [.set b x] } else
      none
  | .iderw t b =>
    if s.pc t = .user then
      if s.holder b ≠ some t then some { s with halted := true }
      else if (s.buf b).synced then some { s with halted := true }
      else if (s.buf b).dev ≠ 0 ∧ havedisk1 = false then some { s with halted := true }
      else some (s.goto t (.acquire b))
    else none
  | .go t => s.go t
  | .wake t =>
    match s.pc t with
    | .asleep b => if s.lock = none then some (s.await t b) else none
    | _ => none
  | .finish =>
    match s.cmd with
    | some c =>
      if s.busy then
        some
          { s with
            busy := false
            intr := s.intr + 1
            medium := c.perform s.medium }
      else none
    | none => none
  | .ideintr => if 0 < s.intr ∧ s.lock = none then { s with intr := s.intr - 1 }.ideintr else none

end State

section Sys

variable {T B D : Type} [DecidableEq T] [DecidableEq B]

def boot (medium : ℕ → ℕ → D) (buf : B → Buf D) : State T B D where
  idequeue := none
  qnext _ := none
  buf := buf
  lock := none
  pc _ := .user
  holder _ := none
  medium := medium
  cmd := none
  busy := false
  intr := 0
  halted := false
  appended := []
  completed := []
  history := []

def sys (havedisk1 : Bool) (medium : ℕ → ℕ → D) (buf : B → Buf D) :
    Machine.Sys (State T B D) (Act T B D) where
  init s := s = boot medium buf
  next := State.next havedisk1

/-- `iderw` is called with the lock of the buffer held, and for the buffers that `P` allows. -/
def Requests (P : Buf D → Prop) (s : State T B D) : Act T B D → Prop
  | .iderw t b => s.holder b = some t ∧ P (s.buf b)
  | _ => True

/-- The block is one that `idestart` accepts. -/
def Buf.InRange (x : Buf D) : Prop := x.blockno < FSSIZE

/-- The request is one that both drivers accept. -/
def Buf.OnDisk1 (disksize : ℕ) (x : Buf D) : Prop := x.InRange ∧ x.dev = 1 ∧ x.blockno < disksize

instance (x : Buf D) : Decidable x.InRange := inferInstanceAs (Decidable (x.blockno < FSSIZE))

instance (disksize : ℕ) (x : Buf D) : Decidable (x.OnDisk1 disksize) :=
  inferInstanceAs (Decidable (x.InRange ∧ x.dev = 1 ∧ x.blockno < disksize))

instance (P : Buf D → Prop) [DecidablePred P] (s : State T B D) (a : Act T B D) :
    Decidable (Requests P s a) := by
  cases a <;> unfold Requests <;> infer_instance

end Sys

end Xv6.Ide
