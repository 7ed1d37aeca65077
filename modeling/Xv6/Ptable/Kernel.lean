import Xv6.Ptable.Sections
import Xv6.Lib.Machine

/-!
# Threads, CPUs and `ptable.lock`

Any number of CPUs, each in `scheduler` or running the kernel stack of the thread it switched to.
One step is one call of `acquire` or `release`, one section under `ptable.lock`, or a piece of code
without it.  `sched` hands the lock over to the scheduler of its CPU, which hands it to the next
thread or releases it.  `exec` looks at the other threads without the lock, one slot at a time.

`acquire` by the CPU that holds the lock, `release` and `sched` by one that does not, are panics; a
CPU that panicked takes no more steps.
-/

namespace Xv6.Ptable

/-- An idle CPU handling an interrupt that calls `wakeup`. -/
inductive Intr where
  | none
  | acquire (n : ℕ)
  | crit (n : ℕ)
  | release
  deriving DecidableEq

inductive Ctl where
  /-- At the top of `scheduler`'s outer loop. -/
  | idle (i : Intr)
  /-- In the loop over the processes. -/
  | scanProc (p : ℕ)
  /-- In the loop over the threads of a process. -/
  | scanThread (p : ProcId) (i : ℕ)
  /-- Running `c->thread`; the empty stack is user mode. -/
  | run (st : List Frame)
  | panic (m : Panic)
  deriving DecidableEq

/-- `struct cpu`.  `c->proc` is the process of `c->thread`, and the scheduler's saved context is the
position of `c->thread` in its loops. -/
structure Cpu where
  thread : Option Slot
  ctl : Ctl

structure Kernel (C : Type) where
  table : Table
  /-- The CPU that holds `ptable.lock`. -/
  lock : Option C
  cpu : C → Cpu
  first : Bool

inductive Act where
  /-- Go on; `ok`: memory allocation succeeds in this step. -/
  | go (ok : Bool)
  | syscall (f : Call)
  | timer
  /-- A device interrupt that calls `wakeup`. -/
  | interrupt (n : ℕ)
  | fault
  /-- Other kernel code calls `sleep` with a lock of its own. -/
  | sleep (n : ℕ)
  /-- Other kernel code calls `wakeup`. -/
  | wakeup (n : ℕ)
  deriving DecidableEq

variable {C : Type} [DecidableEq C]

namespace Kernel

variable (s : Kernel C) (c : C)

def setCtl (k : Ctl) : Kernel C :=
  { s with cpu := Function.update s.cpu c { s.cpu c with ctl := k } }

def acquire (k : Ctl) : Option (Kernel C) :=
  match s.lock with
  | none => some ({ s with lock := some c }.setCtl c k)
  | some d => if d = c then some (s.setCtl c (.panic .acquire)) else none

def release (k : Ctl) : Kernel C :=
  if s.lock = some c then { s with lock := none }.setCtl c k else s.setCtl c (.panic .release)

/-- `sched()` by thread `me` on CPU `c` in state `x`: back to the loop of `scheduler`, at the next
slot. -/
def sched (me : Slot) (x : ThreadState) (st : List Frame) : Kernel C :=
  let s₁ := { s with table := s.table.setThread me fun th => { th with state := x } }
  if s.lock = some c then
    { s₁ with
      table := s₁.table.setThread me fun th => { th with context := st }
      cpu := Function.update s.cpu c ⟨none, .scanThread me.1 (me.2.val + 1)⟩ }
  else s₁.setCtl c (.panic .sched)

/-- The rest of the call of `f`, from the start of the function on. -/
def enter (T : Table) (me : Slot) : Call → List Frame
  | .fork => [.acquire .allocproc]
  | .exit => [.acquire .exit]
  | .wait => [.acquire .wait]
  | .sbrk => [.acquire .growproc]
  | .kill pid => [.acquire (.kill pid)]
  | .kthreadCreate => [.acquire .kthreadCreate]
  | .kthreadExit => [.acquire .exitThread]
  | .kthreadJoin tid => [.acquire (.kthreadJoin tid)]
  | .exec =>
    -- `exit_thread` is called without the lock
    if (T.thread me).killed then [.crit .exitThread, .kernel, .execDone] else [.execMark 0]
  | .other => [.kernel]

/-- The end of a section on CPU `c` for thread `me`, over the stack `st`. -/
def finish (me : Slot) (st : List Frame) : Out → Option (Kernel C)
  | .ret _ => some (s.setCtl c (.run (.release :: st)))
  | .leak _ => some (s.setCtl c (.run st))
  | .goto fs => some (s.setCtl c (.run (fs ++ st)))
  | .sched x fs => some (s.sched c me x (fs ++ st))
  | .panic m => some (s.setCtl c (.panic m))
  | .spin => none

def crit (me : Slot) (ok : Bool) (k : Sec) (st : List Frame) : Option (Kernel C) :=
  let r := s.table.crit me ok k
  { s with table := r.1 }.finish c me st r.2

def slotOf (me : Slot) (i : ℕ) : Option Slot :=
  if h : i < NTHREADS then if s.table.below (me.1, ⟨i, h⟩) then some (me.1, ⟨i, h⟩) else none else
    none

/-- The end of `exec`: on success the new page directory replaces the old one, which is freed. -/
def execDone (T : Table) (me : Slot) (ok : Bool) : Table :=
  if ok then
    let old := match (T.proc me.1).pgdir with
      | .page n => [n]
      | _ => []
    { (T.setProc me.1 fun q => { q with pgdir := .page T.fresh }).free old with fresh :=
      T.fresh + 1 }
  else T

/-- Thread `me` on CPU `c` goes on with frame `f` over the stack `st`. -/
def frame (me : Slot) (ok : Bool) (f : Frame) (st : List Frame) : Option (Kernel C) :=
  match f with
  | .acquire k => s.acquire c (.run (.crit k :: st))
  | .crit k => s.crit c me ok k st
  | .release => some (s.release c (.run st))
  | .sleepBack =>
    some ({ s with table := s.table.setThread me fun th => { th with chan := .null } }.setCtl c
      (.run st))
  | .forkret =>
    some (if s.first then { s with first := false }.release c (.run (.kernel :: st))
      else s.release c (.run st))
  | .trapExit =>
    some (s.setCtl c (.run (if (s.table.thread me).killed then .acquire .exit :: st else st)))
  | .enter g => some (s.setCtl c (.run (enter s.table me g ++ st)))
  | .kernel => some (s.setCtl c (.run st))
  | .execMark i =>
    match s.slotOf me i with
    | some t =>
      let T := if t ≠ me ∧ (s.table.thread t).state ≠ .UNUSED_T then
        s.table.setThread t fun th => { th with killed := true } else s.table
      some ({ s with table := T }.setCtl c (.run (.execMark (i + 1) :: st)))
    | none => some (s.setCtl c (.run (.acquire .execWake :: st)))
  | .execCheck i flag =>
    match s.slotOf me i with
    | some t =>
      let flag' := flag || decide (t ≠ me ∧ (s.table.thread t).state.alive)
      some (s.setCtl c (.run (.execCheck (i + 1) flag' :: st)))
    | none => some (s.setCtl c
      (.run (if flag then .acquire .execWake :: st else .kernel :: .execDone :: st)))
  | .execDone => some ({ s with table := execDone s.table me ok }.setCtl c (.run st))
  | .exitProcess =>
    if me.1 = s.table.initproc then some (s.setCtl c (.panic .initExiting))
    else some (s.setCtl c (.run (.kernel :: .acquire .exitProcess :: st)))
  | .zombieExit => some (s.setCtl c (.panic .zombieExit))

def switch (t : Slot) : Kernel C :=
  { s with
    table := s.table.setThread t fun th => { th with state := .RUNNING }
    cpu := Function.update s.cpu c ⟨some t, .run (s.table.thread t).context⟩ }

def go (ok : Bool) : Option (Kernel C) :=
  match (s.cpu c).ctl with
  | .idle .none => s.acquire c (.scanProc 0)
  | .idle (.acquire n) => s.acquire c (.idle (.crit n))
  | .idle (.crit n) =>
    some ({ s with table := s.table.wakeup1 (.other n) }.setCtl c (.idle .release))
  | .idle .release => some (s.release c (.idle .none))
  | .scanProc p =>
    if h : p < NPROC then
      if (s.table.proc ⟨p, h⟩).state = .USED then some (s.setCtl c (.scanThread ⟨p, h⟩ 0))
      else some (s.setCtl c (.scanProc (p + 1)))
    else some (s.release c (.idle .none))
  | .scanThread p i =>
    if h : i < NTHREADS then
      if s.table.below (p, ⟨i, h⟩) then
        if (s.table.thread (p, ⟨i, h⟩)).state = .RUNNABLE then some (s.switch c (p, ⟨i, h⟩))
        else some (s.setCtl c (.scanThread p (i + 1)))
      else some (s.setCtl c (.scanProc (p.val + 1)))
    else some (s.setCtl c (.scanProc (p.val + 1)))
  | .run (f :: st) =>
    match (s.cpu c).thread with
    | some me => s.frame c me ok f st
    | none => none
  | .run [] => none
  | .panic _ => none

/-- Interrupts are on: in user mode, and in the kernel while the CPU does not hold the lock. -/
def interruptible (st : List Frame) : Bool := st == [] || s.lock != some c

def next : Act → Option (Kernel C)
  | .go ok => s.go c ok
  | .syscall f =>
    match (s.cpu c).ctl with
    | .run [] => some (s.setCtl c (.run [.trapExit, .enter f, .trapExit]))
    | _ => none
  | .timer =>
    match (s.cpu c).ctl with
    | .run [] => some (s.setCtl c (.run [.trapExit, .acquire .yield, .trapExit]))
    | .run st => if s.interruptible c st then some (s.setCtl c (.run (.acquire .yield :: st))) else
      none
    | _ => none
  | .interrupt n =>
    match (s.cpu c).ctl with
    | .idle .none => some (s.setCtl c (.idle (.acquire n)))
    | .run st =>
      if s.interruptible c st then
        some (s.setCtl c (.run (.acquire (.wakeup (.other n)) :: st))) else none
    | _ => none
  | .fault =>
    match (s.cpu c).ctl, (s.cpu c).thread with
    | .run [], some me =>
      let T := s.table.mapThread fun t th => if t.1 = me.1 ∧ s.table.below t then
        { th with killed := true } else th
      some ({ s with table := T.setProc me.1 fun q => { q with killed := true } }.setCtl c
        (.run [.trapExit]))
    | _, _ => none
  | .sleep n =>
    match (s.cpu c).ctl with
    | .run (.kernel :: st) =>
      some (s.setCtl c (.run (.acquire (.sleep (.other n)) :: .kernel :: st)))
    | _ => none
  | .wakeup n =>
    match (s.cpu c).ctl with
    | .run (.kernel :: st) =>
      some (s.setCtl c (.run (.acquire (.wakeup (.other n)) :: .kernel :: st)))
    | _ => none

end Kernel

/-- The table after `userinit`: one process, whose one thread is ready to run `forkret`. -/
def Table.userinit (base : ℤ) : Table where
  proc p := if p.val = 0 then ⟨false, .page 1, 1, .null, .USED, 1⟩ else
    ⟨false, .null, 0, .null, .UNUSED, 0⟩
  thread t :=
    if t.1.val = 0 ∧ t.2.val = 0 then ⟨some 0, .RUNNABLE, false, .null, 1, [.forkret]⟩
    else ⟨none, .UNUSED_T, false, .null, 0, []⟩
  initproc := ⟨0, NPROC_pos⟩
  nextpid := 2
  base := base
  fresh := 2
  freed := []
  reaped := []

/-- The CPUs of `C` in `scheduler`, after `userinit`. -/
def Kernel.boot (C : Type) (base : ℤ) : Kernel C :=
  ⟨.userinit base, none, fun _ => ⟨none, .idle .none⟩, true⟩

def kernelSys (C : Type) [DecidableEq C] : Machine.Sys (Kernel C) (C × Act) where
  init s := ∃ base, s = .boot C base
  next s a := s.next a.1 a.2

theorem boot_init {C : Type} [DecidableEq C] (base : ℕ) : (kernelSys C).init (.boot C base) :=
  ⟨base, rfl⟩

end Xv6.Ptable
