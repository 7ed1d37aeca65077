import Xv6.Param
import Mathlib.Data.Fintype.Prod
import Mathlib.Logic.Function.Basic

/-!
# The process table

The data of `proc.h` and what the functions of `proc.c` do to it with `ptable.lock` held.  The
thread arrays of all processes are one map, indexed by process and slot.  User registers, open files
and memory contents are left out.

`nextpid` is unbounded: it is the `int` of the source as long as fewer than `2 ^ 31` pids have been
given.  The page numbers handed out by `kalloc` are unbounded too, and a page number is never
reused: a page freed twice is then a number that occurs twice in `freed`.

Slot `NTHREADS` of a thread array does not exist.  `allocthread` does not check this; `overrun` says
what it writes instead.
-/

namespace Xv6.Ptable

/-- An index into `ptable.proc`. -/
abbrev ProcId := Fin NPROC

/-- A thread slot: `ptable.proc[t.1].threads[t.2]`. -/
abbrev Slot := ProcId × Fin NTHREADS

/-- `enum procstate`, and what else can stand in the field when it is overwritten. -/
inductive ProcState where
  | UNUSED | ZOMBIE | USED
  | other
  deriving DecidableEq

inductive ThreadState where
  | UNUSED_T | EMBRYO | SLEEPING | RUNNABLE | RUNNING | ZOMBIE_T | BLOCKED
  deriving DecidableEq

/-- `struct proc *`: null, an entry of the table, or another address. -/
inductive ProcPtr where
  | null
  | proc (p : ProcId)
  | addr (n : ℕ)
  deriving DecidableEq

/-- `pde_t *`: null, a page, or an address that is not the start of a page. -/
inductive PgDir where
  | null
  | page (n : ℕ)
  | wild
  deriving DecidableEq

/-- Sleep channels: addresses of processes, of threads, and of other kernel objects. -/
inductive Chan where
  | null
  | proc (p : ProcId)
  | thread (t : Slot)
  | other (n : ℕ)
  deriving DecidableEq

def ProcPtr.chan : ProcPtr → Chan
  | null => .null
  | proc p => .proc p
  | addr n => .other n

/-- The sections of code that run with `ptable.lock` held. -/
inductive Sec where
  /-- `allocproc`, called by `fork`. -/
  | allocproc
  /-- The second section of `fork`, for the process `allocproc` returned. -/
  | fork (np : ProcId)
  | growproc
  /-- One pass of the loop of `wait`. -/
  | wait
  | kill (pid : ℤ)
  | exit
  | exitThread
  | exitProcess
  | kthreadCreate
  | kthreadJoin (tid : ℤ)
  /-- One pass of the loop of `kthread_join`. -/
  | joinLoop (t : Slot)
  /-- The loop of `exec` that wakes the other threads. -/
  | execWake
  | yield
  | sleep (chan : Chan)
  | wakeup (chan : Chan)
  deriving DecidableEq

/-- System calls.  The kernel code of the others only matters by its calls of `sleep` and
`wakeup`. -/
inductive Call where
  | fork | exit | wait | sbrk | exec | kthreadCreate | kthreadExit
  | kill (pid : ℤ)
  | kthreadJoin (tid : ℤ)
  | other
  deriving DecidableEq

/-- What a kernel stack says is left to do, one entry for each pending piece of code. -/
inductive Frame where
  /-- `acquire(&ptable.lock)`, then the section. -/
  | acquire (k : Sec)
  | crit (k : Sec)
  /-- `release(&ptable.lock)`, then return. -/
  | release
  /-- `sleep` after `sched` returned, up to its last release. -/
  | sleepBack
  /-- `forkret`, before its `release`. -/
  | forkret
  /-- `if(mythread()->killed) exit();` in `trap`. -/
  | trapExit
  /-- `syscall`, about to call the function. -/
  | enter (f : Call)
  /-- Other kernel code, which may call `sleep` and `wakeup`. -/
  | kernel
  /-- The loop of `exec` that marks the other threads killed, at slot `i`. -/
  | execMark (i : ℕ)
  /-- The loop of `exec` that looks for threads still alive, at slot `i`. -/
  | execCheck (i : ℕ) (flag : Bool)
  /-- The end of `exec`: commit to the new image, or fail. -/
  | execDone
  /-- The start of `exit_process`. -/
  | exitProcess
  /-- `panic("zombie exit")` at the end of `exit_process`. -/
  | zombieExit
  deriving DecidableEq

/-- `struct thread`.  `context` is the kernel stack `sched` left. -/
structure Thread where
  kstack : Option ℕ
  state : ThreadState
  killed : Bool
  chan : Chan
  tid : ℤ
  context : List Frame

structure Proc where
  killed : Bool
  pgdir : PgDir
  pid : ℤ
  parent : ProcPtr
  state : ProcState
  tNum : ℕ

/-- A return of `wait`: by a thread of which process, for which slot and pid. -/
structure Reaped where
  parent : ProcId
  child : ProcId
  pid : ℤ

structure Table where
  proc : ProcId → Proc
  thread : Slot → Thread
  initproc : ProcId
  nextpid : ℤ
  /-- The address of `ptable.proc[0]`, as an `int`. -/
  base : ℤ
  /-- The next page number `kalloc` returns. -/
  fresh : ℕ
  /-- Ghost: the pages freed, newest first. -/
  freed : List ℕ
  /-- Ghost: the successful returns of `wait`, newest first. -/
  reaped : List Reaped

/-- The thread still counts for `exit_thread`: it is neither ZOMBIE_T nor UNUSED_T. -/
def ThreadState.alive : ThreadState → Bool
  | UNUSED_T | ZOMBIE_T => false
  | _ => true

/-- `if(t->state == SLEEPING) t->state = RUNNABLE`. -/
def Thread.wake (th : Thread) : Thread :=
  if th.state = .SLEEPING then { th with state := .RUNNABLE } else th

namespace Table

variable (T : Table) (p : ProcId)

/-- The slot is one of `threads[0 .. t_num - 1]`. -/
def below (t : Slot) : Bool := decide (t.2.val < (T.proc t.1).tNum)

def setProc (f : Proc → Proc) : Table :=
  { T with proc := Function.update T.proc p (f (T.proc p)) }

def setThread (t : Slot) (f : Thread → Thread) : Table :=
  { T with thread := Function.update T.thread t (f (T.thread t)) }

def mapThread (f : Slot → Thread → Thread) : Table :=
  { T with thread := fun t => f t (T.thread t) }

/-- `kfree`, or `freevm` of a page directory: record the page. -/
def free (pages : List ℕ) : Table := { T with freed := pages ++ T.freed }

def wakeup1 (chan : Chan) : Table :=
  T.mapThread fun t th =>
    if T.below t && (th.state == .SLEEPING && th.chan == chan) then
      { th with state := .RUNNABLE } else th

/-- The loop of `exit` and `kill`: mark every thread of the process killed and wake it. -/
def killThreads : Table :=
  T.mapThread fun t th => if t.1 = p ∧ T.below t then { th.wake with killed := true } else th

/-- `running_t` of `exit_thread`: the slots below `t_num` that are neither ZOMBIE_T nor UNUSED_T. -/
def running : List (Fin NTHREADS) :=
  (List.finRange NTHREADS).filter fun i => T.below (p, i) && (T.thread (p, i)).state.alive

end Table

end Xv6.Ptable
