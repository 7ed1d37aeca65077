import Xv6.Ptable.Table

/-!
# The sections under `ptable.lock`

Each stretch of `proc.c` and `exec.c` that runs with `ptable.lock` held, as a function of the table,
the calling thread and whether memory allocation succeeds.  It returns the new table and how the
section ends: by releasing the lock and returning, by returning without releasing it, by going on
with other code, or by giving the CPU back in `sched`.
-/

namespace Xv6.Ptable

inductive Panic where
  | acquire | release | sched | initExiting | zombieExit | noRunningThread | freevm
  deriving DecidableEq

inductive Out where
  /-- `release(&ptable.lock)`, then return the value. -/
  | ret (v : ℤ)
  /-- Return the value without a release. -/
  | leak (v : ℤ)
  /-- Go on with the frames. -/
  | goto (fs : List Frame)
  /-- Set the caller's state and call `sched`; go on with the frames when it returns. -/
  | sched (x : ThreadState) (fs : List Frame)
  | panic (m : Panic)
  /-- Loop forever with the lock held. -/
  | spin

namespace Table

/-! ## Creating threads and processes -/

def stateNum : ThreadState → ℕ
  | .UNUSED_T => 0 | .EMBRYO => 1 | .SLEEPING => 2 | .RUNNABLE => 3 | .RUNNING => 4
  | .ZOMBIE_T => 5 | .BLOCKED => 6

variable (T : Table) (me : Slot)

/-- What `allocthread` writes through `&p->threads[NTHREADS]`.  The fields of that slot lie over
other fields: `kstack` over `p->state`, `state` over `p->t_num`, `killed` over `p->cwd`, and in the
next process `tf` over `killed`, `context` over `pgdir`, `p_parent` over `pid`, `tid` over `parent`.
`tid` is read back from `p->t_num` after `state` was stored, as long as the compiler does not keep
`t_num` in a register. -/
def overrun (p : ProcId) (x : ThreadState) (ok : Bool) : Table :=
  let T₁ :=
    if h : p.val + 1 < NPROC then
      T.setProc ⟨p.val + 1, h⟩ fun q =>
        { q with
          pid := T.base + 624 * p.val
          parent := .addr (stateNum x)
          killed := ok || q.killed
          pgdir := if ok then .wild else q.pgdir }
    else T
  let T₂ := T₁.setProc p fun q =>
    { q with
      tNum := if ok then stateNum x else stateNum .UNUSED_T
      state := if ok then .other else .UNUSED }
  { T₂ with fresh := if ok then T₂.fresh + 1 else T₂.fresh }

/-- `allocthread(p, first)`; `ok`: its `kalloc` succeeds. -/
def allocthread (p : ProcId) (first ok : Bool) : Table :=
  let n := (T.proc p).tNum
  let x : ThreadState := if first then .EMBRYO else .RUNNABLE
  if h : n < NTHREADS then
    let T₁ := T.setProc p fun q => { q with tNum := n + 1 }
    if ok then
      { T₁.setThread (p, ⟨n, h⟩) (fun th =>
          { th with
            kstack := some T.fresh, state := x, killed := false, tid := n + 1
            context := [.forkret] }) with
        fresh := T.fresh + 1 }
    else
      T₁.setThread (p, ⟨n, h⟩) fun th =>
        { th with kstack := none, state := .UNUSED_T, killed := false, tid := n + 1 }
  else T.overrun p x ok

/-- `allocproc`: the first UNUSED process. -/
def findUnused : Option ProcId :=
  (List.finRange NPROC).find? fun p => (T.proc p).state == .UNUSED

/-- `allocproc` from its section on; `fork` returns -1 when it returns 0. -/
def allocproc (ok : Bool) : Table × Out :=
  match T.findUnused with
  | none => (T, .ret (-1))
  | some p =>
    let T₁ := { T.setProc p fun q => { q with tNum := 0, pid := T.nextpid, state := .USED } with
      nextpid := T.nextpid + 1 }
    (T₁.allocthread p true ok, if ok then .goto [.release, .acquire (.fork p)] else .ret (-1))

def slot0 (p : ProcId) : Slot := (p, ⟨0, by decide⟩)

/-- The second section of `fork`; `ok`: `copyuvm` succeeds. -/
def fork (np : ProcId) (ok : Bool) : Table × Out :=
  if ok then
    let T₁ := T.setProc np fun q => { q with pgdir := .page T.fresh, parent := .proc me.1 }
    ({ T₁.setThread (slot0 np) (fun th => { th with state := .RUNNABLE }) with fresh :=
      T.fresh + 1 },
      .ret (T.proc np).pid)
  else
    let T₁ := T.free (T.thread (slot0 np)).kstack.toList
    let T₂ := T₁.setProc np fun q => { q with pgdir := .null, state := .UNUSED }
    (T₂.setThread (slot0 np) fun th => { th with kstack := none, state := .UNUSED_T }, .leak (-1))

/-- `kthread_create`; the id returned is that of slot `t_num - 1`. -/
def kthreadCreate (ok : Bool) : Table × Out :=
  let T₁ := T.allocthread me.1 false ok
  if ok then
    let n := (T₁.proc me.1).tNum - 1
    (T₁, .ret (if h : n < NTHREADS then (T₁.thread (me.1, ⟨n, h⟩)).tid else 0))
  else (T₁, .leak 0)

/-! ## Sleeping and waiting -/

/-- `sleep(chan, ...)` up to `sched`: go on with `fs` after `sleep` returned. -/
def sleep (chan : Chan) (fs : List Frame) : Table × Out :=
  (T.setThread me fun th => { th with chan := chan }, .sched .SLEEPING (.sleepBack :: fs))

def zombieChild (p : ProcId) : Option ProcId :=
  (List.finRange NPROC).find? fun q =>
    decide ((T.proc q).parent = .proc p) && (T.proc q).state == .ZOMBIE

def haveKids (p : ProcId) : Bool :=
  (List.finRange NPROC).any fun q => decide ((T.proc q).parent = .proc p)

/-- The kernel stacks `wait` frees: of the ZOMBIE_T slots below `t_num`. -/
def zombieStacks (q : ProcId) : List ℕ :=
  (List.finRange NTHREADS).flatMap fun i =>
    if T.below (q, i) && (T.thread (q, i)).state == .ZOMBIE_T then
      (T.thread (q, i)).kstack.toList else []

/-- `wait` on the child `q`: free it and return its pid.  The pointer `q->pgdir` stays. -/
def reap (p q : ProcId) (pgdir : ℕ) : Table :=
  let T₁ := T.free (T.zombieStacks q ++ [pgdir])
  let T₂ := T₁.setProc q fun r => { r with pid := 0, parent := .null, state := .UNUSED }
  { T₂.mapThread fun t th =>
      if t.1 = q ∧ T.below t ∧ th.state = .ZOMBIE_T then
        { th with kstack := none, tid := 0, killed := false, state := .UNUSED_T }
      else th with
    reaped := ⟨p, q, (T.proc q).pid⟩ :: T.reaped }

def wait : Table × Out :=
  match T.zombieChild me.1 with
  | some q =>
    match (T.proc q).pgdir with
    | .null => (T, .panic .freevm)
    | .page n => (T.reap me.1 q n, .ret (T.proc q).pid)
    | .wild => (T, .panic .freevm)
  | none =>
    if !T.haveKids me.1 || (T.thread me).killed then (T, .ret (-1))
    else T.sleep me (.proc me.1) [.crit .wait]

/-- `kthread_join` up to its loop: the last slot with the id. -/
def findTid (p : ProcId) (tid : ℤ) : Option (Fin NTHREADS) :=
  ((List.finRange NTHREADS).filter fun i => T.below (p, i) && (T.thread (p, i)).tid == tid).getLast?

def kthreadJoin (tid : ℤ) : Table × Out :=
  match T.findTid me.1 tid with
  | none => (T, .leak (-1))
  | some i => (T, .goto [.crit (.joinLoop (me.1, i))])

/-- One pass of the loop of `kthread_join`. -/
def joinLoop (me t : Slot) : Table × Out :=
  match (T.thread t).state with
  | .ZOMBIE_T => (T, .ret 0)
  | .UNUSED_T => (T, .spin)
  | _ => T.sleep me (.thread t) [.crit (.joinLoop t)]

/-! ## Exiting and killing -/

def kill (pid : ℤ) : Table × Out :=
  match (List.finRange NPROC).find? fun p => (T.proc p).pid == pid with
  | none => (T, .ret (-1))
  | some p => ((T.setProc p fun q => { q with killed := true }).killThreads p, .ret 0)

def exit : Table × Out :=
  if (T.thread me).killed then (T, .goto [.crit .exitThread]) else (T.killThreads me.1, .ret 0)

def exitThread : Table × Out :=
  let runningT := (T.running me.1).length
  if runningT = 0 then (T, .panic .noRunningThread)
  else
    let T₁ := if runningT = 2 then T.wakeup1 (.proc me.1) else T
    if runningT = 1 then (T₁, .goto [.release, .exitProcess])
    else (T₁.wakeup1 (.thread me), .sched .ZOMBIE_T [])

def reparent (p : ProcId) : Table :=
  { T with proc := fun q =>
      if (T.proc q).parent = .proc p then { T.proc q with parent := .proc T.initproc } else
        T.proc q }

/-- The threads that `exit_process` wakes: those of the parent in `wait`, and those of init if it
gets a ZOMBIE child. -/
def exitWakes (p : ProcId) : Table :=
  let T₁ := T.wakeup1 (T.proc p).parent.chan
  if (T.zombieChild p).isSome then T₁.wakeup1 (.proc T.initproc) else T₁

/-- `exit_process` from its second half on. -/
def exitProcess : Table × Out :=
  (((T.exitWakes me.1).reparent me.1).setProc me.1 fun q =>
    { q with killed := true, state := .ZOMBIE },
    .sched .ZOMBIE_T [.zombieExit])

/-- The loop of `exec` that wakes the other threads. -/
def execWake : Table :=
  T.mapThread fun t th => if t.1 = me.1 ∧ T.below t ∧ t ≠ me then th.wake else th

def crit (ok : Bool) : Sec → Table × Out
  | .allocproc => T.allocproc ok
  | .fork np => T.fork me np ok
  | .growproc => (T, .ret (if ok then 0 else -1))
  | .wait => T.wait me
  | .kill pid => T.kill pid
  | .exit => T.exit me
  | .exitThread => T.exitThread me
  | .exitProcess => T.exitProcess me
  | .kthreadCreate => T.kthreadCreate me ok
  | .kthreadJoin tid => T.kthreadJoin me tid
  | .joinLoop t => T.joinLoop me t
  | .execWake => (T.execWake me, .goto [.release, .execCheck 0 false])
  | .yield => (T, .sched .RUNNABLE [.release])
  | .sleep chan => T.sleep me chan [.release]
  | .wakeup chan => (T.wakeup1 chan, .ret 0)

end Table

end Xv6.Ptable
