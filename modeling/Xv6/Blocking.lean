import Xv6.Console
import Xv6.Pipe.Pipe
import Xv6.Ptable.Exclusive

/-!
# Killed threads in blocking calls

The loops of the calls in which a thread may wait without bound for something that user code does:
`wait`, `kthread_join`, `sys_sleep`, `consoleread`, `piperead` and `pipewrite`.  `round` is one
evaluation of such a loop, after `sleep` has returned, up to the next call of `sleep` or the end of
the loop.

`wait`, `piperead` and `pipewrite` test the `killed` flag of the thread, `sys_sleep` and
`consoleread` that of the process, and `kthread_join` none; `exit` and `exec` set only those of the
threads.
-/

namespace Xv6.Blocking

open Ptable Pipes Console Table

/-- What an evaluation of a loop comes to. -/
inductive Round where
  | sleep
  /-- The loop runs on without an end. -/
  | spin
  /-- The loop ends, or the kernel panics in it. -/
  | out
  deriving DecidableEq

/-- The loops, with what they read besides the table. -/
inductive Loop where
  | wait
  | kthreadJoin (t : Slot)
  | sysSleep (ticks ticks0 n : UInt32)
  | consoleread (target n : ℕ) (input : Input) (dst : List UInt8)
  | piperead (p : Pipe)
  /-- With the bytes that are still to be written. -/
  | pipewrite (p : Pipe) (addr : List UInt8)

def ofOut : Out → Round
  | .sched .SLEEPING _ => .sleep
  | .spin => .spin
  | _ => .out

/-- `while (ticks - ticks0 < n)` of `sys_sleep`; `killed` is `myproc()->killed`. -/
def sysSleep (killed : Bool) (ticks ticks0 n : UInt32) : Round :=
  if ticks - ticks0 < n then if killed then .out else .sleep else .out

/-- `while(p->nread == p->nwrite && p->writeopen)` of `piperead`; `killed` is
`mythread()->killed`. -/
def piperead (killed : Bool) (p : Pipe) : Round :=
  if p.empty ∧ p.writeopen then if killed then .out else .sleep else .out

/-- The loops of `pipewrite`; `killed` is `mythread()->killed`. -/
def pipewrite (killed : Bool) : Pipe → List UInt8 → Round
  | _, [] => .out
  | p, x :: addr =>
    if p.full then if p.readopen = false ∨ killed then .out else .sleep
    else pipewrite killed (p.store x) addr

def round (T : Table) (me : Slot) : Loop → Round
  | .wait => ofOut (T.wait me).2
  | .kthreadJoin t => ofOut (T.joinLoop me t).2
  | .sysSleep ticks ticks0 n => sysSleep (T.proc me.1).killed ticks ticks0 n
  | .consoleread target n input dst =>
    if (Console.consoleread (T.proc me.1).killed target n input dst).ret.isSome then .out else
      .sleep
  | .piperead p => piperead (T.thread me).killed p
  | .pipewrite p addr => pipewrite (T.thread me).killed p addr

variable {T : Table} {me : Slot}

/-- What a killed thread of process `p` needs, besides its own flag, to leave the loop. -/
def Loop.Leaves (T : Table) (p : ProcId) : Loop → Prop
  | .wait | .piperead _ | .pipewrite _ _ => True
  | .kthreadJoin t => (T.thread t).state = .ZOMBIE_T
  | .sysSleep ticks ticks0 n => (T.proc p).killed ∨ n ≤ ticks - ticks0
  | .consoleread _ n input _ => (T.proc p).killed ∨ input.Enough n

theorem wait_of_killed (h : (T.thread me).killed) : ofOut (T.wait me).2 = .out := by
  unfold wait
  split
  · split <;> rfl
  · rw [h, Bool.or_true, if_pos rfl]
    rfl

theorem sysSleep_out_iff (killed : Bool) (ticks ticks0 n : UInt32) :
    sysSleep killed ticks ticks0 n = .out ↔ killed ∨ n ≤ ticks - ticks0 := by
  unfold sysSleep
  split_ifs with hlt hk
  · simp [hk]
  · simpa [hk] using hlt
  · simpa using .inr (UInt32.not_lt.1 hlt)

theorem piperead_of_killed (p : Pipe) : piperead true p = .out := by
  rw [piperead, if_pos rfl, ite_self]

theorem pipewrite_of_killed (p : Pipe) (addr : List UInt8) : pipewrite true p addr = .out := by
  induction addr generalizing p with
  | nil => rfl
  | cons x addr ih =>
    have hleave : p.readopen = false ∨ true := .inr rfl
    rw [pipewrite, if_pos hleave, ih, ite_self]

/-! ## The loops of the pipe -/

section Pipe

variable {X : Type} [DecidableEq X] {s s' : Pipes.State X} {t : X}

theorem goto_self (s : Pipes.State X) (t : X) (pc : Pc) :
    ((s.goto t pc).thread t).pc = pc ∧ ((s.goto t pc).thread t).killed = (s.thread t).killed := by
  simp [Pipes.State.goto]

theorem piperead_go {n : ℤ} (h : (s.thread t).pc = .rTest n) (x : UInt8) :
    ∃ pc, s.go t x = some (s.goto t pc) ∧
      (pc = .rSleep n ↔ piperead (s.thread t).killed s.pipe = .sleep) := by
  simp only [Pipes.State.go, h, piperead]
  by_cases hwait : s.pipe.empty ∧ s.pipe.writeopen
  · cases hk : (s.thread t).killed with
    | true => exact ⟨.release, by simp [hwait], by simp [hwait]⟩
    | false => exact ⟨.rSleep n, by simp [hwait], by simp [hwait]⟩
  · exact ⟨.rCopy 0 n, if_neg hwait, by simp [hwait]⟩

/-- A thread takes steps on its own. -/
def Steps (t : X) : Pipes.State X → Pipes.State X → Prop := Relation.ReflTransGen fun s s' => ∃ x,
    s.go t x = some s'

/-- `pipewrite`, as steps of the threads on a pipe: up to its `sleep`, its last `wakeup` or its
failure. -/
theorem pipewrite_go {i : ℕ} {n : ℤ} {b : Bool} (addr : List UInt8)
    (h : (s.thread t).pc = .wTop i n b) (hlen : (i : ℤ) + addr.length = n) : ∃ s', Steps t s s' ∧
      (((s'.thread t).pc = .wLast ∨ (s'.thread t).pc = .release) ∧
      pipewrite (s.thread t).killed s.pipe addr = .out ∨ (∃ j, (s'.thread t).pc = .wFull j n) ∧
      pipewrite (s.thread t).killed s.pipe addr = .sleep) := by
  induction addr generalizing s i b with
  | nil =>
    have hend : ¬ (i : ℤ) < n := by
      rw [← hlen]
      simp
    have hgo : s.go t 0 = some (s.goto t .wLast) := by simp only [Pipes.State.go, h, if_neg hend]
    exact ⟨_, .single ⟨0, hgo⟩, .inl ⟨.inl (goto_self s t _).1, rfl⟩⟩
  | cons x addr ih =>
    have hmore : (i : ℤ) < n := by
      rw [← hlen, List.length_cons]
      omega
    by_cases hfull : s.pipe.full
    · by_cases hleave : s.pipe.readopen = false ∨ (s.thread t).killed
      · have hgo : s.go t x = some (s.goto t .release) := by
          simp only [Pipes.State.go, h, if_pos hmore, if_pos hfull, if_pos hleave]
        refine ⟨_, .single ⟨x, hgo⟩, .inl ⟨.inr (goto_self s t _).1, ?_⟩⟩
        rw [pipewrite, if_pos hfull, if_pos hleave]
      · have hgo : s.go t x = some (s.goto t (.wFull i n)) := by
          simp only [Pipes.State.go, h, if_pos hmore, if_pos hfull, if_neg hleave]
        refine ⟨_, .single ⟨x, hgo⟩, .inr ⟨⟨i, (goto_self s t _).1⟩, ?_⟩⟩
        rw [pipewrite, if_pos hfull, if_neg hleave]
    · -- the byte is stored, and the loop goes on with the next
      have hgo : s.go t x = some { s.goto t (.wTop (i + 1) n true) with
          pipe := s.pipe.store x, stored := s.stored ++ [x] } := by
        simp only [Pipes.State.go, h, if_pos hmore, if_neg hfull]
      have hlen' : ((i + 1 : ℕ) : ℤ) + addr.length = n := by
        rw [List.length_cons] at hlen
        omega
      obtain ⟨s', hsteps, hs'⟩ := @ih { s.goto t (.wTop (i + 1) n true) with
        pipe := s.pipe.store x, stored :=
        s.stored ++ [x] } (i + 1) true (goto_self s t (.wTop (i + 1) n true)).1 hlen'
      refine ⟨s', .head ⟨x, hgo⟩ hsteps, ?_⟩
      rw [pipewrite, if_neg hfull]
      rwa [(goto_self s t (.wTop (i + 1) n true)).2] at hs'

end Pipe

/-! ## Killed threads -/

theorem joinLoop_out_iff (t : Slot) : ofOut (T.joinLoop me t).2 = .out ↔
    (T.thread t).state = .ZOMBIE_T := by
  unfold joinLoop
  split
  · simp_all [ofOut]
  · simp_all [ofOut]
  · simp_all [ofOut, sleep]

theorem round_out_iff {loop : Loop} (hkilled : (T.thread me).killed) :
    round T me loop = .out ↔ loop.Leaves T me.1 := by
  cases loop with
  | wait => exact iff_of_true (wait_of_killed hkilled) trivial
  | kthreadJoin t => exact joinLoop_out_iff t
  | sysSleep ticks ticks0 n => exact sysSleep_out_iff ..
  | consoleread target n input dst =>
    rw [round, Loop.Leaves, ← consoleread_isSome _ target n input dst]
    split_ifs with h <;> simp [h]
  | piperead p => exact iff_of_true (by rw [round, hkilled, piperead_of_killed]) trivial
  | pipewrite p addr => exact iff_of_true (by rw [round, hkilled, pipewrite_of_killed]) trivial

theorem Loop.leaves_of_killed {loop : Loop} {p : ProcId} (hproc : (T.proc p).killed)
    (hjoin : ∀ t, loop ≠ .kthreadJoin t) : loop.Leaves T p := by
  cases loop with
  | kthreadJoin t => exact absurd rfl (hjoin t)
  | sysSleep | consoleread => exact .inl hproc
  | wait | piperead | pipewrite => trivial

theorem kill_flags {pid : ℤ} {p : ProcId}
    (hp : (List.finRange NPROC).find? (fun q => (T.proc q).pid == pid) = some p) {i : Fin NTHREADS}
    (hi : T.below (p, i)) : ((T.kill pid).1.thread (p, i)).killed ∧
    ((T.kill pid).1.proc p).killed := by
  have hbelow : (T.setProc p fun q => { q with killed := true }).below (p, i) := by
    simpa [below, setProc] using hi
  simp only [kill, hp]
  refine ⟨?_, by simp [killThreads, mapThread, setProc]⟩
  simp [killThreads, mapThread, hbelow]

theorem fault_flags {p : ProcId} {i : Fin NTHREADS} (hi : T.below (p, i)) :
    ((T.fault p).thread (p, i)).killed ∧ ((T.fault p).proc p).killed := by
  simp [fault, mapThread, setProc, hi]

/-- A killed thread leaves the loop always in `wait`, `piperead` and `pipewrite`; exactly if the
flag of its process is set too, or the loop has what it waits for, in `sys_sleep` and `consoleread`;
exactly if the thread to be joined has ended, in `kthread_join`.  After `kill` or a fault it leaves
every loop but that of `kthread_join`. -/
theorem killed_leaves (T : Table) (p : ProcId) (i : Fin NTHREADS) (loop : Loop) :
    ((T.thread (p, i)).killed → (round T (p, i) loop = .out ↔ loop.Leaves T p)) ∧
    (T.below (p, i) → (∀ t, loop ≠ .kthreadJoin t) →
      (∀ pid, (List.finRange NPROC).find? (fun q => (T.proc q).pid == pid) = some p →
        round (T.kill pid).1 (p, i) loop = .out) ∧ round (T.fault p) (p, i) loop = .out) := by
  refine ⟨round_out_iff, fun hi hjoin => ⟨fun pid hp => ?_, ?_⟩⟩
  · obtain ⟨hthread, hproc⟩ := kill_flags hp hi
    exact (round_out_iff hthread).2 (Loop.leaves_of_killed hproc hjoin)
  · obtain ⟨hthread, hproc⟩ := fault_flags hi
    exact (round_out_iff hthread).2 (Loop.leaves_of_killed hproc hjoin)

/-- `sys_sleep` after `kill` of the first process. -/
theorem killed_leaves_sysSleep :
    round ((userinit 0).kill 1).1 (initSlot 0) (.sysSleep 0 0 10) = .out :=
  ((killed_leaves (userinit 0) _ (initSlot 0).2 (.sysSleep 0 0 10)).2 rfl (fun _ h => nomatch h)).1
  1
    (by decide +kernel)

/-! ## After `exit` of another thread -/

/-- The second thread of the first process calls `exit`. -/
def secondExits : List (Fin 2 × Ptable.Act) :=
  startUser 0 ++ callOn 0 .kthreadCreate (List.replicate 6 true) ++ startUser 1 ++ callOn 1 .exit
    (List.replicate 4 true)

def noInput : Input := ⟨fun _ => 0, 0, 0, 0⟩

/-- The first thread is killed, and goes back to sleep in `sys_sleep`, in `consoleread` with no
input, and in `kthread_join` of the second. -/
theorem killed_sleeps_again :
    ∃ s : Kernel (Fin 2), (kernelSys (Fin 2)).Reachable s ∧ (s.table.thread (initSlot 0)).killed ∧
      round s.table (initSlot 0) (.sysSleep 0 0 10) = .sleep ∧
      round s.table (initSlot 0) (.consoleread 1 1 noInput []) = .sleep ∧
      round s.table (initSlot 0) (.kthreadJoin (initSlot 1)) = .sleep :=
  Machine.Sys.exists_reachable secondExits (boot_init 0) (by decide +kernel)

end Xv6.Blocking
