import Xv6.Spinlock.Code

/-!
# The order of the spin locks

`sleep` and `wakeup` take `ptable.lock` inside other locks; inside it those of the page allocator,
the file table and the inode cache are taken.  Every path keeps this order, except those that note
an event.

`growproc` calls `allocuvm` with `ptable.lock`, and `allocuvm` prints a message when there is no
free page, so `cons.lock` is taken inside `ptable.lock` as well.
-/

namespace Xv6.Spin

open LockCode Code

def rank : Kind → Nat
  | .ptable => 1
  | .kmem | .ftable | .icache => 2
  | _ => 0

/-- The order holds while none of the events happens. -/
def order : Order Kind Event where
  rank := rank
  dispatch := .ptable
  never _ := true

/-! ## The functions keep the order

Each returns with the locks it was called with. -/

@[simp] theorem order_rank (k : Kind) : order.rank k = rank k := rfl

@[simp] theorem order_dispatch : order.dispatch = .ptable := rfl

@[simp] theorem order_never (e : Event) : order.never e := rfl

@[simp] theorem rank_ptable : rank .ptable = 1 := rfl

@[simp] theorem rank_inner : rank .kmem = 2 ∧ rank .ftable = 2 ∧ rank .icache = 2 := by decide

@[simp] theorem rank_outer : rank .cons = 0 ∧ rank .bcache = 0 ∧ rank .log = 0 ∧ rank .ide = 0 ∧
    rank .ticks = 0 ∧ rank .mutexes = 0 ∧ rank .pipe = 0 ∧ rank .sleeplock = 0 ∧
      rank .mutex = 0 := by
  decide

@[simp] theorem check_cprintf : cprintf.check order [] = .back [] := by simp [cprintf]

@[simp] theorem check_wakeup {H : List Kind} (h : ∀ k ∈ H, rank k < 1) :
    wakeup.check order H = .back H := check_acquire_release order h

@[simp] theorem check_sleep {lk : Kind} (h : rank lk < 1) :
    (sleep lk).check order [lk] = .back [lk] := by
  have hlk : lk ≠ .ptable := by rintro rfl; simp at h
  simp_all [sleep, hlk.symm]

section Inner

variable {H : List Kind} (h : ∀ k ∈ H, rank k < 2)

include h

@[simp] theorem check_inner : kalloc.check order H = .back H ∧ kfree.check order H = .back H ∧
    iget.check order H = .back H ∧ idup.check order H = .back H ∧
      filedup.check order H = .back H := by
  have hinner : ∀ k, rank k = 2 → (block [acquire k, release k]).check order H = .back H :=
    fun k hk =>
    check_acquire_release order fun j hj => (h j hj).trans_eq hk.symm
  simp [kalloc, kfree, iget, idup, filedup, hinner]

@[simp] theorem check_vm : mappages.check order H = .back H ∧ freevm.check order H = .back H ∧
    setupkvm.check order H = .back H ∧ copyuvm.check order H = .back H := by
  simp_all [mappages, walkpgdir, freevm, deallocuvm, setupkvm, copyuvm]

end Inner

@[simp] theorem check_sleeplock : acquiresleep.check order [] = .back [] ∧
    releasesleep.check order [] = .back [] ∧ holdingsleep.check order [] = .back [] := by
  simp [acquiresleep, releasesleep, holdingsleep]

@[simp] theorem check_bio : iderw.check order [] = .back [] ∧ bread.check order [] = .back [] ∧
    bwrite.check order [] = .back [] ∧ brelse.check order [] = .back [] := by
  simp [iderw, bread, bget, bwrite, brelse]

@[simp] theorem check_log : beginOp.check order [] = .back [] ∧
    logWrite.check order [] = .back [] ∧ endOp.check order [] = .back [] := by
  simp [beginOp, logWrite, endOp, commit, writeLog, writeHead, installTrans]

@[simp] theorem check_balloc : readsb.check order [] = .back [] ∧
    balloc.check order [] = .back [] ∧ bfree.check order [] = .back [] := by
  simp [readsb, balloc, bzero, bfree]

@[simp] theorem check_inode : ialloc.check order [] = .back [] ∧ ilock.check order [] = .back [] ∧
    iunlock.check order [] = .back [] ∧ iupdate.check order [] = .back [] ∧
    iput.check order [] = .back [] ∧ iunlockput.check order [] = .back [] ∧
    bmap.check order [] = .back [] := by
  simp [ialloc, ilock, iunlock, iupdate, iput, itrunc, iunlockput, bmap]

@[simp] theorem check_namex : readi.check order [] = .back [] ∧ writei.check order [] = .back [] ∧
    dirlookup.check order [] = .back [] ∧ dirlink.check order [] = .back [] ∧
    namex.check order [] = .back [] := by
  simp [readi, consoleread, writei, consolewrite, dirlookup, dirlink, namex]

@[simp] theorem check_file : pipewrite.check order [] = .back [] ∧
    piperead.check order [] = .back [] ∧ filealloc.check order [] = .back [] ∧
    fileclose.check order [] = .back [] := by
  simp [pipewrite, piperead, filealloc, fileclose, pipeclose]

@[simp] theorem check_proc : allocproc.check order [] = .back [] ∧
    (allocuvm skip).check order [] = .back [] ∧ growproc.check order [] = .back [] ∧
    fork.check order [] = .back [] := by
  simp [allocproc, allocthread, allocuvm, deallocuvm, growproc, fork]

@[simp] theorem check_exitThread {H : List Kind} (h : H = [.ptable] ∨ H = []) :
    exitThread.check order H = .ends := by
  rcases h with rfl | rfl <;> simp [exitThread, exitProcess]

@[simp] theorem check_exit : exit.check order [] = .back [] ∧ wait.check order [] = .back [] ∧
    kthreadCreate.check order [] = .back [] ∧ kthreadJoin.check order [] = .back [] := by
  simp [exit, wait, kthreadCreate, allocthread, kthreadJoin, sleepPtable]

@[simp] theorem check_sysfile : exec.check order [] = .back [] ∧
    sysLink.check order [] = .back [] ∧ sysUnlink.check order [] = .back [] ∧
    create.check order [] = .back [] ∧ sysOpen.check order [] = .back [] ∧
    sysPipe.check order [] = .back [] := by
  simp [exec, loaduvm, sysLink, sysUnlink, create, sysOpen, sysPipe, pipealloc]

@[simp] theorem check_syscall : syscall.check order [] = .back [] := by
  simp [syscall, filestat, fileread, filewrite, kill, sysChdir, sysSleep, sysUptime, sysMkdir,
    kthreadExit, kthreadMutexAlloc, kthreadMutexDealloc, kthreadMutexLock, kthreadMutexUnlock,
    acquireCopy]

@[simp] theorem check_irq : irq.check order [] = .back [] := by
  simp [irq, timer, ideintr, consoleintr, procdump]

@[simp] theorem check_trap : trap.check order [] = .back [] := by
  simp [trap, yield]

theorem check_kerneltrap : kerneltrap.check order [] = .back [] := by
  simp [kerneltrap, yield]

/-- A new thread starts with `ptable.lock`, and enters user mode without a lock. -/
theorem check_entry : (block [forkret, loop trap]).check order [.ptable] = .back [] := by
  simp [forkret, iinit, initlog, recoverFromLog, readHead, writeHead, installTrans, initsleeplock]

theorem check_mpmain : mpmain.check order [] = .back [] := by
  simp [mpmain, scheduler]

theorem check_main : main.check order [] = .back [] := by
  simp [main, check_mpmain, kinit2, userinit, inituvm]

theorem check_fault : (block [cprintf, stop]).check order [] = .ends := by simp

theorem kernel_entry : kernel.entry = block [forkret, loop trap] := rfl

theorem kernel_handler : kernel.handler = kerneltrap := rfl

theorem kernel_fault : kernel.fault = block [cprintf, stop] := rfl

theorem kernel_checked : kernel.Checked order where
  dispatch := rfl
  entry := by
    rw [kernel_entry, order_dispatch]
    exact Fits.single check_entry
  handler := by rw [kernel_handler, check_kerneltrap]
  fault := by
    rw [kernel_fault]
    exact Fits.of_ends check_fault

theorem fits_start {C : Type} [DecidableEq C] (c₀ c : C) : Fits order [start c₀ c] [] := by
  by_cases hc : c = c₀
  · rw [start, if_pos hc]
    exact Fits.single check_main
  · rw [start, if_neg hc]
    exact Fits.single check_mpmain

/-! ## Runs -/

/-- Steps in which none of the events happens, and no processor that holds a lock has an
exception. -/
abbrev Orderly {C : Type} (s : Cpus C Lock Kind Event) (i : Act C Lock) : Prop := spares order s i

/-- The spin locks are taken in an order without cycles, and no processors spin in a circle. -/
theorem lock_order {C : Type} [DecidableEq C] (c₀ : C) :
    (∀ k, ¬ Relation.TransGen (Nested kernel (start c₀) Orderly) k k) ∧
      ∀ s, (sys kernel (start c₀)).ReachableVia Orderly s → ¬ Deadlock s :=
  ⟨not_transGen_nested kernel_checked (fits_start c₀),
    fun _ hs => not_deadlock kernel_checked (fits_start c₀) hs⟩

section

variable (c : Bool)

def takes (l : Lock) : List (Act Bool Lock) := [.lock c l, .take c]

def gives (l : Lock) : List (Act Bool Lock) := [.lock c l]

def picks (bs : List Bool) : List (Act Bool Lock) := bs.map (.run c)

/-- Take the `n`-th of several branches. -/
def nth (n : Nat) : List (Act Bool Lock) := picks c (List.replicate n false ++ [true])

/-- `kalloc`, with the lock. -/
def runKalloc : List (Act Bool Lock) := picks c [true] ++ takes c .kmem ++ gives c .kmem

def runAllocproc : List (Act Bool Lock) :=
  takes c .ptable ++ picks c [true] ++ runKalloc c ++ gives c .ptable

/-- `setupkvm`; what `mappages` does needs no page. -/
def runSetupkvm : List (Act Bool Lock) := runKalloc c ++ picks c [true, false, false]

/-- `mpmain`, until the scheduler runs a thread, and that one's `forkret`. -/
def runMpmain : List (Act Bool Lock) :=
  picks c [true] ++ takes c .cons ++ gives c .cons ++ picks c [true] ++ takes c .ptable ++ picks c
    [true] ++
    [.resume c 0] ++ gives c .ptable ++ picks c [false]

def runMain : List (Act Bool Lock) :=
  picks c [false] ++ runAllocproc c ++ takes c .ptable ++ runSetupkvm c ++ runKalloc c ++
    picks c [false, false] ++ takes c .icache ++ gives c .icache ++ picks c [true] ++ gives c
      .ptable ++
    runMpmain c

/-- System call `n` of the table, until its own code. -/
def enters (n : Nat) : List (Act Bool Lock) := picks c [true, true, false] ++ nth c n

def runFork : List (Act Bool Lock) :=
  enters c 1 ++ runAllocproc c ++ picks c [false] ++ takes c .ptable ++ picks c [false] ++
    runSetupkvm c ++
    picks c [false, false, true, false] ++ takes c .icache ++ gives c .icache ++ picks c [true] ++
    gives c .ptable ++ picks c [false]

/-- `read` from the console, until `consoleread` has `cons.lock`. -/
def runRead : List (Act Bool Lock) :=
  enters c 5 ++ picks c [false, false] ++ takes c (.sleeplock 0) ++ picks c [false] ++
    gives c (.sleeplock 0) ++ picks c [false, false, true] ++ takes c (.sleeplock 0) ++
    gives c (.sleeplock 0) ++ takes c (.sleeplock 0) ++ takes c .ptable ++ gives c .ptable ++
    gives c (.sleeplock 0) ++ takes c .cons

/-- `sbrk`, until `growproc` has `ptable.lock`. -/
def runGrow : List (Act Bool Lock) := enters c 12 ++ takes c .ptable

end

def twoProcesses : List (Act Bool Lock) := runMain false ++ runFork false ++ runMpmain true

/-- Both processes grow, and processor 1 spins for `ptable.lock`. -/
def bothGrow : List (Act Bool Lock) :=
  twoProcesses ++ runGrow false ++ enters true 12 ++ [.lock true .ptable]

theorem lock_order_bothGrow :
    ∃ s, (sys kernel (start false)).ReachableVia Orderly s ∧ Spins s true false ∧ ¬ Deadlock s := by
  obtain ⟨s, hreach, hspin⟩ : ∃ s, (sys kernel (start false)).ReachableVia Orderly s ∧
      s.want true = some .ptable ∧ s.owner .ptable = some false :=
    Machine.Sys.exists_reachableVia bothGrow rfl (by decide +kernel)
  exact ⟨s, hreach, ⟨.ptable, hspin⟩, (lock_order false).2 s hreach⟩

/-- Processor 1 waits for input with `cons.lock`, and `sleep` asks for `ptable.lock`; processor 0
has `ptable.lock` and finds no page for `sbrk`, and `cprintf` asks for `cons.lock`. -/
def sbrkAndRead : List (Act Bool Lock) :=
  twoProcesses ++ runRead true ++ runGrow false ++ picks false [false, true, false, false, true,
    true] ++
    runKalloc false ++ picks false [true] ++ [.lock false .cons] ++ picks true [true] ++
      [.lock true .ptable]

theorem lock_order_cyclic :
    (∃ k, Relation.TransGen (Nested kernel (start false) fun _ _ => True) k k) ∧
      ∃ s, (sys kernel (start false)).Reachable s ∧ Deadlock s := by
  obtain ⟨s, hreach, hw₀, hcons, hw₁, hptable⟩ : ∃ s, (sys kernel (start false)).Reachable s ∧
      s.want false = some .cons ∧ s.owner .cons = some true ∧ s.want true = some .ptable ∧
      s.owner .ptable = some false :=
    Machine.Sys.exists_reachable sbrkAndRead rfl (by decide +kernel)
  have hinner : Nested kernel (start false) (fun _ _ => True) .ptable .cons :=
    ⟨s, hreach, false, .ptable, .cons, hptable, hw₀, rfl, rfl⟩
  have houter : Nested kernel (start false) (fun _ _ => True) .cons .ptable :=
    ⟨s, hreach, true, .cons, .ptable, hcons, hw₁, rfl, rfl⟩
  have hspin₀ : Spins s false true := ⟨.cons, hw₀, hcons⟩
  have hspin₁ : Spins s true false := ⟨.ptable, hw₁, hptable⟩
  exact ⟨⟨.ptable, .tail (.single hinner) houter⟩, s, hreach, false, .tail (.single hspin₀) hspin₁⟩

end Xv6.Spin
