import Xv6.Lib.LockCode

/-!
# What the kernel does with its spin locks

The lock operations of each function, in the order of its code.  Where the code looks at data,
either branch may be taken, and a loop takes any number of rounds.

`panic` needs no mention: a processor may stop anywhere.  Four branches note an event: where
`growproc`, `fork` and `kthread_create` find no free page, and where `kthread_join` finds no thread.
-/

namespace Xv6.Spin

open LockCode Code

/-- The spin locks: one of each kind, or one for each pipe, sleep lock or mutex. -/
inductive Kind where
  | ptable | cons | kmem | ftable | icache | bcache | log | ide | ticks | mutexes | pipe | sleeplock | mutex
  deriving DecidableEq

inductive Lock where
  | ptable | cons | kmem | ftable | icache | bcache | log | ide | ticks | mutexes
  | pipe (n : Nat)
  /-- The spin lock inside a sleep lock. -/
  | sleeplock (n : Nat)
  /-- The spin lock of a mutex, or of a copy of one. -/
  | mutex (n : Nat)
  deriving DecidableEq

def Lock.kind : Lock → Kind
  | ptable => .ptable
  | cons => .cons
  | kmem => .kmem
  | ftable => .ftable
  | icache => .icache
  | bcache => .bcache
  | log => .log
  | ide => .ide
  | ticks => .ticks
  | mutexes => .mutexes
  | pipe _ => .pipe
  | sleeplock _ => .sleeplock
  | mutex _ => .mutex

inductive Event where
  /-- `kmem.freelist` is empty when `growproc` asks for a page. -/
  | growprocNoPage
  /-- `kmem.freelist` is empty when `copyuvm` asks for a page, in `fork`. -/
  | forkNoPage
  /-- `kmem.freelist` is empty when `kthread_create` asks for a stack. -/
  | createNoPage
  /-- No thread of the process has the id that `kthread_join` is called with. -/
  | joinNoThread

abbrev Path := Code Kind Event

/-! ## console.c -/

/-- `cons.locking` is off before `consoleinit` and after a panic. -/
def cprintf : Path := either (block [acquire .cons, release .cons]) skip

/-! ## kalloc.c -/

/-- `kmem.use_lock` is off before `kinit2`. -/
def kalloc : Path := either (block [acquire .kmem, release .kmem]) skip

def kfree : Path := either (block [acquire .kmem, release .kmem]) skip

/-! ## proc.c: sleeping and waking -/

def wakeup : Path := block [acquire .ptable, release .ptable]

/-- `sleep` with a lock other than `ptable.lock`. -/
def sleep (lk : Kind) : Path :=
  block [acquire .ptable, release lk, suspend, release .ptable, acquire lk]

/-- `sleep` with `ptable.lock`. -/
def sleepPtable : Path := suspend

def yield : Path := block [acquire .ptable, suspend, release .ptable]

/-- Every sleeper of the process table is shown with `cprintf`. -/
def procdump : Path := loop cprintf

/-! ## sleeplock.c -/

def initsleeplock : Path := reset .sleeplock

def acquiresleep : Path := block [acquire .sleeplock, loop (sleep .sleeplock), release .sleeplock]

def releasesleep : Path := block [acquire .sleeplock, wakeup, release .sleeplock]

def holdingsleep : Path := block [acquire .sleeplock, release .sleeplock]

/-! ## ide.c -/

def ideintr : Path := block [acquire .ide, either (release .ide) (block [wakeup, release .ide])]

def iderw : Path := block [holdingsleep, acquire .ide, loop (sleep .ide), release .ide]

/-! ## bio.c -/

def bget : Path := block [acquire .bcache, release .bcache, acquiresleep]

def bread : Path := block [bget, either iderw skip]

def bwrite : Path := block [holdingsleep, iderw]

def brelse : Path := block [holdingsleep, releasesleep, acquire .bcache, release .bcache]

/-! ## log.c -/

def beginOp : Path := block [acquire .log, loop (sleep .log), release .log]

def writeLog : Path := loop (block [bread, bread, bwrite, brelse, brelse])

def installTrans : Path := loop (block [bread, bread, bwrite, brelse, brelse])

def readHead : Path := block [bread, brelse]

def writeHead : Path := block [bread, bwrite, brelse]

def commit : Path := either (block [writeLog, writeHead, installTrans, writeHead]) skip

def endOp : Path :=
  block [acquire .log, either skip wakeup, release .log,
    either (block [commit, acquire .log, wakeup, release .log]) skip]

def logWrite : Path := block [acquire .log, release .log]

def recoverFromLog : Path := block [readHead, installTrans, writeHead]

/-! ## fs.c -/

def readsb : Path := block [bread, brelse]

def initlog : Path := block [reset .log, readsb, recoverFromLog]

def bzero : Path := block [bread, logWrite, brelse]

def balloc : Path := block [loop (block [bread, brelse]), bread, logWrite, brelse, bzero]

def bfree : Path := block [readsb, bread, logWrite, brelse]

def iinit : Path := block [reset .icache, loop initsleeplock, readsb, cprintf]

def iget : Path := block [acquire .icache, release .icache]

def idup : Path := block [acquire .icache, release .icache]

def ialloc : Path := block [loop (block [bread, brelse]), bread, logWrite, brelse, iget]

def iupdate : Path := block [bread, logWrite, brelse]

def ilock : Path := block [acquiresleep, either (block [bread, brelse]) skip]

def iunlock : Path := block [holdingsleep, releasesleep]

def itrunc : Path :=
  block [loop bfree, either (block [bread, loop bfree, brelse, bfree]) skip, iupdate]

def iput : Path :=
  block [acquiresleep,
    either (block [acquire .icache, release .icache, either (block [itrunc, iupdate]) skip]) skip,
    releasesleep, acquire .icache, release .icache]

def iunlockput : Path := block [iunlock, iput]

def bmap : Path :=
  oneOf [skip, balloc,
    block [either balloc skip, bread, either (block [balloc, logWrite]) skip, brelse]]

/-- `consoleread`, of console.c: both returns release the lock and lock the inode again. -/
def consoleread : Path := block [iunlock, acquire .cons, loop (sleep .cons), release .cons, ilock]

def consolewrite : Path := block [iunlock, acquire .cons, release .cons, ilock]

/-- A device is read through `devsw`; the console is the only one. -/
def readi : Path := oneOf [skip, consoleread, loop (block [bmap, bread, brelse])]

def writei : Path :=
  oneOf [skip, consolewrite,
    block [loop (block [bmap, bread, logWrite, brelse]), either iupdate skip]]

def dirlookup : Path := block [loop readi, either iget skip]

def dirlink : Path := block [dirlookup, either iput (block [loop readi, writei])]

/-- The loop goes on over the elements of the path. -/
def namex : Path :=
  block [either iget idup, loop (block [ilock, dirlookup, iunlockput]),
    oneOf [skip, iput, block [ilock, iunlock], block [ilock, either dirlookup skip, iunlockput]]]

/-! ## pipe.c -/

def pipeclose : Path := block [acquire .pipe, wakeup, release .pipe, either kfree skip]

def pipewrite : Path :=
  block [acquire .pipe, loop (block [wakeup, sleep .pipe]),
    either (release .pipe) (block [wakeup, release .pipe])]

def piperead : Path :=
  block [acquire .pipe, loop (sleep .pipe), either (release .pipe) (block [wakeup, release .pipe])]

/-! ## file.c -/

def filealloc : Path := block [acquire .ftable, release .ftable]

def filedup : Path := block [acquire .ftable, release .ftable]

def fileclose : Path :=
  block [acquire .ftable, release .ftable, oneOf [skip, pipeclose, block [beginOp, iput, endOp]]]

def filestat : Path := either (block [ilock, iunlock]) skip

def fileread : Path := oneOf [skip, piperead, block [ilock, readi, iunlock]]

def filewrite : Path :=
  oneOf [skip, pipewrite, loop (block [beginOp, ilock, writei, iunlock, endOp])]

def pipealloc : Path :=
  block [filealloc, either filealloc skip, either (block [kalloc, reset .pipe]) skip,
    either skip (block [either kfree skip, either fileclose skip, either fileclose skip])]

/-! ## vm.c -/

/-- `walkpgdir` with `alloc` set. -/
def walkpgdir : Path := either kalloc skip

def mappages : Path := block [walkpgdir, loop walkpgdir]

def deallocuvm : Path := loop kfree

def freevm : Path := block [deallocuvm, loop kfree, kfree]

def setupkvm : Path := block [kalloc, either (block [loop mappages, either freevm skip]) skip]

def inituvm : Path := block [kalloc, mappages]

def loaduvm : Path := loop readi

/-- `noPage` comes before the call of `kalloc` that fails, here or in `mappages`. -/
def allocuvm (noPage : Path) : Path :=
  block [loop (block [kalloc, mappages]),
    oneOf [skip, block [noPage, kalloc, cprintf, deallocuvm],
      block [kalloc, noPage, mappages, cprintf, deallocuvm, kfree]]]

def copyuvm : Path :=
  block [setupkvm, either skip (block [loop (block [kalloc, mappages]),
    oneOf [skip, block [kalloc, freevm], block [kalloc, mappages, kfree, freevm]]])]

/-! ## proc.c -/

/-- `allocthread` asks for the kernel stack. -/
def allocthread : Path := kalloc

def allocproc : Path := block [acquire .ptable, either allocthread skip, release .ptable]

/-- The path of `namei("/")` has no elements, so `namex` only calls `iget`. -/
def userinit : Path :=
  block [allocproc, acquire .ptable, setupkvm, inituvm, iget, spawn, release .ptable]

def growproc : Path :=
  block [acquire .ptable, oneOf [skip, allocuvm (mark .growprocNoPage), deallocuvm],
    release .ptable]

/-- When `copyuvm` fails, `fork` returns without releasing `ptable.lock`. -/
def fork : Path :=
  block [allocproc, either skip (block [acquire .ptable,
    either (block [mark .forkNoPage, copyuvm, kfree])
      (block [copyuvm, loop filedup, idup, spawn, release .ptable])])]

def exitProcess : Path :=
  block [loop fileclose, beginOp, iput, endOp, acquire .ptable, retire]

/-- Called with `ptable.lock`, except by `exec`. -/
def exitThread : Path := either (block [release .ptable, exitProcess]) retire

def exit : Path := block [acquire .ptable, either exitThread (release .ptable)]

def wait : Path :=
  block [acquire .ptable, loop sleepPtable,
    either (block [freevm, loop kfree, release .ptable]) (release .ptable)]

def kill : Path := block [acquire .ptable, release .ptable]

/-- Without a stack, `kthread_create` returns without releasing `ptable.lock`. -/
def kthreadCreate : Path :=
  block [acquire .ptable,
    either (block [mark .createNoPage, allocthread]) (block [allocthread, spawn, release .ptable])]

def kthreadExit : Path := block [acquire .ptable, exitThread]

/-- Without the thread, `kthread_join` returns without releasing `ptable.lock`. -/
def kthreadJoin : Path :=
  block [acquire .ptable,
    either (block [mark .joinNoThread, cprintf]) (block [loop sleepPtable, release .ptable])]

/-- `acquire` on a copy of a mutex's lock.  The copy may say that it is held, as the mutex's lock
was. -/
def acquireCopy : Path := either (acquire .mutex) (block [cprintf, cprintf, stop])

def kthreadMutexAlloc : Path :=
  block [either (reset .mutexes) skip,
    either skip (block [acquire .mutexes, release .mutexes, reset .mutex, acquire .mutex,
      release .mutex,
      acquire .mutexes, release .mutexes])]

def kthreadMutexDealloc : Path :=
  either skip (block [acquireCopy, wakeup, release .mutex, acquire .mutexes, release .mutexes])

def kthreadMutexLock : Path :=
  either skip (block [acquireCopy, loop (sleep .mutex), release .mutex])

def kthreadMutexUnlock : Path := either skip (block [acquireCopy, wakeup, release .mutex])

/-- A new thread starts here, with the `ptable.lock` of its processor. -/
def forkret : Path := block [release .ptable, either (block [iinit, initlog]) skip]

def scheduler : Path := loop (block [acquire .ptable, loop resume, release .ptable])

/-! ## exec.c -/

/-- A killed caller enters `exit_thread` without `ptable.lock`. -/
def exec : Path :=
  block [either exitThread (loop (block [acquire .ptable, release .ptable])), beginOp, namex,
    either (block [endOp, cprintf])
      (block [ilock, readi, either setupkvm skip,
        loop (block [readi, either (allocuvm skip) skip, either loaduvm skip]),
        either (block [iunlockput, endOp, allocuvm skip, freevm])
          (block [either freevm skip, iunlockput, endOp])])]

/-! ## sysfile.c -/

def sysLink : Path :=
  block [beginOp, namex,
    either endOp (block [ilock, either (block [iunlockput, endOp])
      (block [iupdate, iunlock, namex,
        either (block [ilock, dirlink, iunlockput, iput, endOp])
          (block [either (block [ilock, either dirlink skip, iunlockput]) skip,
            ilock, iupdate, iunlockput, endOp])])])]

def sysUnlink : Path :=
  block [beginOp, namex,
    either endOp (block [ilock,
      either (block [either dirlookup skip, iunlockput, endOp])
        (block [dirlookup, ilock, loop readi,
          either (block [iunlockput, iunlockput, endOp])
            (block [writei, either iupdate skip, iunlockput, iupdate, iunlockput, endOp])])])]

def create : Path :=
  block [namex, either skip (block [ilock, dirlookup,
    either (block [iunlockput, ilock, either skip iunlockput])
      (block [ialloc, ilock, iupdate, either (block [iupdate, dirlink, dirlink]) skip, dirlink,
        iunlockput])])]

def sysOpen : Path :=
  block [beginOp,
    oneOf [block [create, endOp], block [namex, endOp], block [namex, ilock, iunlockput, endOp],
      block [either create (block [namex, ilock]), filealloc,
        either (block [either fileclose skip, iunlockput, endOp]) (block [iunlock, endOp])]]]

/-- `sys_mkdir` and `sys_mknod`. -/
def sysMkdir : Path := block [beginOp, either create skip, either (block [iunlockput, endOp]) endOp]

def sysChdir : Path :=
  block [beginOp, either namex skip,
    oneOf [endOp, block [ilock, iunlockput, endOp], block [ilock, iunlock, iput, endOp]]]

def sysPipe : Path := either skip (block [pipealloc, either skip (block [fileclose, fileclose])])

/-! ## sysproc.c -/

def sysSleep : Path := block [acquire .ticks, loop (sleep .ticks), release .ticks]

def sysUptime : Path := block [acquire .ticks, release .ticks]

/-! ## syscall.c -/

/-- The functions of the table `syscalls`, in its order.  The first branch is a call with a bad
argument, the last one an unknown number. -/
def syscall : Path :=
  oneOf [skip, fork, exit, wait, sysPipe, fileread, kill, exec, filestat, sysChdir, filedup, skip,
    growproc, sysSleep, sysUptime, sysOpen, filewrite, sysMkdir, sysUnlink, sysLink, sysMkdir,
      fileclose,
    kthreadCreate, skip, kthreadExit, kthreadJoin, kthreadMutexAlloc, kthreadMutexDealloc,
    kthreadMutexLock, kthreadMutexUnlock, cprintf]

/-! ## trap.c -/

/-- `consoleintr`, of console.c, called by `kbdintr` and `uartintr`. -/
def consoleintr : Path := block [acquire .cons, loop wakeup, release .cons, either procdump skip]

/-- Only the first processor counts the ticks. -/
def timer : Path := either (block [acquire .ticks, wakeup, release .ticks]) skip

/-- The interrupts; the last one is a spurious one. -/
def irq : Path := oneOf [timer, ideintr, skip, consoleintr, cprintf]

/-- A trap out of user mode: a system call, or an interrupt or exception. -/
def trap : Path :=
  either (block [either exit skip, syscall, either exit skip])
    (block [either irq cprintf, either exit skip, either yield skip, either exit skip])

def kerneltrap : Path := block [irq, either yield skip]

/-! ## main.c -/

def mpmain : Path := block [cprintf, scheduler]

def kinit2 : Path := loop kfree

/-- The first processor after `startothers`; nothing runs beside what comes before. -/
def main : Path := block [kinit2, userinit, mpmain]

/-- The kernel.  An exception in kernel mode prints a message and panics, and so does `acquire` with
a lock that the processor holds. -/
def kernel : Kernel Lock Kind Event where
  kind := Lock.kind
  dispatch := .ptable
  entry := block [forkret, loop trap]
  handler := kerneltrap
  fault := block [cprintf, stop]
  again := block [cprintf, cprintf, stop]

/-- Processor `c₀` starts the others. -/
def start {C : Type} [DecidableEq C] (c₀ c : C) : Path := if c = c₀ then main else mpmain

end Xv6.Spin
