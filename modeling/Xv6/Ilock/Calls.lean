import Xv6.Fs.Path
import Xv6.Lib.LockProg
import Xv6.Lib.Machine
import Mathlib.Data.Fin.Basic

/-!
# System calls and inode locks

The file-system calls of `sysfile.c`, with the functions of `fs.c` and `file.c` they use, as code
that takes inode locks.  A lock belongs to an entry of the inode cache, and code refers to an inode
by its entry, as the source does by its `struct inode *`.

What the source does under a spinlock (`icache.lock`, `ftable.lock`) or, for a sector of inodes,
with its buffer locked is one action.  The fields of an inode are kept once, for the cached copy and
the disk: each change is written through, under the inode's lock.  A directory is its list of
entries.  A panic stops the thread.
-/

namespace Xv6.Ilock

open LockProg Function

/-- `T_DIR`, `T_FILE`, `T_DEV`. -/
inductive FileType where
  | dir
  | file
  | dev
  deriving DecidableEq

/-- `struct dirent`; the entry is free if `inum` is 0. -/
structure Dirent where
  inum : ℕ
  name : Name
  deriving DecidableEq

/-- An inode; it is free if it has no type. -/
structure Inode where
  type : Option FileType
  nlink : Int16
  entries : List Dirent
  deriving DecidableEq

structure Cached where
  inum : ℕ
  ref : ℤ
  valid : Bool
  deriving DecidableEq

/-- A `struct inode *`. -/
abbrev Ip := Fin NINODE

/-- `struct file`.  `ip` is there for an `FD_INODE` file. -/
structure File where
  ref : ℤ
  ip : Option Ip
  deriving DecidableEq

structure Fs (P : Type) where
  ninodes : ℕ
  inode : ℕ → Inode
  icache : Ip → Cached
  ftable : Fin NFILE → File
  ofile : P → Fin NOFILE → Option (Fin NFILE)
  cwd : P → Ip
  /-- Ghost: `create` has allocated the inode, and has not locked it yet. -/
  fresh : ℕ → Bool

variable {P : Type} [DecidableEq P]

abbrev Code (P : Type) := Prog (Fs P) Ip

namespace Fs

variable (s : Fs P) (ip : Ip)

def dinode : Inode := s.inode (s.icache ip).inum

def modify (f : Inode → Inode) : Fs P :=
  { s with inode := update s.inode (s.icache ip).inum (f (s.dinode ip)) }

def setCached (c : Cached) : Fs P :=
  { s with icache := update s.icache ip c }

def addRef (n : ℤ) : Fs P :=
  s.setCached ip { s.icache ip with ref := (s.icache ip).ref + n }

def setFile (f : Fin NFILE) (x : File) : Fs P :=
  { s with ftable := update s.ftable f x }

def setOfile (p : P) (fd : Fin NOFILE) (f : Option (Fin NFILE)) : Fs P :=
  { s with ofile := update s.ofile p (update (s.ofile p) fd f) }

def setCwd (p : P) (ip : Ip) : Fs P := { s with cwd := update s.cwd p ip }

/-- Ghost: the new inode is locked. -/
def settle : Fs P :=
  { s with fresh := update s.fresh (s.icache ip).inum false }

end Fs

/-! ## Inodes -/

def icacheFind (s : Fs P) (inum : ℕ) : Option Ip :=
  (List.finRange NINODE).find? fun ip => decide (0 < (s.icache ip).ref ∧ (s.icache ip).inum = inum)

def icacheEmpty (s : Fs P) : Option Ip :=
  (List.finRange NINODE).find? fun ip => decide ((s.icache ip).ref = 0)

def iget (inum : ℕ) (k : Ip → Code P) : Code P :=
  .act
    (fun s =>
      match icacheFind s inum, icacheEmpty s with
      | some ip, _ => s.addRef ip 1
      | none, some ip => s.setCached ip ⟨inum, 1, false⟩
      | none, none => s)
    fun s =>
      match icacheFind s inum, icacheEmpty s with
      | some ip, _ => k ip
      | none, some ip => k ip
      | none, none => .stop  -- iget: no inodes

def idup (ip : Ip) (k : Code P) : Code P := .act (fun s => s.addRef ip 1) fun _ => k

def ilock (ip : Ip) (k : Code P) : Code P :=
  .read fun s =>
    if (s.icache ip).ref < 1 then .stop
    else
      .acquire false (fun _ => true) ip <|
      .act
        (fun s =>
          if (s.icache ip).valid = false ∧ (s.dinode ip).type = none then s
          else s.setCached ip { s.icache ip with valid := true })
        fun s =>
          if (s.icache ip).valid = false ∧ (s.dinode ip).type = none then .stop  -- ilock: no type
          else k

def iunlock (ip : Ip) (k : Code P) : Code P :=
  .read fun s => if (s.icache ip).ref < 1 then .stop else .release ip k

/-- `itrunc`, and the inode is free. -/
def Fs.ifree (s : Fs P) (ip : Ip) : Fs P :=
  (s.modify ip fun i => { i with type := none, entries := [] }).setCached ip
    { s.icache ip with valid := false }

/-- The `now` of `iput` and `iunlockput` marks the calls by which a thread takes back the lock of a
directory while it holds the lock of an inode in it.  The guard keeps `iput` from freeing an inode
that `create` has just allocated.  The inode is freed when `ref` is read: an `iget` in between finds
the same entry and takes the same reference. -/
def iput (now : Bool) (ip : Ip) (k : Code P) : Code P :=
  .acquire now (fun s => !s.fresh (s.icache ip).inum) ip <|
  .act
    (fun s =>
      if (s.icache ip).valid ∧ (s.dinode ip).nlink = 0 ∧ (s.icache ip).ref = 1 then s.ifree ip
      else s)
    fun _ =>
  .release ip <|
  .act (fun s => s.addRef ip (-1)) fun _ => k

def iunlockput (now : Bool) (ip : Ip) (k : Code P) : Code P := iunlock ip (iput now ip k)

/-- The loop of `ialloc` over the inodes from `inum` on, `n` of them. -/
def iallocFrom (type : FileType) (k : Ip → Code P) : ℕ → ℕ → Code P
  | 0, _ => .stop  -- ialloc: no inodes
  | n + 1, inum =>
    .act
      (fun s =>
        if (s.inode inum).type = none then
          { s with
            inode := update s.inode inum ⟨some type, 0, []⟩
            fresh := update s.fresh inum true }
        else s)
      fun s => if (s.inode inum).type = none then iget inum k else iallocFrom type k n (inum + 1)

def ialloc (type : FileType) (k : Ip → Code P) : Code P :=
  .read fun s => iallocFrom type k (s.ninodes - 1) 1

/-! ## Directories -/

/-- Where an entry with the name stands in a directory. -/
def direntFind (d : List Dirent) (name : Name) : Option ℕ :=
  d.findIdx? fun de => de.inum != 0 && namecmp name de.name

def dirlookup (dp : Ip) (name : Name) (k : Option (Ip × ℕ) → Code P) : Code P :=
  .read fun s =>
    if (s.dinode dp).type ≠ some .dir then .stop  -- dirlookup not DIR
    else
      match direntFind (s.dinode dp).entries name with
      | some off => iget ((s.dinode dp).entries.getD off ⟨0, []⟩).inum fun ip => k (some (ip, off))
      | none => k none

/-- Write an entry into the first free place of a directory, or at its end. -/
def direntAdd (d : List Dirent) (de : Dirent) : List Dirent :=
  match d.findIdx? fun e => e.inum == 0 with
  | some off => d.set off de
  | none => d ++ [de]

/-- A new entry does not make a directory longer than `MAXFILE` blocks. -/
def direntFits (d : List Dirent) : Bool :=
  (d.findIdx? fun e => e.inum == 0).isSome || decide ((d.length + 1) * 16 ≤ MAXFILE * BSIZE)

def dirlink (dp : Ip) (name : Name) (inum : ℕ) (k : Bool → Code P) : Code P :=
  dirlookup dp name fun
    | some (ip, _) => iput false ip (k false)
    | none =>
      .act
        (fun s =>
          if direntFits (s.dinode dp).entries then
            s.modify dp fun i => { i with entries := direntAdd i.entries ⟨inum, name.take DIRSIZ⟩ }
          else s)
        fun s => if direntFits (s.dinode dp).entries then k true else .stop

/-- `isdirempty`, from the third entry on. -/
def isdirempty (d : List Dirent) : Bool := (d.drop 2).all fun de => de.inum == 0

/-! ## Paths -/

/-- The loop of `namex` at inode `ip`; `name` is the last name read. -/
def namexFrom (nameiparent : Bool) (k : Option (Ip × Name) → Code P) : List Name → Ip → Name →
    Code P
  | [], ip, name => if nameiparent then iput false ip (k none) else k (some (ip, name))
  | name :: path, ip, _ =>
    ilock ip <|
    .read fun s =>
      if (s.dinode ip).type ≠ some .dir then iunlockput false ip (k none)
      else if nameiparent ∧ path = [] then iunlock ip (k (some (ip, name)))
      else
        dirlookup ip name fun
          | none => iunlockput false ip (k none)
          | some (next, _) => iunlockput false ip (namexFrom nameiparent k path next name)

variable (p : P) (path : Name)

def namex (nameiparent : Bool) (k : Option (Ip × Name) → Code P) : Code P :=
  if path.head? = some slash then iget ROOTINO fun ip => namexFrom nameiparent k (pathElems path) ip
    []
  else .read fun s => idup (s.cwd p) <| namexFrom nameiparent k (pathElems path) (s.cwd p) []

def namei (k : Option Ip → Code P) : Code P :=
  namex p path false fun r => k (r.map Prod.fst)

def nameiparent (k : Option (Ip × Name) → Code P) : Code P := namex p path true k

/-! ## Files -/

/-- `filealloc`: the first free file. -/
def fileFind (s : Fs P) : Option (Fin NFILE) :=
  (List.finRange NFILE).find? fun f => decide ((s.ftable f).ref = 0)

def filealloc (k : Option (Fin NFILE) → Code P) : Code P :=
  .act
    (fun s =>
      match fileFind s with
      | some f => s.setFile f { s.ftable f with ref := 1 }
      | none => s)
    fun s => k (fileFind s)

/-- `fdalloc`: the first free descriptor is found and then set. -/
def fdalloc (f : Fin NFILE) (k : Option (Fin NOFILE) → Code P) : Code P :=
  .read fun s =>
    match (List.finRange NOFILE).find? fun fd => decide (s.ofile p fd = none) with
    | some fd => .act (fun s => s.setOfile p fd (some f)) fun _ => k (some fd)
    | none => k none

def fileclose (f : Fin NFILE) (k : Code P) : Code P :=
  .act
    (fun s =>
      if (s.ftable f).ref < 1 then s
      else if (s.ftable f).ref - 1 > 0 then
        s.setFile f { s.ftable f with ref := (s.ftable f).ref - 1 }
      else s.setFile f ⟨0, none⟩)
    fun s =>
      if (s.ftable f).ref < 1 then .stop  -- fileclose
      else if (s.ftable f).ref - 1 > 0 then k
      else
        match (s.ftable f).ip with
        | some ip => iput false ip k
        | none => k

/-! ## System calls -/

def ret : Code P := .act id fun _ => .done

/-- The entries `.` and `..` of a new directory `ip` in `dp`. -/
def createDots (dp ip : Ip) (k : Code P) : Code P :=
  .act (fun s => s.modify dp fun i => { i with nlink := i.nlink + 1 }) fun s =>
  dirlink ip dot (s.icache ip).inum fun
    | false => .stop  -- create dots
    | true =>
      dirlink ip dotdot (s.icache dp).inum fun
        | false => .stop  -- create dots
        | true => k

/-- The end of `create`, where `ip` is new and locked like `dp`. -/
def createLink (dp ip : Ip) (name : Name) (k : Option Ip → Code P) : Code P :=
  .read fun s =>
  dirlink dp name (s.icache ip).inum fun
    | false => .stop  -- create: dirlink
    | true => iunlockput true dp (k (some ip))

/-- `create`; the inode it returns is locked. -/
def create (type : FileType) (k : Option Ip → Code P) : Code P :=
  nameiparent p path fun
    | none => k none
    | some (dp, name) =>
      ilock dp <|
      dirlookup dp name fun
        | some (ip, _) =>
          iunlockput false dp <|
          ilock ip <|
          .read fun s =>
            if type = .file ∧ (s.dinode ip).type = some .file then k (some ip)
            else iunlockput false ip (k none)
        | none =>
          ialloc type fun ip =>
          ilock ip <|
          .act (fun s => s.settle ip) fun _ =>
          .act (fun s => s.modify ip fun i => { i with nlink := 1 }) fun _ =>
            if type = .dir then createDots dp ip (createLink dp ip name k)
            else createLink dp ip name k

def O_CREATE : UInt32 := 0x200

/-- The end of `sys_open`, with `ip` locked. -/
def openFile (ip : Ip) : Code P :=
  filealloc fun
    | none => iunlockput false ip ret
    | some f =>
      fdalloc p f fun
        | none => fileclose f (iunlockput false ip ret)
        | some _ =>
          iunlock ip <|
          .act (fun s => s.setFile f { s.ftable f with ip := some ip }) fun _ => ret

def sysOpen (omode : UInt32) : Code P :=
  if omode &&& O_CREATE ≠ 0 then
    create p path .file fun
      | none => ret
      | some ip => openFile p ip
  else
    namei p path fun
      | none => ret
      | some ip =>
        ilock ip <|
        .read fun s =>
          if (s.dinode ip).type = some .dir ∧ omode ≠ 0 then iunlockput false ip ret
          else openFile p ip

/-- `bad` of `sys_link`. -/
def linkBad (ip : Ip) : Code P :=
  ilock ip <|
  .act (fun s => s.modify ip fun i => { i with nlink := i.nlink - 1 }) fun _ =>
  iunlockput false ip ret

def sysLink (old new : Name) : Code P :=
  namei p old fun
    | none => ret
    | some ip =>
      ilock ip <|
      .read fun s =>
        if (s.dinode ip).type = some .dir then iunlockput false ip ret
        else
          .act (fun s => s.modify ip fun i => { i with nlink := i.nlink + 1 }) fun _ =>
          iunlock ip <|
          nameiparent p new fun
            | none => linkBad ip
            | some (dp, name) =>
              ilock dp <|
              .read fun s =>
              dirlink dp name (s.icache ip).inum fun
                | false => iunlockput false dp (linkBad ip)
                | true => iunlockput false dp (iput false ip ret)

/-- The end of `sys_unlink`: entry `off` of `dp`, which names `ip`, is erased. -/
def unlinkEntry (dp ip : Ip) (off : ℕ) : Code P :=
  .act (fun s => s.modify dp fun i => { i with entries := i.entries.set off ⟨0, []⟩ }) fun s =>
  .act
    (fun s' =>
      if (s.dinode ip).type = some .dir then s'.modify dp fun i => { i with nlink := i.nlink - 1 }
      else s')
    fun _ =>
  iunlockput true dp <|
  .act (fun s => s.modify ip fun i => { i with nlink := i.nlink - 1 }) fun _ =>
  iunlockput false ip ret

def sysUnlink : Code P :=
  nameiparent p path fun
    | none => ret
    | some (dp, name) =>
      ilock dp <|
      if namecmp name dot ∨ namecmp name dotdot then iunlockput false dp ret
      else
        dirlookup dp name fun
          | none => iunlockput false dp ret
          | some (ip, off) =>
            ilock ip <|
            .read fun s =>
              if (s.dinode ip).nlink < 1 then .stop  -- unlink: nlink < 1
              else if (s.dinode ip).type = some .dir ∧ isdirempty (s.dinode ip).entries = false then
                iunlockput false ip (iunlockput false dp ret)
              else unlinkEntry dp ip off

/-- `sys_mkdir` and `sys_mknod`. -/
def sysCreate (type : FileType) : Code P :=
  create p path type fun
    | none => ret
    | some ip => iunlockput false ip ret

def sysMkdir : Code P := sysCreate p path .dir

def sysMknod : Code P := sysCreate p path .dev

def sysChdir : Code P :=
  namei p path fun
    | none => ret
    | some ip =>
      ilock ip <|
      .read fun s =>
        if (s.dinode ip).type ≠ some .dir then iunlockput false ip ret
        else
          iunlock ip <|
          .read fun s =>
          iput false (s.cwd p) <|
          .act (fun s => s.setCwd p ip) fun _ => ret

/-- `sys_close` of a descriptor in range. -/
def sysClose (fd : Fin NOFILE) : Code P :=
  .read fun s =>
    match s.ofile p fd with
    | none => ret
    | some f => .act (fun s => s.setOfile p fd none) fun _ => fileclose f ret

/-- `exec`, which reads the file with its inode locked. -/
def exec : Code P :=
  namei p path fun
    | none => ret
    | some ip => ilock ip <| iunlockput false ip ret

inductive Call where
  | open (path : Name) (omode : UInt32)
  | link (old new : Name)
  | unlink (path : Name)
  | mkdir (path : Name)
  | mknod (path : Name)
  | chdir (path : Name)
  | close (fd : Fin NOFILE)
  | exec (path : Name)
  deriving DecidableEq

def Call.code : Call → Code P
  | .open path omode => sysOpen p path omode
  | .link old new => sysLink p old new
  | .unlink path => sysUnlink p path
  | .mkdir path => sysMkdir p path
  | .mknod path => sysMknod p path
  | .chdir path => sysChdir p path
  | .close fd => sysClose p fd
  | .exec path => Ilock.exec p path

/-! ## The machine -/

structure State (T P : Type) where
  threads : Threads (Fs P) Ip T
  call : T → Option Call

def State.boot (T : Type) (fs : Fs P) : State T P :=
  ⟨⟨fs, fun _ => none, fun _ => .done⟩, fun _ => none⟩

inductive Label where
  | call (c : Call)
  | go
  deriving DecidableEq

variable {T : Type} [DecidableEq T]

def State.next (proc : T → P) (s : State T P) (t : T) : Label → Option (State T P)
  | .call c =>
    match s.threads.prog t with
    | .done => some
        ⟨{ s.threads with prog := update s.threads.prog t (c.code (proc t)) },
          update s.call t (some c)⟩
    | _ => none
  | .go => (s.threads.step t).map fun th => { s with threads := th }

def ilockSys (proc : T → P) (init : Fs P → Prop) : Machine.Sys (State T P) (T × Label) where
  init s := ∃ fs, init fs ∧ s = .boot T fs
  next s l := s.next proc l.1 l.2

end Xv6.Ilock
