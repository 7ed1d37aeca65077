import Xv6.Fs.Blocks

/-!
# The inode cache and directories

The functions of `fs.c` over the inode cache, for one thread at a time: the state holds the disk,
the cache, the file table, the pipes and the processes.  A `struct inode *` is an entry of the
cache.  To take a lock that is taken is a deadlock.
-/

namespace Xv6.FS

open LittleEndian

/-- A `struct inode *`. -/
abbrev Ip := Fin NINODE

/-- `struct inode`; `d` are the fields that are copies of the disk. -/
structure Inode where
  inum : ℕ
  ref : ℕ
  valid : Bool
  locked : Bool
  d : Dinode

/-- `FD_NONE`, `FD_PIPE`, `FD_INODE`. -/
inductive FdType where
  | none
  | pipe
  | inode
  deriving DecidableEq

/-- `struct file`; `pipe` is the page of the pipe. -/
structure File where
  type : FdType
  ref : ℕ
  readable : Bool
  writable : Bool
  pipe : ℕ
  ip : Ip
  off : ℕ
  deriving DecidableEq

/-- `struct pipe` without its buffer. -/
structure Pipe where
  readopen : Bool
  writeopen : Bool
  deriving DecidableEq

/-- What the calls of the processes `P` work on; a process without a current directory is not
running.  `pipes` are the pages that hold a pipe. -/
structure State (P : Type) where
  dev : Dev
  outstanding : ℕ
  icache : Ip → Inode
  ftable : Fin NFILE → File
  pipes : ℕ → Option Pipe
  ofile : P → Fin NOFILE → Option (Fin NFILE)
  cwd : P → Option Ip

/-- The state after `iinit`: nothing is cached or open. -/
def State.boot {P : Type} (disk : Disk) : State P where
  dev := ⟨disk, Superblock.get (disk 1), []⟩
  outstanding := 0
  icache _ := ⟨0, 0, false, false, Dinode.zero⟩
  ftable _ := ⟨.none, 0, false, false, 0, ⟨0, NINODE_pos⟩, 0⟩
  pipes _ := none
  ofile _ _ := none
  cwd _ := none

abbrev M (P : Type) := ExceptT Panic (StateM (State P))

variable {P : Type}

def State.setInode (s : State P) (ip : Ip) (x : Inode) : State P :=
  { s with icache := Function.update s.icache ip x }

def State.setD (s : State P) (ip : Ip) (d : Dinode) :
    State P := s.setInode ip { s.icache ip with d := d }

def onDev {α : Type} (m : DevM α) : M P α := fun s =>
  match m s.dev with
  | (r, w) => (r, { s with dev := w })

def withInode {α : Type} (ip : Ip) (f : Dinode → DevM (α × Dinode)) : M P α := do
  let s ← get
  let (a, d) ← onDev (f (s.icache ip).d)
  modify fun s => s.setD ip d
  return a

/-! ## References -/

def State.find (s : State P) (inum : ℕ) : Option Ip :=
  (List.finRange NINODE).find? fun ip => decide (0 < (s.icache ip).ref ∧ (s.icache ip).inum = inum)

def State.empty (s : State P) : Option Ip :=
  (List.finRange NINODE).find? fun ip => decide ((s.icache ip).ref = 0)

def iget (inum : ℕ) : M P Ip := fun s =>
  match s.find inum with
  | some ip => (.ok ip, s.setInode ip { s.icache ip with ref := (s.icache ip).ref + 1 })
  | none =>
    match s.empty with
    | some ip => (.ok ip, s.setInode ip { s.icache ip with inum := inum, ref := 1, valid := false })
    | none => (.error .iget, s)

def idup (ip : Ip) : M P Ip := fun s =>
  (.ok ip, s.setInode ip { s.icache ip with ref := (s.icache ip).ref + 1 })

def ilock (ip : Ip) : M P Unit := fun s =>
  let x := s.icache ip
  if x.ref < 1 then (.error .ilock, s)
  else if x.locked then (.error .deadlock, s)
  else if x.valid then (.ok (), s.setInode ip { x with locked := true })
  else
    let d := s.dev.disk.dinode s.dev.sb x.inum
    if d.type = 0 then (.error .noType, s)
    else (.ok (), s.setInode ip { x with locked := true, valid := true, d := d })

def iunlock (ip : Ip) : M P Unit := fun s =>
  let x := s.icache ip
  if x.locked = false ∨ x.ref < 1 then (.error .iunlock, s)
  else (.ok (), s.setInode ip { x with locked := false })

/-- `itrunc`, `type = 0`, `iupdate`. -/
def ifree (inum : ℕ) (d : Dinode) : DevM Dinode := do
  let d ← itrunc inum d
  iupdate inum { d with type := 0 }
  return { d with type := 0 }

def iput (ip : Ip) : M P Unit := do
  let s ← get
  let x := s.icache ip
  if x.locked then throw .deadlock
  else if x.valid ∧ x.d.nlink = 0 ∧ x.ref = 1 then do
    let d ← onDev (ifree x.inum x.d)
    modify fun s => s.setInode ip { x with d := d, valid := false, ref := x.ref - 1 }
  else modify fun s => s.setInode ip { x with ref := x.ref - 1 }

def iunlockput (ip : Ip) : M P Unit := do
  iunlock ip
  iput ip

/-! ## Directories -/

def dirlookup (dp : Ip) (name : Name) : M P (Option (Ip × ℕ)) := do
  let s ← get
  if (s.icache dp).d.type ≠ T_DIR then throw .notDir
  else
    match ← withInode dp fun d => dirlookupLoop name (rounds d 0) d 0 with
    | none => return none
    | some (inum, off) =>
      let ip ← iget inum
      return some (ip, off)

def writeInode (ip : Ip) (src : List UInt8) (off : ℕ) : M P (Option ℕ) := do
  let s ← get
  withInode ip fun d => writei (s.icache ip).inum d src off

/-- True if it returns 0, false if it returns -1. -/
def dirlink (dp : Ip) (name : Name) (inum : ℕ) : M P Bool := do
  match ← dirlookup dp name with
  | some (ip, _) =>
    iput ip
    return false
  | none =>
    let off ← withInode dp fun d => dirlinkLoop (rounds d 0) d 0
    let r ← writeInode dp (Dirent.bytes ⟨inum, name⟩) off
    if r = some DIRENT then return true else throw .dirlink

/-! ## Paths -/

/-- The loop of `namex` for the remaining names; the result has the last name if the parent is
looked up. -/
def namexFrom (nameiparent : Bool) : Ip → List Name → M P (Option (Ip × Name))
  | ip, [] =>
    if nameiparent then do
      iput ip
      return none
    else return some (ip, [])
  | ip, name :: rest => do
    ilock ip
    let s ← get
    if (s.icache ip).d.type ≠ T_DIR then do
      iunlockput ip
      return none
    else if nameiparent ∧ rest = [] then do
      iunlock ip
      return some (ip, name)
    else
      match ← dirlookup ip name with
      | none =>
        iunlockput ip
        return none
      | some (next, _) =>
        iunlockput ip
        namexFrom nameiparent next rest

/-- Where `namex` starts for the process `p`: at the root, or at the current directory. -/
def namexStart (p : P) (path : Name) : M P Ip :=
  if path.head? = some slash then iget ROOTINO
  else do
    let s ← get
    match s.cwd p with
    | some cwd => idup cwd
    | none => throw .ilock  -- there is no such process

def namex (p : P) (path : Name) (nameiparent : Bool) : M P (Option (Ip × Name)) := do
  let ip ← namexStart p path
  namexFrom nameiparent ip (pathElems path)

def namei (p : P) (path : Name) : M P (Option Ip) := do
  let r ← namex p path false
  return r.map Prod.fst

def nameiparent (p : P) (path : Name) : M P (Option (Ip × Name)) := namex p path true

end Xv6.FS
