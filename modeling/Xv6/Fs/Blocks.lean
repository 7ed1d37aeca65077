import Xv6.Fs.Pointers
import Xv6.Lib.Fallible

/-!
# Blocks and the contents of inodes

The functions of `fs.c` below the inode cache: `balloc` and `bfree`, `bmap` and `itrunc`, `readi`
and `writei`.  They work on the disk, as the buffer cache shows it, and on the copy of the inode
that the caller has locked.  `Dev.logged` are the blocks that were given to `log_write`.
-/

namespace Xv6.FS

open LittleEndian

/-- The panics of `fs.c`, `sysfile.c`, `file.c` and `pipe.c`; `deadlock` is a thread that waits for
a lock that it holds, and `freed` the use of a page that has been freed. -/
inductive Panic where
  /-- `balloc: out of blocks` -/
  | balloc
  /-- `freeing free block` -/
  | bfree
  /-- `bmap: out of range` -/
  | bmap
  /-- `ialloc: no inodes` -/
  | ialloc
  /-- `iget: no inodes` -/
  | iget
  | ilock
  /-- `ilock: no type` -/
  | noType
  | iunlock
  /-- `dirlookup not DIR` -/
  | notDir
  /-- `dirlookup read` -/
  | dirlookupRead
  /-- `dirlink read` -/
  | dirlinkRead
  | dirlink
  /-- `isdirempty: readi` -/
  | isdirempty
  /-- `unlink: nlink < 1` -/
  | unlinkNlink
  /-- `unlink: writei` -/
  | unlinkWritei
  /-- `create dots` -/
  | createDots
  /-- `create: dirlink` -/
  | createDirlink
  | filedup
  | fileclose
  | fileread
  | filewrite
  /-- `short filewrite` -/
  | shortFilewrite
  | deadlock
  | freed
  deriving DecidableEq

/-- The disk, the kernel's copy of the superblock, and the blocks given to `log_write`, the last one
first. -/
structure Dev where
  disk : Disk
  sb : Superblock
  logged : List ℕ

abbrev DevM := ExceptT Panic (StateM Dev)

/-- The device of the console, the only one in `devsw`. -/
def CONSOLE : ℕ := 1

/-! ## The free map -/

/-- A changed buffer is given to `log_write`. -/
def Dev.logWrite (w : Dev) (b : ℕ) (x : Block) : Dev :=
  { w with disk := Function.update w.disk b x, logged := b :: w.logged }

theorem Dev.logWrite_of_ne {b c : ℕ} (w : Dev) (x : Block) (h : c ≠ b) :
    (w.logWrite b x).disk c = w.disk c :=
  Function.update_of_ne h ..

def logWrite (b : ℕ) (x : Block) : DevM Unit := modify fun w => w.logWrite b x

@[simp] theorem run_logWrite_bind {α : Type} (b : ℕ) (x : Block) (f : Unit → DevM α) (w : Dev) :
    (logWrite b x >>= f) w = f () (w.logWrite b x) := rfl

def readsb : DevM Unit := modify fun w => { w with sb := Superblock.get (w.disk 1) }

def bzero (bno : ℕ) : DevM Unit := logWrite bno zeroes

/-- The two loops of `balloc` visit the bits in the order of the blocks. -/
def balloc : DevM ℕ := do
  let w ← get
  match (List.range w.sb.size).find? fun b => !w.disk.marked w.sb b with
  | some b =>
    logWrite (BBLOCK b w.sb) (setBit (w.disk (BBLOCK b w.sb)) (b % BPB))
    bzero b
    return b
  | none => throw .balloc

def bfree (b : ℕ) : DevM Unit := do
  readsb
  let w ← get
  if w.disk.marked w.sb b then
    logWrite (BBLOCK b w.sb) (clearBit (w.disk (BBLOCK b w.sb)) (b % BPB))
  else throw .bfree

/-! ## The blocks of an inode -/

def iupdate (inum : ℕ) (d : Dinode) : DevM Unit := do
  let w ← get
  logWrite (IBLOCK inum w.sb) (Dinode.put (w.disk (IBLOCK inum w.sb)) (inum % IPB) d)

/-- The indirect block, allocated if necessary. -/
def loadIndirect (d : Dinode) : DevM Dinode :=
  if d.indirect = 0 then do
    let addr ← balloc
    return d.setAddr (Fin.last NDIRECT) addr
  else return d

def bmap (d : Dinode) (bn : ℕ) : DevM (ℕ × Dinode) :=
  if h : bn < NDIRECT then
    if d.direct bn h = 0 then do
      let addr ← balloc
      return (addr, d.setAddr ⟨bn, Nat.lt_succ_of_lt h⟩ addr)
    else return (d.direct bn h, d)
  else if bn - NDIRECT < NINDIRECT then do
    let d ← loadIndirect d
    let w ← get
    if (w.disk d.indirect).addr (bn - NDIRECT) = 0 then do
      let addr ← balloc
      let w ← get
      logWrite d.indirect ((w.disk d.indirect).setAddr (bn - NDIRECT) addr)
      return (addr, d)
    else return ((w.disk d.indirect).addr (bn - NDIRECT), d)
  else throw .bmap

def bfrees : List ℕ → DevM Unit
  | [] => return ()
  | b :: l => if b = 0 then bfrees l else do
    bfree b
    bfrees l

def itrunc (inum : ℕ) (d : Dinode) : DevM Dinode := do
  bfrees ((List.finRange NDIRECT).map fun i => d.addrs i.castSucc)
  if d.indirect = 0 then pure ()
  else do
    let w ← get
    bfrees ((List.range NINDIRECT).map (w.disk d.indirect).addr)
    bfree d.indirect
  let d := { d with addrs := fun _ => 0, size := 0 }
  iupdate inum d
  return d

/-! ## Contents -/

def bytesAt (disk : Disk) (b o m : ℕ) : List UInt8 := (List.range m).map fun i =>
    getByte (disk b) (o + i)

/-- The loop of `readi`; `n` is what is left. -/
def readiLoop (d : Dinode) (off n : ℕ) : DevM (List UInt8 × Dinode) :=
  if n = 0 then return ([], d)
  else do
    let (b, d) ← bmap d (off / BSIZE)
    let w ← get
    let m := min n (BSIZE - off % BSIZE)
    let (l, d) ← readiLoop d (off + m) (n - m)
    return (bytesAt w.disk b (off % BSIZE) m ++ l, d)
termination_by n
decreasing_by
  have := Nat.mod_lt off (by decide : 0 < BSIZE)
  omega

/-- Without a result it returns -1.  Reading from a device does not concern the disk. -/
def readi (d : Dinode) (off n : ℕ) : DevM (Option (List UInt8) × Dinode) :=
  if d.type = T_DEV then return (none, d)
  else if d.size < off ∨ (off + n) % 2 ^ 32 < off then return (none, d)
  else do
    let (l, d) ← readiLoop d off (if d.size < (off + n) % 2 ^ 32 then d.size - off else n)
    return (some l, d)

/-- The loop of `writei`; `src` is what is left. -/
def writeiLoop (d : Dinode) (src : List UInt8) (off : ℕ) : DevM (ℕ × Dinode) :=
  if src = [] then return (off, d)
  else do
    let (b, d) ← bmap d (off / BSIZE)
    let w ← get
    let m := min src.length (BSIZE - off % BSIZE)
    logWrite b (blit (w.disk b) (off % BSIZE) m fun i => src.getD i 0)
    writeiLoop d (src.drop m) (off + m)
termination_by src.length
decreasing_by
  have := Nat.mod_lt off (by decide : 0 < BSIZE)
  have hpos : 0 < src.length := List.length_pos_iff.2 (by assumption)
  rw [List.length_drop]
  omega

def writei (inum : ℕ) (d : Dinode) (src : List UInt8) (off : ℕ) : DevM (Option ℕ × Dinode) :=
  if d.type = T_DEV then return (if d.major = CONSOLE then some src.length else none, d)
  else if d.size < off ∨ (off + src.length) % 2 ^ 32 < off then return (none, d)
  else if MAXFILE * BSIZE < (off + src.length) % 2 ^ 32 then return (none, d)
  else do
    let (off, d) ← writeiLoop d src off
    if 0 < src.length ∧ d.size < off then do
      let d := { d with size := off }
      iupdate inum d
      return (some src.length, d)
    else return (some src.length, d)

/-! ## Directories -/

/-- `readi(dp, (char*)&de, off, sizeof(de))`, with the panic if it does not return `sizeof(de)`. -/
def readDirent (e : Panic) (d : Dinode) (off : ℕ) : DevM (Dirent × Dinode) := do
  let (r, d) ← readi d off DIRENT
  match r with
  | some l => if l.length = DIRENT then return (Dirent.ofBytes l, d) else throw e
  | none => throw e

/-- The rounds of `for(off = off₀; off < dp->size; off += sizeof(de))`. -/
def rounds (d : Dinode) (off₀ : ℕ) : ℕ := (d.size - off₀ + DIRENT - 1) / DIRENT

/-- The loop of `dirlookup`: the number and the offset of the entry. -/
def dirlookupLoop (name : Name) : ℕ → Dinode → ℕ → DevM (Option (ℕ × ℕ) × Dinode)
  | 0, d, _ => return (none, d)
  | n + 1, d, off => do
    let (de, d) ← readDirent .dirlookupRead d off
    if de.inum ≠ 0 ∧ namecmp name de.name then return (some (de.inum, off), d)
    else dirlookupLoop name n d (off + DIRENT)

/-- The loop of `dirlink` for an empty entry. -/
def dirlinkLoop : ℕ → Dinode → ℕ → DevM (ℕ × Dinode)
  | 0, d, off => return (off, d)
  | n + 1, d, off => do
    let (de, d) ← readDirent .dirlinkRead d off
    if de.inum = 0 then return (off, d) else dirlinkLoop n d (off + DIRENT)

end Xv6.FS
