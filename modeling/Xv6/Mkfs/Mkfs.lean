import Xv6.Fs.Pointers

/-!
# `mkfs`

`mkfs.c` on the bytes of the image.  The image file has `size` blocks; a block behind its end cannot
be read, and `mkfs` then exits with an error, as it does when an assertion fails: the functions have
no result in these cases.  An argument is the name and what the calls of `read` return up to the end
of the file.
-/

namespace Xv6.Mkfs

open LittleEndian

/-! ## The layout -/

def NINODES : ℕ := 200

def nbitmap : ℕ := FSSIZE / (BSIZE * 8) + 1

def ninodeblocks : ℕ := NINODES / IPB + 1

def nlog : ℕ := LOGSIZE

/-- Number of meta blocks (boot, sb, nlog, inode, bitmap). -/
def nmeta : ℕ := 2 + nlog + ninodeblocks + nbitmap

def nblocks : ℕ := FSSIZE - nmeta

def sb : Superblock where
  size := FSSIZE
  nblocks := nblocks
  ninodes := NINODES
  nlog := nlog
  logstart := 2
  inodestart := 2 + nlog
  bmapstart := 2 + nlog + ninodeblocks

/-! ## The image -/

structure Image where
  disk : Disk
  size : ℕ
  freeinode : ℕ
  freeblock : ℕ

structure File where
  /-- `argv[i]`, a C string. -/
  name : Name
  /-- What `read(fd, buf, sizeof(buf))` returns, call after call. -/
  reads : List (List UInt8)
  name_nul : (0 : UInt8) ∉ name
  reads_length : ∀ r ∈ reads, 0 < r.length ∧ r.length ≤ BSIZE

def File.content (f : File) : List UInt8 := f.reads.flatten

def underscore : UInt8 := 95

/-- The name without the leading `_`. -/
def File.stripped (f : File) : Name := if f.name.head? = some underscore then f.name.tail else
    f.name

namespace Image

variable (s : Image)

def rsect (sec : ℕ) : Option Block := if sec < s.size then some (s.disk sec) else none

def wsect (sec : ℕ) (buf : Block) : Image :=
  { s with disk := Function.update s.disk sec buf, size := max s.size (sec + 1) }

theorem wsect_disk_self (sec : ℕ) (buf : Block) : (s.wsect sec buf).disk sec = buf := by
  simp only [wsect, Function.update_self]

theorem wsect_disk_of_ne {sec b : ℕ} (buf : Block) (h : b ≠ sec) :
    (s.wsect sec buf).disk b = s.disk b := Function.update_of_ne h ..

def winode (inum : ℕ) (d : Dinode) : Option Image :=
  (s.rsect (IBLOCK inum sb)).map fun buf => s.wsect (IBLOCK inum sb) (Dinode.put buf (inum % IPB) d)

def rinode (inum : ℕ) : Option Dinode :=
  (s.rsect (IBLOCK inum sb)).map fun buf => Dinode.get buf (inum % IPB)

/-- The inode that `ialloc` writes. -/
def newInode (type : ℕ) : Dinode := { Dinode.zero with type := type, nlink := 1 }

def ialloc (type : ℕ) : Option (ℕ × Image) :=
  ({ s with freeinode := s.freeinode + 1 }.winode s.freeinode (newInode type)).map fun s' =>
    (s.freeinode, s')

/-- The bits of the blocks below `used`. -/
def bits : ℕ → Block
  | 0 => zeroes
  | i + 1 => setBit (bits i) i

def balloc (used : ℕ) : Option Image :=
  if used < BSIZE * 8 then some (s.wsect sb.bmapstart (bits used)) else none

/-- `freeblock++`. -/
def take : Image := { s with freeblock := s.freeblock + 1 }

/-- The block `x` for block `fbn` of the file in the loop of `iappend`. -/
def mapBlock (d : Dinode) (fbn : ℕ) : Option (ℕ × Dinode × Image) :=
  if h : fbn < NDIRECT then
    if d.direct fbn h = 0 then
      some (s.freeblock, d.setAddr ⟨fbn, Nat.lt_succ_of_lt h⟩ s.freeblock, s.take)
    else some (d.direct fbn h, d, s)
  else
    let (d, s) := if d.indirect = 0 then (d.setAddr (Fin.last NDIRECT) s.freeblock, s.take) else
      (d, s)
    (s.rsect d.indirect).map fun indirect =>
      if indirect.addr (fbn - NDIRECT) = 0 then
        let indirect := indirect.setAddr (fbn - NDIRECT) s.freeblock
        (indirect.addr (fbn - NDIRECT), d, s.take.wsect d.indirect indirect)
      else (indirect.addr (fbn - NDIRECT), d, s)

/-- The loop of `iappend`; `p` are the bytes left. -/
def iappendLoop (s : Image) (d : Dinode) (off : ℕ) (p : List UInt8) : Option (Dinode × ℕ × Image) :=
  if p = [] then some (d, off, s)
  else
    let fbn := off / BSIZE
    if fbn < MAXFILE then
      match s.mapBlock d fbn with
      | none => none
      | some (x, d, s) =>
        let n1 := min p.length ((fbn + 1) * BSIZE - off)
        match s.rsect x with
        | none => none
        | some buf =>
          iappendLoop (s.wsect x (blit buf (off - fbn * BSIZE) n1 fun i => p.getD i 0)) d (off + n1)
            (p.drop n1)
    else none
termination_by p.length
decreasing_by
  have hpos : 0 < p.length := List.length_pos_iff.2 (by assumption)
  have hlt : off < (off / BSIZE + 1) * BSIZE :=
    Nat.lt_mul_of_div_lt (Nat.lt_succ_self _) (by decide)
  rw [List.length_drop]
  omega

def iappend (inum : ℕ) (p : List UInt8) : Option Image :=
  (s.rinode inum).bind fun d =>
    (s.iappendLoop d d.size p).bind fun (d, off, s) => s.winode inum { d with size := off }

def addFile (f : File) : Option Image :=
  if slash ∈ f.name then none
  else
    (s.ialloc T_FILE).bind fun (inum, s) =>
      (s.iappend ROOTINO (Dirent.bytes ⟨inum, f.stripped⟩)).bind fun s =>
        f.reads.foldlM (fun s r => s.iappend inum r) s

/-- The image before the first inode: zeroes and the superblock. -/
def start : Image :=
  Image.wsect { disk := fun _ => zeroes, size := FSSIZE, freeinode := 1, freeblock := nmeta } 1
    (Superblock.put zeroes sb)

/-- The image with the empty root directory. -/
def root : Option Image :=
  (start.ialloc T_DIR).bind fun (rootino, s) =>
    if rootino = ROOTINO then
      (s.iappend rootino (Dirent.bytes ⟨rootino, dot⟩)).bind fun s =>
        s.iappend rootino (Dirent.bytes ⟨rootino, dotdot⟩)
    else none

/-- The inode with its size rounded up. -/
def roundSize (din : Dinode) : Dinode := { din with size := (din.size / BSIZE + 1) * BSIZE }

/-- `fix size of root inode dir`, and the free map. -/
def finish : Option Image :=
  (s.rinode ROOTINO).bind fun din => (s.winode ROOTINO (roundSize din)).bind fun s =>
    s.balloc s.freeblock

end Image

/-- `main`: the image, if `mkfs` exits with status 0. -/
def mkfs (files : List File) : Option Image :=
  Image.root.bind fun s => (files.foldlM Image.addFile s).bind Image.finish

end Xv6.Mkfs
