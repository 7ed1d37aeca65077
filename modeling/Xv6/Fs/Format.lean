import Xv6.Param
import Xv6.Fs.Path
import Xv6.Lib.Bytes
import Mathlib.Logic.Function.Basic
import Mathlib.Data.Fin.VecNotation

/-!
# The on-disk format

The structures of `fs.h` as the bytes of a block: the superblock, the inodes (`struct dinode`, 64
bytes), the block numbers of an indirect block, the bits of the free map and the entries of a
directory (`struct dirent`, 16 bytes).
-/

namespace Xv6

open LittleEndian Function Nat

abbrev Block := Buf BSIZE

abbrev Disk := ℕ → Block

def T_DIR : ℕ := 1

def T_FILE : ℕ := 2

def T_DEV : ℕ := 3

/-! ## The superblock -/

structure Superblock where
  size : ℕ
  nblocks : ℕ
  ninodes : ℕ
  nlog : ℕ
  logstart : ℕ
  inodestart : ℕ
  bmapstart : ℕ
  deriving DecidableEq

/-- Bytes of a `struct superblock`. -/
def SUPERBLOCK : ℕ := 28

/-- The fields in the order of `struct superblock`. -/
def Superblock.field (sb : Superblock) : Fin 7 → ℕ :=
  ![sb.size, sb.nblocks, sb.ninodes, sb.nlog, sb.logstart, sb.inodestart, sb.bmapstart]

def Superblock.byte (sb : Superblock) (j : ℕ) : UInt8 :=
  if h : j / 4 < 7 then byteOf (sb.field ⟨j / 4, h⟩) (j % 4) else 0

variable (b : Block) (sb : Superblock)

def Superblock.get : Superblock where
  size := getLE b 0 4
  nblocks := getLE b 4 4
  ninodes := getLE b 8 4
  nlog := getLE b 12 4
  logstart := getLE b 16 4
  inodestart := getLE b 20 4
  bmapstart := getLE b 24 4

/-- `memmove(buf, &sb, sizeof(sb))`. -/
def Superblock.put : Block := blit b 0 SUPERBLOCK sb.byte

theorem getLE_putSuperblock (i : Fin 7) :
    getLE (Superblock.put b sb) (4 * i) 4 = sb.field i % 2 ^ 32 := by
  refine getLE_blit (zero_le _) (by have := i.isLt; simp only [SUPERBLOCK]; omega)
    (by have := i.isLt; simp only [BSIZE]; omega) fun k hk => ?_
  have hi : (4 * i.val - 0 + k) / 4 = i.val := by omega
  have hk' : (4 * i.val - 0 + k) % 4 = k := by omega
  simp only [Superblock.byte, hi, hk', i.isLt, dif_pos]

theorem Superblock.get_put (h : ∀ i, sb.field i < 2 ^ 32) :
    Superblock.get (Superblock.put b sb) = sb := by
  have hf : ∀ i : Fin 7, getLE (Superblock.put b sb) (4 * i) 4 = sb.field i := fun i => by
    rw [getLE_putSuperblock, mod_eq_of_lt (h i)]
  unfold Superblock.get
  have h₀ := hf 0
  have h₁ := hf 1
  have h₂ := hf 2
  have h₃ := hf 3
  have h₄ := hf 4
  have h₅ := hf 5
  have h₆ := hf 6
  simp only [Fin.isValue, Fin.coe_ofNat_eq_mod] at h₀ h₁ h₂ h₃ h₄ h₅ h₆
  norm_num at h₀ h₁ h₂ h₃ h₄ h₅ h₆
  rw [h₀, h₁, h₂, h₃, h₄, h₅, h₆]
  rfl

/-! ## Inodes -/

/-- Bytes of a `struct dinode`. -/
def DINODE : ℕ := 64

def IPB : ℕ := BSIZE / DINODE

structure Dinode where
  type : ℕ
  major : ℕ
  minor : ℕ
  nlink : ℕ
  size : ℕ
  addrs : Fin (NDIRECT + 1) → ℕ

namespace Dinode

def zero : Dinode := ⟨0, 0, 0, 0, 0, fun _ => 0⟩

/-- The values fit into the fields. -/
structure Fits (d : Dinode) : Prop where
  type : d.type < 2 ^ 16
  major : d.major < 2 ^ 16
  minor : d.minor < 2 ^ 16
  nlink : d.nlink < 2 ^ 16
  size : d.size < 2 ^ 32
  addrs : ∀ i, d.addrs i < 2 ^ 32

theorem fits_zero : zero.Fits := ⟨Nat.two_pow_pos 16, Nat.two_pow_pos 16, Nat.two_pow_pos 16,
    Nat.two_pow_pos 16,
  Nat.two_pow_pos 32, fun _ => Nat.two_pow_pos 32⟩

def byte (d : Dinode) (j : ℕ) : UInt8 :=
  if j < 2 then byteOf d.type j
  else if j < 4 then byteOf d.major (j - 2)
  else if j < 6 then byteOf d.minor (j - 4)
  else if j < 8 then byteOf d.nlink (j - 6)
  else if j < 12 then byteOf d.size (j - 8)
  else if h : (j - 12) / 4 < NDIRECT + 1 then byteOf (d.addrs ⟨(j - 12) / 4, h⟩) ((j - 12) % 4)
  else 0

def get (k : ℕ) : Dinode where
  type := getLE b (DINODE * k) 2
  major := getLE b (DINODE * k + 2) 2
  minor := getLE b (DINODE * k + 4) 2
  nlink := getLE b (DINODE * k + 6) 2
  size := getLE b (DINODE * k + 8) 4
  addrs i := getLE b (DINODE * k + 12 + 4 * i) 4

/-- `*dip = *ip`. -/
def put (k : ℕ) (d : Dinode) : Block := blit b (DINODE * k) DINODE d.byte

theorem fits_get (k : ℕ) : (get b k).Fits where
  type := getLE_lt b _ 2
  major := getLE_lt b _ 2
  minor := getLE_lt b _ 2
  nlink := getLE_lt b _ 2
  size := getLE_lt b _ 4
  addrs _ := getLE_lt b _ 4

theorem get_zeroes (k : ℕ) : get zeroes k = zero := by
  simp only [get, zero, getLE_zeroes]

theorem getLE_put {b : Block} {k o w v : ℕ} {d : Dinode} (hk : k < IPB) (ho : o + w ≤ DINODE)
    (hv : v < 256 ^ w) (hf : ∀ i < w, d.byte (o + i) = byteOf v i) :
    getLE (put b k d) (DINODE * k + o) w = v := by
  have hb : DINODE * k + DINODE ≤ BSIZE := by
    simp only [IPB, DINODE, BSIZE] at *
    omega
  rw [put, getLE_blit (v := v) (le_add_right _ _) (by omega) (by omega) fun i hi => ?_,
    mod_eq_of_lt hv]
  rw [add_tsub_cancel_left]
  exact hf i hi

theorem get_put {b : Block} {k : ℕ} {d : Dinode} (hk : k < IPB) (hd : d.Fits) :
    get (put b k d) k = d := by
  have htype : getLE (put b k d) (DINODE * k) 2 = d.type :=
    getLE_put (o := 0) hk (by decide) hd.type fun i hi => by
      rw [zero_add, byte, if_pos hi]
  have hmajor : getLE (put b k d) (DINODE * k + 2) 2 = d.major :=
    getLE_put hk (by decide) hd.major fun i hi => by
      rw [byte, if_neg (by omega), if_pos (by omega), add_tsub_cancel_left]
  have hminor : getLE (put b k d) (DINODE * k + 4) 2 = d.minor :=
    getLE_put hk (by decide) hd.minor fun i hi => by
      rw [byte, if_neg (by omega), if_neg (by omega), if_pos (by omega), add_tsub_cancel_left]
  have hnlink : getLE (put b k d) (DINODE * k + 6) 2 = d.nlink :=
    getLE_put hk (by decide) hd.nlink fun i hi => by
      rw [byte, if_neg (by omega), if_neg (by omega), if_neg (by omega), if_pos (by omega),
        add_tsub_cancel_left]
  have hsize : getLE (put b k d) (DINODE * k + 8) 4 = d.size :=
    getLE_put hk (by decide) hd.size fun i hi => by
      rw [byte, if_neg (by omega), if_neg (by omega), if_neg (by omega), if_neg (by omega),
        if_pos (by omega),
        add_tsub_cancel_left]
  have haddrs : ∀ i : Fin (NDIRECT + 1), getLE (put b k d) (DINODE * k + 12 + 4 * i) 4 = d.addrs
    i := by
    intro i
    have hi : i.val < 13 := i.isLt
    rw [add_assoc]
    refine getLE_put hk (by simp only [DINODE]; omega) (hd.addrs i) fun j hj => ?_
    have hdiv : (12 + 4 * i.val + j - 12) / 4 = i.val := by omega
    have hmod : (12 + 4 * i.val + j - 12) % 4 = j := by omega
    rw [byte, if_neg (by omega), if_neg (by omega), if_neg (by omega), if_neg (by omega),
      if_neg (by omega)]
    simp only [hdiv, hmod, i.isLt, dif_pos]
  unfold get
  rw [htype, hmajor, hminor, hnlink, hsize]
  exact congrArg (Dinode.mk _ _ _ _ _) (funext haddrs)

theorem get_put_of_ne {b : Block} {k k' : ℕ} {d : Dinode} (h : k' ≠ k) :
    get (put b k d) k' = get b k' := by
  have hdis : ∀ o w, o + w ≤ DINODE →
    getLE (put b k d) (DINODE * k' + o) w = getLE b (DINODE * k' + o) w := by
    intro o w ho
    refine getLE_blit_of_disjoint b _ ?_
    simp only [DINODE] at *
    omega
  unfold get
  have h₀ := hdis 0 2 (by decide)
  rw [add_zero] at h₀
  rw [h₀, hdis 2 2 (by decide), hdis 4 2 (by decide), hdis 6 2 (by decide), hdis 8 4 (by decide)]
  refine congrArg (Dinode.mk _ _ _ _ _) (funext fun i => ?_)
  have hi : i.val < 13 := i.isLt
  have := hdis (12 + 4 * i) 4 (by simp only [DINODE]; omega)
  rwa [← add_assoc] at this

end Dinode

def IBLOCK (i : ℕ) (sb : Superblock) : ℕ := i / IPB + sb.inodestart

def Disk.dinode (disk : Disk) (sb : Superblock) (inum : ℕ) : Dinode :=
  Dinode.get (disk (IBLOCK inum sb)) (inum % IPB)

def Disk.putDinode (disk : Disk) (sb : Superblock) (inum : ℕ) (d : Dinode) : Disk :=
  update disk (IBLOCK inum sb) (Dinode.put (disk (IBLOCK inum sb)) (inum % IPB) d)

theorem Disk.dinode_congr {disk disk' : Disk} {sb : Superblock} {inum : ℕ}
    (h : disk' (IBLOCK inum sb) = disk (IBLOCK inum sb)) :
    disk'.dinode sb inum = disk.dinode sb inum := by
  rw [Disk.dinode, h]
  rfl

theorem Disk.dinode_putDinode_self {disk : Disk} {sb : Superblock} {inum : ℕ} {d : Dinode}
    (hd : d.Fits) : (disk.putDinode sb inum d).dinode sb inum = d := by
  rw [Disk.dinode, Disk.putDinode, update_self, Dinode.get_put (mod_lt _ (by decide)) hd]

theorem Disk.dinode_putDinode_of_ne {disk : Disk} {sb : Superblock} {inum i : ℕ} (d : Dinode)
    (h : i ≠ inum) : (disk.putDinode sb inum d).dinode sb i = disk.dinode sb i := by
  by_cases hb : IBLOCK i sb = IBLOCK inum sb
  · have hne : i % IPB ≠ inum % IPB := by
      simp only [IBLOCK, IPB, BSIZE, DINODE] at *
      omega
    rw [Disk.dinode, Disk.putDinode, hb, update_self, Dinode.get_put_of_ne hne, Disk.dinode, hb]
  · exact Disk.dinode_congr (update_of_ne hb ..)

theorem Disk.putDinode_of_ne {disk : Disk} {sb : Superblock} {inum b : ℕ} (d : Dinode)
    (h : b ≠ IBLOCK inum sb) : disk.putDinode sb inum d b = disk b :=
  update_of_ne h ..

/-! ## Indirect blocks and the free map -/

/-- `a[i]`, with `a` an indirect block. -/
def Block.addr (i : ℕ) : ℕ := getLE b (4 * i) 4

/-- `a[i] = v`. -/
def Block.setAddr (i v : ℕ) : Block := setLE b (4 * i) 4 v

theorem Block.addr_zeroes (i : ℕ) : Block.addr zeroes i = 0 := getLE_zeroes ..

theorem Block.addr_setAddr_self {b : Block} {i v : ℕ} (hi : i < NINDIRECT) (hv : v < 2 ^ 32) :
    (b.setAddr i v).addr i = v := by
  have h : 4 * i + 4 ≤ BSIZE := by
    simp only [NINDIRECT, BSIZE] at *
    omega
  rw [Block.addr, Block.setAddr, getLE_setLE b h]
  exact mod_eq_of_lt hv

theorem Block.addr_setAddr_of_ne {b : Block} {i j v : ℕ} (h : j ≠ i) :
    (b.setAddr i v).addr j = b.addr j :=
  getLE_setLE_of_disjoint b (by omega) v

def BPB : ℕ := BSIZE * 8

/-- Block of the free map with the bit of block `b`. -/
def BBLOCK (b : ℕ) (sb : Superblock) : ℕ := b / BPB + sb.bmapstart

/-- The bit of block `b`. -/
def Disk.marked (disk : Disk) (sb : Superblock) (b : ℕ) : Bool := bit (disk (BBLOCK b sb)) (b % BPB)

/-! ## Directory entries -/

structure Dirent where
  inum : ℕ
  name : Name
  deriving DecidableEq

/-- Bytes of a `struct dirent`. -/
def DIRENT : ℕ := 16

/-- The bytes of an entry, with the name as `strncpy` stores it. -/
def Dirent.bytes (de : Dirent) : List UInt8 :=
  byteOf de.inum 0 :: byteOf de.inum 1 ::
    (de.name.take DIRSIZ ++ List.replicate (DIRSIZ - de.name.length) 0)

def Dirent.ofBytes (l : List UInt8) : Dirent where
  inum := (l.getD 0 0).toNat + 256 * (l.getD 1 0).toNat
  name := ((l.drop 2).take DIRSIZ).takeWhile (· != 0)

theorem Dirent.length_bytes (de : Dirent) : de.bytes.length = DIRENT := by
  simp only [Dirent.bytes, List.length_cons, List.length_append, List.length_take,
    List.length_replicate, DIRSIZ, DIRENT]
  omega

theorem Dirent.inum_ofBytes_bytes {de : Dirent} (h : de.inum < 2 ^ 16) :
    (ofBytes de.bytes).inum = de.inum := by
  have h₀ : (byteOf de.inum 0).toNat = de.inum % 256 := by simp [byteOf]
  have h₁ : (byteOf de.inum 1).toNat = de.inum / 256 % 256 := by simp [byteOf]
  show (byteOf de.inum 0).toNat + 256 * (byteOf de.inum 1).toNat = de.inum
  omega

theorem Dirent.name_ofBytes_bytes {de : Dirent} (h : (0 : UInt8) ∉ de.name) :
    (ofBytes de.bytes).name = de.name.take DIRSIZ := by
  have hlen : (de.name.take DIRSIZ ++ List.replicate (DIRSIZ - de.name.length) (0 : UInt8)).length =
    DIRSIZ := by
    have := de.length_bytes
    simpa [Dirent.bytes, DIRENT, DIRSIZ] using this
  have hne : ∀ c ∈ de.name.take DIRSIZ, (c != 0) := by
    intro c hc
    have : c ≠ 0 := by
      rintro rfl
      exact h (List.mem_of_mem_take hc)
    simpa using this
  show (List.take DIRSIZ (de.name.take DIRSIZ ++ List.replicate (DIRSIZ - de.name.length)
    0)).takeWhile (· != 0) = _
  rw [List.take_of_length_le hlen.le, List.takeWhile_append_of_pos hne]
  cases DIRSIZ - de.name.length with
  | zero => simp
  | succ k => simp [List.replicate_succ]

end Xv6
