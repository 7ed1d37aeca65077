import Xv6.Mkfs.Files

/-!
# The consistency of the image

`Consistent disk` is what the kernel relies on, read from the bytes of the image: the blocks of the
inodes lie in the data area and are all different, the free map marks them and the meta blocks, the
entries of the directories name inodes that exist, and a file has all the blocks that its size says.
-/

namespace Xv6

open LittleEndian List Nat

/-- The inode number in the directory entry at offset `off`. -/
def Disk.direntInum (disk : Disk) (d : Dinode) (off : ℕ) : ℕ :=
  getLE (disk (d.block disk (off / BSIZE))) (off % BSIZE) 2

def Superblock.datastart (sb : Superblock) : ℕ := sb.bmapstart + sb.size / BPB + 1

structure Consistent (disk : Disk) (sb : Superblock) : Prop where
  range : ∀ i < sb.ninodes, ∀ k, (disk.dinode sb i).ptr disk k ≠ 0 →
    sb.datastart ≤ (disk.dinode sb i).ptr disk k ∧ (disk.dinode sb i).ptr disk k < sb.size
  distinct : ∀ i < sb.ninodes, ∀ i' < sb.ninodes, ∀ k k', (disk.dinode sb i).ptr disk k ≠ 0 →
    (disk.dinode sb i).ptr disk k = (disk.dinode sb i').ptr disk k' → i = i' ∧ k = k'
  bitmap : ∀ b < sb.size, disk.marked sb b ↔
    b < sb.datastart ∨ ∃ i < sb.ninodes, ∃ k, (disk.dinode sb i).ptr disk k = b ∧ b ≠ 0
  entries : ∀ i < sb.ninodes, (disk.dinode sb i).type = T_DIR →
    ∀ j, (j + 1) * DIRENT ≤ (disk.dinode sb i).size →
    disk.direntInum (disk.dinode sb i) (j * DIRENT) < sb.ninodes
  mapped : ∀ i < sb.ninodes, ∀ k, k * BSIZE < (disk.dinode sb i).size →
    (disk.dinode sb i).block disk k ≠ 0

namespace Mkfs

open Image

/-! ## The entries of the root directory -/

theorem getD_flatMap_bytes (l : List Dirent) {j i : ℕ} (hi : i < DIRENT) :
    (l.flatMap Dirent.bytes).getD (j * DIRENT + i) 0 = ((l[j]?).map fun e => e.bytes.getD i 0).getD
      0 := by
  induction l generalizing j with
  | nil => simp
  | cons e l ih =>
    rw [flatMap_cons]
    cases j with
    | zero =>
      rw [getD_append _ _ _ _ (by rw [Dirent.length_bytes]; omega)]
      simp
    | succ j =>
      have hge : e.bytes.length ≤ (j + 1) * DIRENT + i := by
        rw [Dirent.length_bytes, succ_mul]
        omega
      have hsub : (j + 1) * DIRENT + i - e.bytes.length = j * DIRENT + i := by
        rw [Dirent.length_bytes, succ_mul]
        omega
      rw [getD_append_right _ _ _ _ hge, hsub, ih]
      simp

theorem getLE_two {n : ℕ} (b : Buf n) (o : ℕ) :
    getLE b o 2 = (getByte b o).toNat + 256 * (getByte b (o + 1)).toNat := by
  simp [getLE]

theorem rootEntries_inum {files : List File} {e : Dirent} (h : e ∈ rootEntries files) :
    e.inum < files.length + 2 := by
  rcases mem_cons.1 h with rfl | h
  · exact (by decide : ROOTINO < 2).trans_le (le_add_left _ _)
  · rcases mem_cons.1 h with rfl | h
    · exact (by decide : ROOTINO < 2).trans_le (le_add_left _ _)
    · obtain ⟨k, hk, rfl⟩ := mem_mapIdx.1 h
      show k + 2 < files.length + 2
      omega

theorem Final.direntInum {s : Image} {D : ℕ → Dinode} {files : List File} (h : Final s D files)
    (hn : files.length + 2 < 2 ^ 16) {j : ℕ}
    (hb : (D ROOTINO).block s.disk (j * DIRENT / BSIZE) ≠ 0) :
    s.disk.direntInum (D ROOTINO) (j * DIRENT) = (((rootEntries files)[j]?).map Dirent.inum).getD
      0 := by
  have hB : BSIZE = 512 := rfl
  have hE : DIRENT = 16 := rfl
  have hdiv : (j * DIRENT + 1) / BSIZE = j * DIRENT / BSIZE := by
    rw [hB, hE]
    omega
  have hmod : (j * DIRENT + 1) % BSIZE = j * DIRENT % BSIZE + 1 := by
    rw [hB, hE]
    omega
  have h₀ := h.built.bytes ROOTINO (j * DIRENT) hb
  have h₁ := h.built.bytes ROOTINO (j * DIRENT + 1) (by rw [hdiv]; exact hb)
  rw [hdiv, hmod] at h₁
  rw [Disk.direntInum, getLE_two, h₀, h₁, contents_root, ← add_zero (j * DIRENT),
    getD_flatMap_bytes _ (by decide), add_zero, getD_flatMap_bytes _ (by decide)]
  cases he : (rootEntries files)[j]? with
  | none => rfl
  | some e =>
    have hlt : e.inum < 2 ^ 16 := (rootEntries_inum (mem_of_getElem? he)).trans hn
    exact Dirent.inum_ofBytes_bytes hlt

/-! ## The image -/

theorem Final.consistent {s : Image} {D : ℕ → Dinode} {files : List File} (h : Final s D files)
    (hn : files.length + 2 ≤ NINODES) (hmod : (files.length + 2) * DIRENT % BSIZE ≠ 0) :
    Consistent s.disk sb := by
  have hNI : NINODES ≤ NI := by decide
  have hN : NINODES = 200 := rfl
  have hds : sb.datastart = nmeta := by decide
  have hB : BSIZE = 512 := rfl
  have hE : DIRENT = 16 := rfl
  have hle := h.built.le
  have hD : ∀ i < sb.ninodes, s.disk.dinode sb i = D i := fun i hi => h.table i (hi.trans_le hNI)
  have htree : ∀ i k, (D i).ptr s.disk k = tree s.disk D (i, k) := fun _ _ => rfl
  have hinode : ∀ i k, (D i).ptr s.disk k ≠ 0 → i < sb.ninodes := by
    intro i k hne
    by_contra hc
    have hz : D i = Dinode.zero := h.zero i (.inr (hn.trans (not_lt.1 hc)))
    rw [hz] at hne
    exact hne Dinode.ptr_zero
  refine ⟨fun i hi k hne => ?_, fun i hi i' hi' k k' hne he => ?_, fun b hb => ?_,
    fun i hi ht j hj => ?_, fun i hi k hk => ?_⟩
  · rw [hD i hi] at hne ⊢
    rw [hds]
    have hlt := h.built.owns.tree_lt (a := (i, k)) hne
    exact ⟨hlt.1, hlt.2.trans_le hle⟩
  · rw [hD i hi] at hne he
    rw [hD i' hi'] at he
    have := h.built.owns.exact.inj (i, k) (i', k') hne he
    exact ⟨congrArg Prod.fst this, congrArg Prod.snd this⟩
  · have hb' : b < BPB := hb.trans (by decide)
    rw [h.marked b hb', hds, decide_eq_true_eq]
    constructor
    · intro hlt
      by_cases hm : b < nmeta
      · exact .inl hm
      · obtain ⟨hne, ⟨i, k⟩, hik⟩ := (h.built.owns.exact.mem_iff b).1 ⟨not_lt.1 hm, hlt⟩
        have hi : i < sb.ninodes := hinode i k (by rw [htree, hik]; exact hne)
        exact .inr ⟨i, hi, k, by rw [hD i hi, htree]; exact hik, hne⟩
    · rintro (hlt | ⟨i, hi, k, hik, hne⟩)
      · exact hlt.trans_le h.built.owns.nmeta_le
      · rw [hD i hi, htree] at hik
        have := (h.built.owns.tree_lt (a := (i, k)) (by rw [hik]; exact hne)).2
        rwa [hik] at this
  · -- the root is the only directory
    have hi1 : i = ROOTINO := by
      by_contra hne
      rw [hD i hi] at ht
      by_cases hz : i = 0 ∨ files.length + 2 ≤ i
      · rw [h.zero i hz] at ht
        exact absurd ht (by decide)
      · have hk := h.file (i - 2) (by rw [show ROOTINO = 1 from rfl] at hne; omega)
        rw [show i - 2 + 2 = i by rw [show ROOTINO = 1 from rfl] at hne; omega, ht] at hk
        exact absurd hk (by decide)
    subst hi1
    rw [hD ROOTINO hi, h.root_size, length_contents_root] at hj
    rw [hD ROOTINO hi]
    have hb : (D ROOTINO).block s.disk (j * DIRENT / BSIZE) ≠ 0 := by
      refine (h.built.mapped ROOTINO _ ?_).2 ?_
      · have hM : MAXFILE = 140 := rfl
        simp only [hB, hE] at hj ⊢
        omega
      · rw [length_contents_root]
        simp only [hB, hE] at hj hmod ⊢
        omega
    rw [h.direntInum (by omega) hb]
    cases he : (rootEntries files)[j]? with
    | none => exact (by decide : 0 < sb.ninodes)
    | some e =>
      have := rootEntries_inum (mem_of_getElem? he)
      show e.inum < NINODES
      omega
  · rw [hD i hi] at hk ⊢
    by_cases hi1 : i = ROOTINO
    · subst hi1
      rw [h.root_size, length_contents_root] at hk
      refine (h.built.mapped ROOTINO k ?_).2 ?_
      · have hM : MAXFILE = 140 := rfl
        simp only [hB, hE] at hk
        omega
      · rw [length_contents_root]
        simp only [hB, hE] at hk hmod ⊢
        omega
    · rw [h.file_size i hi1] at hk
      refine (h.built.mapped i k ?_).2 hk
      exact Nat.lt_of_mul_lt_mul_right (hk.trans_le (h.max i))

/-! ## When it is consistent -/

section

variable {s : Image} {D : ℕ → Dinode} {files : List File} (h : Final s D files)
  (hn : files.length + 2 ≤ NI) (hc : Consistent s.disk sb)

include h hn hc

/-- Block `(files + 2) * DIRENT / BSIZE` of the root directory is not mapped, and belongs to it if
the others are full. -/
theorem Final.root_not_full : (files.length + 2) * DIRENT % BSIZE ≠ 0 := by
  intro hmod
  have hD : s.disk.dinode sb ROOTINO = D ROOTINO := h.table ROOTINO (by decide)
  have hlen := length_contents_root files
  have hk : (files.length + 2) * DIRENT / BSIZE < MAXFILE :=
    (Nat.div_le_div_right (Nat.mul_le_mul_right _ hn)).trans_lt (by decide)
  have hb := hc.mapped ROOTINO (by decide) ((files.length + 2) * DIRENT / BSIZE) (by
    rw [hD, h.root_size, hlen]
    exact Nat.mul_lt_mul_of_pos_right (Nat.lt_succ_self _) (by decide))
  rw [hD, h.built.mapped ROOTINO _ hk, hlen] at hb
  have := Nat.div_add_mod ((files.length + 2) * DIRENT) BSIZE
  rw [hmod, mul_comm] at this
  omega

/-- The entry of the 199th file names an inode that does not exist. -/
theorem Final.enough_inodes : files.length < NINODES - 1 := by
  by_contra hge
  have hNI : NI = 208 := rfl
  have hN : NINODES = 200 := rfl
  have hB : BSIZE = 512 := rfl
  have hE : DIRENT = 16 := rfl
  have hD : s.disk.dinode sb ROOTINO = D ROOTINO := h.table ROOTINO (by decide)
  have hlen := length_contents_root files
  have hin := hc.entries ROOTINO (by decide) (by rw [hD]; exact h.root) NINODES (by
    rw [hD, h.root_size, hlen]
    simp only [hB, hE, hN]
    omega)
  have hb : (D ROOTINO).block s.disk (NINODES * DIRENT / BSIZE) ≠ 0 := by
    refine (h.built.mapped ROOTINO _ (by decide)).2 ?_
    rw [hlen, hN, hB, hE]
    omega
  rw [hD, h.direntInum (by omega) hb] at hin
  have hentry : (rootEntries files)[NINODES]? = some ⟨NINODES,
    (files.get ⟨198, by omega⟩).stripped⟩ := by
    show (files.mapIdx fun k f => (⟨k + 2, f.stripped⟩ : Dirent))[198]? = _
    rw [getElem?_mapIdx, getElem?_eq_getElem (by omega)]
    rfl
  rw [hentry] at hin
  exact absurd hin (lt_irrefl NINODES)

end

/-- An image that `mkfs` writes is consistent exactly if there are inodes for all files and the last
block of the root directory is not full. -/
theorem mkfs_consistent (files : List File) (hn : files.length ≤ 206) {img : Image}
    (h : mkfs files = some img) : Superblock.get (img.disk 1) = sb ∧
      (Consistent img.disk sb ↔ files.length < NINODES - 1 ∧
      (files.length + 2) * DIRENT % BSIZE ≠ 0) := by
  have hN : NINODES = 200 := rfl
  have hNI : files.length + 2 ≤ NI := Nat.add_le_add_right hn 2
  obtain ⟨-, D, hf⟩ := (mkfs_yields hNI).of_eq_some h
  exact ⟨hf.super, fun hc => ⟨hf.enough_inodes hNI hc, hf.root_not_full hNI hc⟩,
    fun hc => hf.consistent (by omega) hc.2⟩

/-- A file of 7000 bytes, which needs the indirect block. -/
def bigFile : File where
  name := [95, 98]
  reads := replicate 14 (replicate 500 7)
  name_nul := by decide
  reads_length r hr := by
    rw [eq_of_mem_replicate hr, length_replicate]
    decide

def smallFile : File where
  name := [97]
  reads := [[1, 2], [3]]
  name_nul := by decide
  reads_length := by decide

theorem bigFile_content : bigFile.content = replicate 7000 7 := flatten_replicate_replicate

theorem holds_two : Holds (contents [bigFile, smallFile]) := by
  have hbig : bigFile.content.length = 7000 := by rw [bigFile_content, length_replicate]
  refine holds_of_sum (by decide) ?_ ?_
  · rintro f (_ | ⟨_, _ | ⟨_, ⟨⟩⟩⟩)
    · rw [hbig]
      decide
    · decide
  · rw [map_cons, hbig]
    decide

theorem mkfs_consistent_two : ∃ img, mkfs [bigFile, smallFile] = some img ∧
    Superblock.get (img.disk 1) = sb ∧ Consistent img.disk sb := by
  obtain ⟨img, h, -⟩ := (mkfs_yields (by decide)).exists_some ⟨by decide, holds_two⟩
  obtain ⟨hsuper, hc⟩ := mkfs_consistent [bigFile, smallFile] (by decide) h
  exact ⟨img, h, hsuper, hc.2 (by decide)⟩

/-- Files without contents, named `A`, `B` and so on. -/
def letter (k : Fin 60) : File where
  name := [UInt8.ofNat (65 + k)]
  reads := []
  name_nul := by
    revert k
    decide
  reads_length := nofun

/-- Thirty files fill the first block of the root directory, and its size then says that it has a
second one. -/
theorem mkfs_inconsistent :
    ∃ img, mkfs ((range 30).map fun k => letter (Fin.ofNat 60 k)) = some img ∧
      ¬ Consistent img.disk sb := by
  have hholds : Holds (contents ((range 30).map fun k => letter (Fin.ofNat 60 k))) :=
    holds_of_empty (by decide) (by decide)
  obtain ⟨img, h, D, hf⟩ := (mkfs_yields (by decide)).exists_some ⟨by decide, hholds⟩
  exact ⟨img, h, fun hc => hf.root_not_full (by decide) hc (by decide)⟩

end Mkfs

end Xv6
