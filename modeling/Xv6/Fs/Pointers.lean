import Xv6.Fs.Format
import Xv6.Lib.Exact

/-!
# The blocks of an inode

`d.block disk bn` is the address of block `bn` of the inode `d`, found in `addrs` or in the indirect
block, and `0` if there is none.  `d.ptr disk k` numbers all blocks of the inode: place `MAXFILE` is
the indirect block.  Each lemma says what one store does to these places.
-/

namespace Xv6

open LittleEndian Function Prod

namespace Dinode

def setAddr (d : Dinode) (i : Fin (NDIRECT + 1)) (v : ℕ) :
    Dinode := { d with addrs := update d.addrs i v }

/-- `addrs[NDIRECT]`. -/
def indirect (d : Dinode) : ℕ := d.addrs (Fin.last NDIRECT)

/-- `addrs[bn]`. -/
def direct (d : Dinode) (bn : ℕ) (h : bn < NDIRECT) : ℕ := d.addrs ⟨bn, Nat.lt_succ_of_lt h⟩

def block (disk : Disk) (d : Dinode) (bn : ℕ) : ℕ :=
  if h : bn < NDIRECT then d.direct bn h
  else if bn < MAXFILE ∧ d.indirect ≠ 0 then (disk d.indirect).addr (bn - NDIRECT)
  else 0

/-- The blocks of the inode, with the indirect block in place `MAXFILE`. -/
def ptr (disk : Disk) (d : Dinode) (k : ℕ) : ℕ := if k = MAXFILE then d.indirect else d.block disk k

variable {disk disk' : Disk} {d : Dinode} {bn k b v : ℕ}

theorem block_direct (h : bn < NDIRECT) : d.block disk bn = d.direct bn h := dif_pos h

theorem block_indirect (h : NDIRECT ≤ bn) (hbn : bn < MAXFILE) (hd : d.indirect ≠ 0) :
    d.block disk bn = (disk d.indirect).addr (bn - NDIRECT) := by
  rw [block, dif_neg (not_lt.2 h), if_pos ⟨hbn, hd⟩]

theorem block_of_indirect_eq_zero (h : NDIRECT ≤ bn) (hd : d.indirect = 0) :
    d.block disk bn = 0 := by
  rw [block, dif_neg (not_lt.2 h), if_neg (fun hc => hc.2 hd)]

theorem block_of_le (h : MAXFILE ≤ bn) : d.block disk bn = 0 := by
  have hn : ¬ bn < NDIRECT := by
    simp only [MAXFILE, NDIRECT] at *
    omega
  rw [block, dif_neg hn, if_neg (fun hc => not_lt.2 h hc.1)]

theorem ptr_of_ne (h : k ≠ MAXFILE) : d.ptr disk k = d.block disk k := if_neg h

theorem ptr_maxfile : d.ptr disk MAXFILE = d.indirect := if_pos rfl

theorem ptr_of_lt (h : k < MAXFILE) : d.ptr disk k = d.block disk k := ptr_of_ne (ne_of_lt h)

theorem ptr_of_gt (h : MAXFILE < k) : d.ptr disk k = 0 := by
  rw [ptr_of_ne (ne_of_gt h), block_of_le h.le]

theorem block_zero : zero.block disk k = 0 := by
  unfold block
  split_ifs with h₁ h₂
  · rfl
  · exact absurd rfl h₂.2
  · rfl

theorem ptr_zero : zero.ptr disk k = 0 := by
  unfold ptr
  split_ifs
  · rfl
  · exact block_zero

theorem indirect_setAddr_direct (h : bn < NDIRECT) (v : ℕ) :
    (d.setAddr ⟨bn, Nat.lt_succ_of_lt h⟩ v).indirect = d.indirect := by
  refine update_of_ne ?_ ..
  intro he
  have := congrArg Fin.val he
  simp only [Fin.val_last] at this
  omega

theorem indirect_setAddr_last (d : Dinode) (v : ℕ) :
    (d.setAddr (Fin.last NDIRECT) v).indirect = v := by
  simp only [indirect, setAddr, update_self]

theorem direct_setAddr_last (h : bn < NDIRECT) (v : ℕ) :
    (d.setAddr (Fin.last NDIRECT) v).direct bn h = d.direct bn h := by
  refine update_of_ne ?_ ..
  intro he
  have := congrArg Fin.val he
  simp only [Fin.val_last] at this
  omega

theorem direct_setAddr (h : bn < NDIRECT) (hk : k < NDIRECT) (v : ℕ) :
    (d.setAddr ⟨bn, Nat.lt_succ_of_lt h⟩ v).direct k hk = if k = bn then v else d.direct k hk := by
  split_ifs with he
  · subst he
    exact update_self ..
  · refine update_of_ne ?_ ..
    exact fun hc => he (congrArg Fin.val hc)

/-- The blocks depend on the disk through the indirect block only. -/
theorem ptr_congr (h : d.indirect ≠ 0 → disk' d.indirect = disk d.indirect) (k : ℕ) :
    d.ptr disk' k = d.ptr disk k := by
  unfold ptr block
  split_ifs with h₁ h₂ h₃
  · rfl
  · rfl
  · rw [h h₃.2]
  · rfl

theorem block_congr (h : d.indirect ≠ 0 → disk' d.indirect = disk d.indirect) (k : ℕ) :
    d.block disk' k = d.block disk k := by
  by_cases hk : k = MAXFILE
  · rw [block_of_le hk.ge, block_of_le hk.ge]
  · rw [← ptr_of_ne hk, ← ptr_of_ne hk, ptr_congr h]

theorem ptr_of_addrs {d' : Dinode} (h : d'.addrs = d.addrs) (k : ℕ) :
    d'.ptr disk k = d.ptr disk k := by
  unfold ptr block direct indirect
  rw [h]

theorem block_of_addrs {d' : Dinode} (h : d'.addrs = d.addrs) (k : ℕ) :
    d'.block disk k = d.block disk k := by
  unfold block direct indirect
  rw [h]

theorem ptr_setAddr_direct (h : bn < NDIRECT) (v k : ℕ) :
    (d.setAddr ⟨bn, Nat.lt_succ_of_lt h⟩ v).ptr disk k = if k = bn then v else d.ptr disk k := by
  have hne : bn ≠ MAXFILE := by
    simp only [MAXFILE, NDIRECT] at *
    omega
  unfold ptr block
  rw [indirect_setAddr_direct h]
  by_cases hk : k = MAXFILE
  · rw [if_pos hk, if_pos hk, if_neg (by rw [hk]; exact hne.symm)]
  · rw [if_neg hk, if_neg hk]
    by_cases hd : k < NDIRECT
    · rw [dif_pos hd, dif_pos hd, direct_setAddr h hd]
    · rw [dif_neg hd, dif_neg hd, if_neg (by omega : ¬ k = bn)]

theorem ptr_setAddr_last (disk : Disk) (hd : d.indirect = 0) (hb : disk' b = zeroes) (k : ℕ) :
    (d.setAddr (Fin.last NDIRECT) b).ptr disk' k = if k = MAXFILE then b else d.ptr disk k := by
  unfold ptr block
  rw [indirect_setAddr_last]
  by_cases hk : k = MAXFILE
  · rw [if_pos hk, if_pos hk]
  · rw [if_neg hk, if_neg hk, if_neg hk]
    by_cases hn : k < NDIRECT
    · rw [dif_pos hn, dif_pos hn, direct_setAddr_last]
    · rw [dif_neg hn, dif_neg hn, hb, Block.addr_zeroes, ite_self, if_neg (fun hc => hc.2 hd)]

theorem ptr_setEntry (hn : NDIRECT ≤ bn) (hbn : bn < MAXFILE) (hd : d.indirect ≠ 0)
    (hv : v < 2 ^ 32) (hdisk : disk' d.indirect = (disk d.indirect).setAddr (bn - NDIRECT) v)
    (k : ℕ) : d.ptr disk' k = if k = bn then v else d.ptr disk k := by
  have hlt := sub_ndirect_lt hbn
  by_cases hk : k = MAXFILE
  · rw [if_neg (by omega), hk, ptr_maxfile, ptr_maxfile]
  · rw [ptr_of_ne hk, ptr_of_ne hk]
    by_cases hkn : k < NDIRECT
    · rw [if_neg (by omega), block_direct hkn, block_direct hkn]
    · by_cases hkm : k < MAXFILE
      · rw [block_indirect (by omega) hkm hd, block_indirect (by omega) hkm hd, hdisk]
        split_ifs with he
        · rw [he, Block.addr_setAddr_self hlt hv]
        · exact Block.addr_setAddr_of_ne (by omega)
      · rw [if_neg (by omega), block_of_le (by omega), block_of_le (by omega)]

end Dinode

/-- The blocks of all inodes: place `k` of inode `i`. -/
def tree (disk : Disk) (D : ℕ → Dinode) (a : ℕ × ℕ) : ℕ := (D a.1).ptr disk a.2

section tree

variable {disk disk' : Disk} {D : ℕ → Dinode} {U : Set ℕ} {i bn b v : ℕ}

theorem tree_update_of_ne {d : Dinode} {a : ℕ × ℕ} (h : a.1 ≠ i) :
    tree disk (update D i d) a = tree disk D a := by
  rw [tree, update_of_ne h]
  rfl

theorem tree_update_self (d : Dinode) (k : ℕ) : tree disk (update D i d) (i, k) = d.ptr disk k := by
  rw [tree, update_self]

theorem tree_congr (h : ∀ i, (D i).indirect ≠ 0 → disk' (D i).indirect = disk (D i).indirect)
    (a : ℕ × ℕ) : tree disk' D a = tree disk D a :=
  Dinode.ptr_congr (h a.1) a.2

theorem indirect_inj (h : Exact (tree disk D) U) {j : ℕ} (hi : (D i).indirect ≠ 0)
    (he : (D i).indirect = (D j).indirect) : i = j := by
  have := h.inj (i, MAXFILE) (j, MAXFILE) (by rw [tree, Dinode.ptr_maxfile]; exact hi)
    (by rw [tree, tree, Dinode.ptr_maxfile, Dinode.ptr_maxfile]; exact he)
  exact congrArg fst this

theorem block_ne_indirect (h : Exact (tree disk D) U) (hb : (D i).block disk bn ≠ 0) (j : ℕ) :
    (D i).block disk bn ≠ (D j).indirect := by
  intro he
  have hlt : bn < MAXFILE := by
    by_contra hc
    exact hb (Dinode.block_of_le (not_lt.1 hc))
  have := h.inj (i, bn) (j, MAXFILE) (by rw [tree, Dinode.ptr_of_lt hlt]; exact hb)
    (by rw [tree, tree, Dinode.ptr_of_lt hlt, Dinode.ptr_maxfile]; exact he)
  exact ne_of_lt hlt (congrArg snd this)

theorem block_inj (h : Exact (tree disk D) U) {j bm : ℕ} (hb : (D i).block disk bn ≠ 0)
    (he : (D i).block disk bn = (D j).block disk bm) : i = j ∧ bn = bm := by
  have hlt : ∀ {i bn}, (D i).block disk bn ≠ 0 → bn < MAXFILE := by
    intro i bn hb
    by_contra hc
    exact hb (Dinode.block_of_le (not_lt.1 hc))
  have hn := hlt hb
  have hm := hlt (he ▸ hb)
  have := h.inj (i, bn) (j, bm) (by rw [tree, Dinode.ptr_of_lt hn]; exact hb)
    (by rw [tree, tree, Dinode.ptr_of_lt hn, Dinode.ptr_of_lt hm]; exact he)
  exact ⟨congrArg fst this, congrArg snd this⟩

theorem tree_direct (disk : Disk) (h : bn < NDIRECT) (v : ℕ) (a : ℕ × ℕ) :
    tree disk (update D i ((D i).setAddr ⟨bn, Nat.lt_succ_of_lt h⟩ v)) a =
      if a = (i, bn) then v else tree disk D a := by
  obtain ⟨j, k⟩ := a
  by_cases hj : j = i
  · subst hj
    rw [tree_update_self, Dinode.ptr_setAddr_direct h]
    simp only [mk.injEq, true_and, tree]
  · rw [tree_update_of_ne hj, if_neg (fun hc => hj (congrArg fst hc))]

theorem tree_indirect (hd : (D i).indirect = 0) (hb : disk b = LittleEndian.zeroes) (a : ℕ × ℕ) :
    tree disk (update D i ((D i).setAddr (Fin.last NDIRECT) b)) a =
      if a = (i, MAXFILE) then b else tree disk D a := by
  obtain ⟨j, k⟩ := a
  by_cases hj : j = i
  · subst hj
    rw [tree_update_self, Dinode.ptr_setAddr_last disk hd hb]
    simp only [mk.injEq, true_and, tree]
  · rw [tree_update_of_ne hj, if_neg (fun hc => hj (congrArg fst hc))]

theorem tree_entry (h : Exact (tree disk D) U) (hn : NDIRECT ≤ bn) (hbn : bn < MAXFILE)
    (hd : (D i).indirect ≠ 0) (hv : v < 2 ^ 32) (a : ℕ × ℕ) :
    tree (update disk (D i).indirect ((disk (D i).indirect).setAddr (bn - NDIRECT) v)) D a =
      if a = (i, bn) then v else tree disk D a := by
  obtain ⟨j, k⟩ := a
  by_cases hj : j = i
  · subst hj
    rw [tree, Dinode.ptr_setEntry hn hbn hd hv (update_self ..)]
    simp only [mk.injEq, true_and, tree]
  · rw [if_neg (fun hc => hj (congrArg fst hc))]
    refine Dinode.ptr_congr (fun hne => update_of_ne ?_ ..) k
    exact fun he => hj (indirect_inj h hne he)

end tree

end Xv6
