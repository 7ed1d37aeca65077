import Xv6.Mkfs.Mkfs
import Xv6.Lib.Fallible
import Mathlib.Order.Interval.Set.Basic
import Mathlib.Algebra.BigOperators.Group.Finset.Basic
import Mathlib.Algebra.Order.BigOperators.Group.Finset

/-!
# What `mkfs` has built

`Built s D c`: with the inodes `D`, the image holds the contents `c`.  The blocks of the inodes are
exactly those between `nmeta` and `freeblock`, each in one place; a file has the blocks that its
length needs; and the bytes are those of `c`, with zeroes behind the end.
-/

namespace Xv6.Mkfs

open LittleEndian Image Function Fallible Option Finset Fin

/-- The blocks that a file of `n` bytes takes, with the indirect block. -/
def need (n : ℕ) : ℕ := (n + BSIZE - 1) / BSIZE + if NDIRECT * BSIZE < n then 1 else 0

theorem need_eq (n : ℕ) : need n = (n + 511) / 512 + if 6144 < n then 1 else 0 := by
  have h : n + BSIZE - 1 = n + 511 := by
    simp only [BSIZE]
    omega
  rw [need, h]
  rfl

theorem need_mono {n m : ℕ} (h : n ≤ m) : need n ≤ need m := by
  rw [need_eq, need_eq]
  split_ifs <;> omega

/-! ## The blocks in use -/

/-- The blocks of the inodes are those taken from `freeblock`. -/
structure Owns (s : Image) (D : ℕ → Dinode) : Prop where
  exact : Exact (tree s.disk D) (Set.Ico nmeta s.freeblock)
  fresh : ∀ b, s.freeblock ≤ b → s.disk b = zeroes
  nmeta_le : nmeta ≤ s.freeblock

namespace Owns

variable {s : Image} {D : ℕ → Dinode} {i bn : ℕ}

theorem freeblock_ne_zero (h : Owns s D) : s.freeblock ≠ 0 := by
  have := h.nmeta_le
  have hpos : 0 < nmeta := by decide
  omega

theorem notMem (s : Image) : s.freeblock ∉ Set.Ico nmeta s.freeblock := fun h => lt_irrefl _ h.2

section

variable (h : Owns s D)

include h

theorem insert_Ico :
    insert s.freeblock (Set.Ico nmeta s.freeblock) = Set.Ico nmeta s.take.freeblock := by
  ext b
  have := h.nmeta_le
  simp only [Set.mem_insert_iff, Set.mem_Ico, Image.take]
  omega

theorem tree_lt {a : ℕ × ℕ} (ha : tree s.disk D a ≠ 0) :
    nmeta ≤ tree s.disk D a ∧ tree s.disk D a < s.freeblock := h.exact.mem ha

theorem indirect_lt (hi : (D i).indirect ≠ 0) :
    nmeta ≤ (D i).indirect ∧ (D i).indirect < s.freeblock := by
  have := h.tree_lt (a := (i, MAXFILE))
  rw [tree, Dinode.ptr_maxfile] at this
  exact this hi

theorem block_lt (hb : (D i).block s.disk bn ≠ 0) :
    nmeta ≤ (D i).block s.disk bn ∧ (D i).block s.disk bn < s.freeblock := by
  have hlt : bn < MAXFILE := by
    by_contra hc
    exact hb (Dinode.block_of_le (not_lt.1 hc))
  have := h.tree_lt (a := (i, bn))
  rw [tree, Dinode.ptr_of_lt hlt] at this
  exact this hb

theorem grow {disk' : Disk} {D' : ℕ → Dinode} {a : ℕ × ℕ} (ha : tree s.disk D a = 0)
    (htree : ∀ a', tree disk' D' a' = if a' = a then s.freeblock else tree s.disk D a')
    (hdisk : ∀ b, s.freeblock < b → disk' b = s.disk b) {size freeinode : ℕ} :
    Owns ⟨disk', size, freeinode, s.freeblock + 1⟩ D' where
  exact := by
    have := h.exact.add ha h.freeblock_ne_zero (notMem s) htree
    rw [h.insert_Ico] at this
    exact this
  fresh b hb := (hdisk b hb).trans (h.fresh b (Nat.le_of_succ_le hb))
  nmeta_le := Nat.le_succ_of_le h.nmeta_le

theorem direct (hbn : bn < NDIRECT) (hd : (D i).direct bn hbn = 0) :
    Owns s.take (update D i ((D i).setAddr ⟨bn, Nat.lt_succ_of_lt hbn⟩ s.freeblock)) := by
  refine h.grow (a := (i, bn)) ?_ (tree_direct s.disk hbn _) fun _ _ => rfl
  have hlt : bn < MAXFILE := by
    simp only [MAXFILE]
    omega
  rw [tree, Dinode.ptr_of_lt hlt, Dinode.block_direct hbn]
  exact hd

theorem indirect (hd : (D i).indirect = 0) :
    Owns s.take (update D i ((D i).setAddr (last NDIRECT) s.freeblock)) := by
  refine h.grow (a := (i, MAXFILE)) ?_ (tree_indirect hd (h.fresh _ le_rfl)) fun _ _ => rfl
  rw [tree, Dinode.ptr_maxfile]
  exact hd

theorem entry (hn : NDIRECT ≤ bn) (hbn : bn < MAXFILE) (hd : (D i).indirect ≠ 0)
    (hb : (D i).block s.disk bn = 0) (hv : s.freeblock < 2 ^ 32) :
    Owns (s.take.wsect (D i).indirect ((s.disk (D i).indirect).setAddr (bn - NDIRECT) s.freeblock))
      D := by
  refine h.grow (a := (i, bn)) ?_ (tree_entry h.exact hn hbn hd hv) fun b hlt => ?_
  · rw [tree, Dinode.ptr_of_lt hbn]
    exact hb
  · refine update_of_ne ?_ ..
    have := (h.indirect_lt hd).2
    omega

end

end Owns

/-! ## A block for the next bytes -/

def Bytes (disk : Disk) (D : ℕ → Dinode) (c : ℕ → List UInt8) : Prop :=
  ∀ i o, (D i).block disk (o / BSIZE) ≠ 0 →
    getByte (disk ((D i).block disk (o / BSIZE))) (o % BSIZE) = (c i).getD o 0

theorem block_of_tree {disk disk' : Disk} {D D' : ℕ → Dinode} {i k x : ℕ} (hk : k < MAXFILE)
    (h : ∀ a, tree disk' D' a = if a = (i, k) then x else tree disk D a) (j m : ℕ) :
    (D' j).block disk' m = if j = i ∧ m = k then x else (D j).block disk m := by
  by_cases hm : m < MAXFILE
  · have := h (j, m)
    simp only [tree, Dinode.ptr_of_lt hm, Prod.mk.injEq] at this
    exact this
  · have hmk : ¬ (j = i ∧ m = k) := fun hc => hm (hc.2 ▸ hk)
    rw [if_neg hmk, Dinode.block_of_le (not_lt.1 hm), Dinode.block_of_le (not_lt.1 hm)]

theorem Bytes.grow {disk disk' : Disk} {D D' : ℕ → Dinode} {c : ℕ → List UInt8} {i k x : ℕ}
    (h : Bytes disk D c) (hblock : ∀ j m, (D' j).block disk' m = if j = i ∧ m = k then x else
    (D j).block disk m) (hsame : ∀ j m, (D j).block disk m ≠ 0 →
    disk' ((D j).block disk m) = disk ((D j).block disk m)) (hx : disk' x = zeroes) (hlen :
    (c i).length ≤ k * BSIZE) : Bytes disk' D' c := by
  intro j o hb
  rw [hblock] at hb ⊢
  split_ifs with hjk
  · obtain ⟨rfl, hk⟩ := hjk
    have ho : (c j).length ≤ o := by
      simp only [BSIZE] at *
      omega
    rw [hx, getByte_zeroes, List.getD_eq_default _ _ ho]
  · rw [if_neg hjk] at hb
    rw [hsame j _ hb]
    exact h j o hb

/-- What `mapBlock` does for block `k` of inode `i`. -/
structure Grown (s : Image) (D : ℕ → Dinode) (c : ℕ → List UInt8) (i k : ℕ) (x : ℕ) (d' : Dinode)
(s' : Image) :
    Prop where
  owns : Owns s' (update D i d')
  bytes : Bytes s'.disk (update D i d') c
  ne_zero : x ≠ 0
  block : ∀ j m, (update D i d' j).block s'.disk m = if j = i ∧ m = k then x else
    (D j).block s.disk m
  indirect : d'.indirect ≠ 0 ↔ (D i).indirect ≠ 0 ∨ NDIRECT ≤ k
  fields : d' = { D i with addrs := d'.addrs }
  low : ∀ b < nmeta, s'.disk b = s.disk b
  size : s'.size = s.size
  freeinode : s'.freeinode = s.freeinode

/-- The blocks that `mapBlock` takes. -/
def taken (disk : Disk) (d : Dinode) (k : ℕ) : ℕ :=
  if d.block disk k ≠ 0 then 0 else if NDIRECT ≤ k ∧ d.indirect = 0 then 2 else 1

section mapBlock

variable {s : Image} {D : ℕ → Dinode} {c : ℕ → List UInt8} {i k : ℕ}

theorem mapBlock_mapped (h : Owns s D) (hsize : s.freeblock ≤ s.size) (hk : k < MAXFILE)
    (hb : (D i).block s.disk k ≠ 0) : s.mapBlock (D i) k = some ((D i).block s.disk k, D i, s) := by
  unfold mapBlock
  by_cases hd : k < NDIRECT
  · rw [Dinode.block_direct hd] at hb ⊢
    rw [dif_pos hd, if_neg hb]
  · have hind : (D i).indirect ≠ 0 :=
      fun hc => hb (Dinode.block_of_indirect_eq_zero (not_lt.1 hd) hc)
    rw [Dinode.block_indirect (not_lt.1 hd) hk hind] at hb ⊢
    have hlt : (D i).indirect < s.size := (h.indirect_lt hind).2.trans_le hsize
    rw [dif_neg hd]
    simp only [if_neg hind, rsect, if_pos hlt, map_some, if_neg hb]

theorem mapBlock_direct (hk : k < NDIRECT) (hd : (D i).direct k hk = 0) :
    s.mapBlock (D i) k = some (s.freeblock, (D i).setAddr ⟨k, Nat.lt_succ_of_lt hk⟩ s.freeblock,
      s.take) := by
  rw [mapBlock, dif_pos hk, if_pos hd]

theorem mapBlock_entry (h : Owns s D) (hsize : s.freeblock ≤ s.size) (hn : NDIRECT ≤ k)
    (hk : k < MAXFILE) (hind : (D i).indirect ≠ 0) (hb : (D i).block s.disk k = 0)
    (hv : s.freeblock < 2 ^ 32) : s.mapBlock (D i) k = some (s.freeblock, D i,
      s.take.wsect (D i).indirect ((s.disk (D i).indirect).setAddr (k - NDIRECT) s.freeblock)) := by
  have hlt : (D i).indirect < s.size := (h.indirect_lt hind).2.trans_le hsize
  have hi := sub_ndirect_lt hk
  rw [Dinode.block_indirect hn hk hind] at hb
  rw [mapBlock, dif_neg (not_lt.2 hn)]
  simp only [if_neg hind, rsect, if_pos hlt, map_some, if_pos hb, Block.addr_setAddr_self hi hv]

theorem mapBlock_indirect (h : Owns s D) (hn : NDIRECT ≤ k) (hk : k < MAXFILE)
    (hind : (D i).indirect = 0) (hlt : s.freeblock < s.size) (hv : s.freeblock + 1 < 2 ^ 32) :
    s.mapBlock (D i) k = some (s.freeblock + 1, (D i).setAddr (last NDIRECT) s.freeblock,
      s.take.take.wsect s.freeblock
      ((s.disk s.freeblock).setAddr (k - NDIRECT) (s.freeblock + 1))) := by
  have hi := sub_ndirect_lt hk
  have hz : (s.disk s.freeblock).addr (k - NDIRECT) = 0 := by
    rw [h.fresh _ le_rfl, Block.addr_zeroes]
  have hlt' : s.freeblock < s.take.size := hlt
  have hz' : (s.take.disk s.freeblock).addr (k - NDIRECT) = 0 := hz
  have hself := Block.addr_setAddr_self (b := s.disk s.freeblock) hi hv
  rw [mapBlock, dif_neg (not_lt.2 hn)]
  simp only [if_pos hind, rsect, Dinode.indirect_setAddr_last, if_pos hlt', map_some, if_pos hz']
  simp only [Image.take, hself]

theorem mapBlock_none (hn : NDIRECT ≤ k) (hind : (D i).indirect = 0) (hge : s.size ≤ s.freeblock) :
    s.mapBlock (D i) k = none := by
  have hlt : ¬ s.freeblock < s.take.size := not_lt.2 hge
  rw [mapBlock, dif_neg (not_lt.2 hn)]
  simp only [if_pos hind, rsect, Dinode.indirect_setAddr_last, if_neg hlt, map_none]

theorem Grown.mapped (h : Owns s D) (hbytes : Bytes s.disk D c) (hb : (D i).block s.disk k ≠ 0) :
    Grown s D c i k ((D i).block s.disk k) (D i) s := by
  have hself : update D i (D i) = D := update_eq_self ..
  refine ⟨hself.symm ▸ h, hself.symm ▸ hbytes, hb, fun j m => ?_, ?_, rfl, fun _ _ => rfl, rfl, rfl⟩
  · rw [hself]
    split_ifs with hjm
    · rw [hjm.1, hjm.2]
    · rfl
  · refine ⟨.inl, fun hor => hor.elim id fun hn hc => ?_⟩
    exact hb (Dinode.block_of_indirect_eq_zero hn hc)

theorem Grown.direct (h : Owns s D) (hbytes : Bytes s.disk D c) (hk : k < NDIRECT)
    (hd : (D i).direct k hk = 0) (hlen : (c i).length ≤ k * BSIZE) :
    Grown s D c i k s.freeblock ((D i).setAddr ⟨k, Nat.lt_succ_of_lt hk⟩ s.freeblock) s.take := by
  have hlt : k < MAXFILE := by
    simp only [MAXFILE]
    omega
  have hblock := block_of_tree hlt (tree_direct (D := D) (i := i) s.disk hk s.freeblock)
  refine ⟨h.direct hk hd, hbytes.grow hblock (fun _ _ _ => rfl) (h.fresh _ le_rfl) hlen,
    h.freeblock_ne_zero, hblock, ?_, rfl, fun _ _ => rfl, rfl, rfl⟩
  rw [Dinode.indirect_setAddr_direct hk]
  exact ⟨.inl, fun hor => hor.elim id fun hn => absurd hk (not_lt.2 hn)⟩

theorem Owns.same_block (h : Owns s D) (b : Block) (j m : ℕ) (hb : (D j).block s.disk m ≠ 0) :
    (s.take.wsect (D i).indirect b).disk ((D j).block s.disk m) = s.disk ((D j).block s.disk m) :=
  update_of_ne (block_ne_indirect h.exact hb i) ..

theorem Grown.entry (h : Owns s D) (hbytes : Bytes s.disk D c) (hsize : s.freeblock ≤ s.size)
    (hn : NDIRECT ≤ k) (hk : k < MAXFILE) (hind : (D i).indirect ≠ 0)
    (hb : (D i).block s.disk k = 0) (hv : s.freeblock < 2 ^ 32) (hlen : (c i).length ≤ k * BSIZE) :
    Grown s D c i k s.freeblock (D i) (s.take.wsect (D i).indirect
      ((s.disk (D i).indirect).setAddr (k - NDIRECT) s.freeblock)) := by
  have hself : update D i (D i) = D := update_eq_self ..
  have htree := tree_entry h.exact hn hk hind hv
  have hblock := block_of_tree hk htree
  obtain ⟨hlo, hhi⟩ := h.indirect_lt hind
  refine ⟨hself.symm ▸ h.entry hn hk hind hb hv, ?_, h.freeblock_ne_zero, ?_, ⟨.inl, fun _ => hind⟩,
    rfl, fun b hb => ?_, ?_, rfl⟩
  · rw [hself]
    refine hbytes.grow hblock (h.same_block _) ?_ hlen
    exact (update_of_ne (ne_of_gt hhi) ..).trans (h.fresh _ le_rfl)
  · rw [hself]
    exact hblock
  · exact update_of_ne (by omega) ..
  · show max s.size ((D i).indirect + 1) = s.size
    omega

theorem Grown.both (h : Owns s D) (hbytes : Bytes s.disk D c) (hn : NDIRECT ≤ k) (hk : k < MAXFILE)
    (hind : (D i).indirect = 0) (hlt : s.freeblock < s.size) (hv : s.freeblock + 1 < 2 ^ 32)
    (hlen : (c i).length ≤ k * BSIZE) :
    Grown s D c i k (s.freeblock + 1) ((D i).setAddr (last NDIRECT) s.freeblock)
      (s.take.take.wsect s.freeblock
      ((s.disk s.freeblock).setAddr (k - NDIRECT) (s.freeblock + 1))) := by
  -- first the indirect block, and then a block in it
  have howns := h.indirect hind
  have htree := tree_indirect hind (h.fresh _ le_rfl)
  have hblock₁ : ∀ j m, (update D i ((D i).setAddr (last NDIRECT) s.freeblock) j).block s.disk m =
      (D j).block s.disk m := by
    intro j m
    by_cases hm : m < MAXFILE
    · have := htree (j, m)
      rw [if_neg (fun hc => ne_of_lt hm (congrArg Prod.snd hc))] at this
      simpa only [tree, Dinode.ptr_of_lt hm] using this
    · rw [Dinode.block_of_le (not_lt.1 hm), Dinode.block_of_le (not_lt.1 hm)]
  have hbytes₁ : Bytes s.take.disk (update D i ((D i).setAddr (last NDIRECT) s.freeblock)) c := by
    intro j o hb
    rw [show s.take.disk = s.disk from rfl, hblock₁] at hb ⊢
    exact hbytes j o hb
  have hself : update D i ((D i).setAddr (last NDIRECT) s.freeblock) i = _ := update_self ..
  have hind₁ : (update D i ((D i).setAddr (last NDIRECT) s.freeblock) i).indirect =
    s.freeblock := by
    rw [hself, Dinode.indirect_setAddr_last]
  have hb₁ : (update D i ((D i).setAddr (last NDIRECT) s.freeblock) i).block s.take.disk k = 0 := by
    rw [show s.take.disk = s.disk from rfl, hblock₁, Dinode.block_of_indirect_eq_zero hn hind]
  have hg := Grown.entry (i := i) howns hbytes₁ hlt hn hk (by rw [hind₁]; exact h.freeblock_ne_zero)
    hb₁ hv hlen
  rw [hind₁, hself] at hg
  obtain ⟨g₁, g₂, g₃, g₄, -, -, g₇, g₈, g₉⟩ := hg
  rw [update_idem] at g₁ g₂ g₄
  refine ⟨g₁, g₂, g₃, fun j m => ?_, ?_, rfl, g₇, g₈, g₉⟩
  · refine (g₄ j m).trans ?_
    split_ifs
    · rfl
    · exact hblock₁ j m
  · rw [Dinode.indirect_setAddr_last]
    exact ⟨fun _ => .inr hn, fun _ => h.freeblock_ne_zero⟩

end mapBlock

/-! ## The loop of `iappend` -/

/-- The inodes that the inode blocks hold. -/
def NI : ℕ := ninodeblocks * IPB

structure Built (s : Image) (D : ℕ → Dinode) (c : ℕ → List UInt8) : Prop where
  owns : Owns s D
  size : s.size = FSSIZE
  bytes : Bytes s.disk D c
  mapped : ∀ i k, k < MAXFILE → ((D i).block s.disk k ≠ 0 ↔ k * BSIZE < (c i).length)
  indirect : ∀ i, (D i).indirect ≠ 0 ↔ NDIRECT * BSIZE < (c i).length
  count : s.freeblock = nmeta + ∑ i ∈ range NI, need (c i).length
  le : s.freeblock ≤ FSSIZE

structure Kept (s s' : Image) (d d' : Dinode) : Prop where
  fields : d' = { d with addrs := d'.addrs }
  low : ∀ b < nmeta, s'.disk b = s.disk b
  freeinode : s'.freeinode = s.freeinode

theorem Kept.refl (s : Image) (d : Dinode) : Kept s s d d := ⟨rfl, fun _ _ => rfl, rfl⟩

theorem Kept.trans {s s' s'' : Image} {d d' d'' : Dinode} (h : Kept s s' d d')
    (h' : Kept s' s'' d' d'') : Kept s s'' d d'' where
  fields := by
    rw [h'.fields, h.fields]
  low b hb := (h'.low b hb).trans (h.low b hb)
  freeinode := h'.freeinode.trans h.freeinode

/-- The bytes of a turn of the loop: those that fit into the block of the offset `len`. -/
def room (len n : ℕ) : ℕ := min n ((len / BSIZE + 1) * BSIZE - len)

namespace Built

variable {s : Image} {D : ℕ → Dinode} {c : ℕ → List UInt8} {i k : ℕ}

theorem need_room (h : Built s D c) {n : ℕ} (hn : 0 < n) (hmax : (c i).length / BSIZE < MAXFILE) :
    need ((c i).length + room (c i).length n) =
      need (c i).length + taken s.disk (D i) ((c i).length / BSIZE) := by
  have hm := h.mapped i _ hmax
  have hind := h.indirect i
  generalize (c i).length = len at *
  have hB : BSIZE = 512 := rfl
  have hN : NDIRECT = 12 := rfl
  rw [need_eq, need_eq, taken]
  simp only [room, hB, hN] at *
  by_cases hb : (D i).block s.disk (len / 512) ≠ 0
  · have := hm.1 hb
    rw [if_pos hb]
    split_ifs <;> omega
  · have hle : ¬ len / 512 * 512 < len := fun hc => hb (hm.2 hc)
    rw [if_neg hb]
    by_cases hi : (D i).indirect = 0
    · have : ¬ 12 * 512 < len := fun hc => (hind.2 hc) hi
      simp only [hi, and_true]
      split_ifs <;> omega
    · have := hind.1 hi
      simp only [hi, and_false, if_false]
      split_ifs <;> omega

theorem length_le (h : Built s D c) (hk : k < MAXFILE) (hb : (D i).block s.disk k = 0) :
    (c i).length ≤ k * BSIZE := by
  by_contra hlt
  exact (h.mapped i k hk).2 (not_le.1 hlt) hb

theorem mapBlock (h : Built s D c) (hk : k < MAXFILE) :
    s.mapBlock (D i) k = none ∧ FSSIZE < s.freeblock + taken s.disk (D i) k ∨
    ∃ x d' s', s.mapBlock (D i) k = some (x, d', s') ∧ Grown s D c i k x d' s' ∧ x < s'.freeblock ∧
      s'.freeblock = s.freeblock + taken s.disk (D i) k ∧
      (taken s.disk (D i) k ≠ 0 → s'.freeblock = x + 1) := by
  have hsize : s.freeblock ≤ s.size := h.size ▸ h.le
  have hle := h.le
  have hF : FSSIZE = 1000 := rfl
  by_cases hb : (D i).block s.disk k ≠ 0
  · rw [taken, if_pos hb]
    exact .inr ⟨_, _, _, mapBlock_mapped h.owns hsize hk hb, .mapped h.owns h.bytes hb,
      (h.owns.block_lt hb).2, rfl, fun hc => absurd rfl hc⟩
  have hlen := h.length_le hk (not_not.1 hb)
  rw [taken, if_neg hb]
  by_cases hd : k < NDIRECT
  · have hd0 : (D i).direct k hd = 0 := (Dinode.block_direct hd).symm.trans (not_not.1 hb)
    have hnot : ¬ (NDIRECT ≤ k ∧ (D i).indirect = 0) := fun hc => absurd hd (not_lt.2 hc.1)
    rw [if_neg hnot]
    exact .inr ⟨_, _, _, mapBlock_direct hd hd0, .direct h.owns h.bytes hd hd0 hlen,
      Nat.lt_succ_self _, rfl, fun _ => rfl⟩
  have hn := not_lt.1 hd
  by_cases hind : (D i).indirect = 0
  · rw [if_pos ⟨hn, hind⟩]
    by_cases hlt : s.freeblock < s.size
    · exact .inr ⟨_, _, _, mapBlock_indirect h.owns hn hk hind hlt (by omega),
        .both h.owns h.bytes hn hk hind hlt (by omega) hlen, Nat.lt_succ_self _, rfl, fun _ => rfl⟩
    · refine .inl ⟨mapBlock_none hn hind (not_lt.1 hlt), ?_⟩
      rw [h.size] at hlt
      omega
  · rw [if_neg (fun hc => hind hc.2)]
    exact .inr ⟨_, _, _, mapBlock_entry h.owns hsize hn hk hind (not_not.1 hb) (by omega),
      .entry h.owns h.bytes hsize hn hk hind (not_not.1 hb) (by omega) hlen, Nat.lt_succ_self _,
      rfl, fun _ => rfl⟩

end Built

theorem sum_need_update {c : ℕ → List UInt8} {i : ℕ} (hi : i < NI) (l : List UInt8) :
    ∑ j ∈ range NI, need (update c i l j).length + need (c i).length =
      ∑ j ∈ range NI, need (c j).length + need l.length := by
  have hmem : i ∈ range NI := mem_range.2 hi
  have h₁ := add_sum_erase _ (fun j => need (update c i l j).length) hmem
  have h₂ := add_sum_erase _ (fun j => need (c j).length) hmem
  have hrest : ∑ j ∈ (range NI).erase i, need (update c i l j).length =
      ∑ j ∈ (range NI).erase i, need (c j).length := by
    refine sum_congr rfl fun j hj => ?_
    rw [update_of_ne (ne_of_mem_erase hj)]
  simp only [update_self] at h₁ h₂
  omega

theorem getD_append_take {l p : List UInt8} {n o : ℕ} (hn : n ≤ p.length) :
    (l ++ p.take n).getD o 0 = if l.length ≤ o ∧ o < l.length + n then p.getD (o - l.length) 0 else
      l.getD o 0 := by
  split_ifs with h
  · rw [List.getD_append_right _ _ _ _ h.1, List.getD_eq_getElem?_getD, List.getD_eq_getElem?_getD,
      List.getElem?_take_of_lt (by omega)]
  · by_cases hlt : o < l.length
    · exact List.getD_append _ _ _ _ hlt
    · have hlen : (l ++ p.take n).length ≤ o := by
        rw [List.length_append, List.length_take]
        omega
      rw [List.getD_eq_default _ _ hlen, List.getD_eq_default _ _ (not_lt.1 hlt)]

namespace Built

variable {s s' : Image} {D : ℕ → Dinode} {c : ℕ → List UInt8} {i x : ℕ} {d' : Dinode}
    {p : List UInt8}

section

variable (h : Built s D c) (hi : i < NI)

include h hi

theorem write (hp : p ≠ []) (hmax : (c i).length / BSIZE < MAXFILE)
    (g : Grown s D c i ((c i).length / BSIZE) x d' s') (hx : x < s'.freeblock)
    (hfree : s'.freeblock = s.freeblock + taken s.disk (D i) ((c i).length / BSIZE))
    (hle : s'.freeblock ≤ FSSIZE) : Built
      (s'.wsect x (blit (s'.disk x) ((c i).length - (c i).length / BSIZE * BSIZE)
      (room (c i).length p.length) fun j => p.getD j 0))
      (update D i d') (update c i (c i ++ p.take (room (c i).length p.length))) := by
  have hpos : 0 < p.length := List.length_pos_iff.2 hp
  have hneed := h.need_room hpos hmax
  have hB : BSIZE = 512 := rfl
  have hN : NDIRECT = 12 := rfl
  have hroom : room (c i).length p.length ≤ p.length ∧ 0 < room (c i).length p.length ∧
      (c i).length + room (c i).length p.length ≤ ((c i).length / BSIZE + 1) * BSIZE := by
    simp only [room, hB]
    omega
  obtain ⟨hr₁, hr₂, hr₃⟩ := hroom
  have hlen : (c i ++ p.take (room (c i).length p.length)).length = (c i).length + room (c i).length
    p.length := by
    rw [List.length_append, List.length_take, min_eq_left hr₁]
  have hxb : (update D i d' i).block s'.disk ((c i).length / BSIZE) = x := by
    rw [g.block, if_pos ⟨rfl, rfl⟩]
  have hxne : (update D i d' i).block s'.disk ((c i).length / BSIZE) ≠ 0 := hxb.symm ▸ g.ne_zero
  -- the block is no indirect block
  have hind : ∀ b j, (update D i d' j).indirect ≠ 0 →
      update s'.disk x b (update D i d' j).indirect = s'.disk (update D i d' j).indirect := by
    intro b j _
    refine update_of_ne ?_ ..
    have := block_ne_indirect g.owns.exact hxne j
    rw [hxb] at this
    exact this.symm
  refine ⟨⟨?_, ?_, g.owns.nmeta_le⟩, ?_, ?_, ?_, ?_, ?_, hle⟩
  · exact g.owns.exact.congr (tree_congr (hind _))
  · intro b hb
    have hne : b ≠ x := by
      rintro rfl
      exact absurd hx (not_lt.2 hb)
    exact (update_of_ne hne ..).trans (g.owns.fresh b hb)
  · show max s'.size (x + 1) = FSSIZE
    rw [g.size, h.size]
    omega
  · intro j o hb
    have hold : (update D i d' j).block s'.disk (o / BSIZE) ≠ 0 := by
      rw [← Dinode.block_congr (hind _ j)]
      exact hb
    have hbyte := g.bytes j o hold
    show getByte (update s'.disk x _ _) _ = _
    rw [show (s'.wsect x _).disk = update s'.disk x _ from rfl, Dinode.block_congr (hind _ j)]
    by_cases hjk : j = i ∧ o / BSIZE = (c i).length / BSIZE
    · -- a byte of the block that is written
      obtain ⟨rfl, hk⟩ := hjk
      have hbx : (update D j d' j).block s'.disk (o / BSIZE) = x := by rw [hk]; exact hxb
      rw [hbx] at hbyte ⊢
      rw [update_self, update_self, getD_append_take hr₁]
      split_ifs with ho
      · rw [getByte_blit (by simp only [hB] at *; omega) (by simp only [hB] at *; omega)
          (by simp only [hB]; omega)]
        congr 1
        simp only [hB] at *
        omega
      · rw [getByte_blit_of_disjoint _ _ (by simp only [hB] at *; omega)]
        exact hbyte
    · have hne : (update D i d' j).block s'.disk (o / BSIZE) ≠ x := by
        intro he
        rw [← hxb] at he
        exact hjk (block_inj g.owns.exact hold he)
      rw [update_of_ne hne, hbyte]
      by_cases hj : j = i
      · subst hj
        have hk : o / BSIZE ≠ (c j).length / BSIZE := fun he => hjk ⟨rfl, he⟩
        rw [update_self, getD_append_take hr₁, if_neg]
        simp only [hB] at *
        omega
      · rw [update_of_ne hj]
  · intro j m hm
    show (update D i d' j).block (update s'.disk x _) m ≠ 0 ↔ _
    rw [Dinode.block_congr (hind _ j), g.block]
    by_cases hj : j = i
    · subst hj
      rw [update_self, hlen]
      split_ifs with hk
      · refine ⟨fun _ => ?_, fun _ => g.ne_zero⟩
        rw [hk.2]
        simp only [hB] at *
        omega
      · have hne : m ≠ (c j).length / BSIZE := fun he => hk ⟨rfl, he⟩
        rw [h.mapped j m hm]
        simp only [hB] at *
        omega
    · rw [if_neg (fun hc => hj hc.1), update_of_ne hj]
      exact h.mapped j m hm
  · intro j
    by_cases hj : j = i
    · subst hj
      rw [update_self, update_self, hlen, g.indirect, h.indirect]
      simp only [hB, hN] at *
      omega
    · rw [update_of_ne hj, update_of_ne hj]
      exact h.indirect j
  · have hsum := sum_need_update (c := c) hi (c i ++ p.take (room (c i).length p.length))
    have hcount := h.count
    rw [hlen] at hsum
    show s'.freeblock = _
    omega

/-- One turn of the loop, which copies the bytes `p₁`. -/
theorem turn (hp : p ≠ []) (hmax : (c i).length / BSIZE < MAXFILE)
    (hfit : s.freeblock + taken s.disk (D i) ((c i).length / BSIZE) ≤ FSSIZE) :
    ∃ p₁ p₂ d' s', p = p₁ ++ p₂ ∧ p₁ ≠ [] ∧ (c i).length + p₁.length ≤ ((c i).length / BSIZE + 1) *
      BSIZE ∧ s.iappendLoop (D i) (c i).length p = s'.iappendLoop d' ((c i).length + p₁.length) p₂ ∧
      Built s' (update D i d') (update c i (c i ++ p₁)) ∧ Kept s s' (D i) d' ∧
      s'.freeblock + need (c i).length = s.freeblock + need ((c i).length + p₁.length) := by
  have hpos : 0 < p.length := List.length_pos_iff.2 hp
  have hneed := h.need_room hpos hmax
  have hB : BSIZE = 512 := rfl
  have hroom : room (c i).length p.length ≤ p.length ∧ 0 < room (c i).length p.length ∧
      (c i).length + room (c i).length p.length ≤ ((c i).length / BSIZE + 1) * BSIZE := by
    simp only [room, hB]
    omega
  have hlen : (p.take (room (c i).length p.length)).length = room (c i).length p.length :=
    List.length_take_of_le hroom.1
  rcases h.mapBlock (i := i) hmax with ⟨-, hfull⟩ | ⟨x, d', s', hmap, g, hx, hfree, -⟩
  · omega
  have hsect : s'.rsect x = some (s'.disk x) := if_pos (by rw [g.size, h.size]; omega)
  refine ⟨p.take (room (c i).length p.length), p.drop (room (c i).length p.length), d', _,
    (List.take_append_drop ..).symm, fun hnil => ?_, ?_, ?_,
    h.write hi hp hmax g hx hfree (hfree ▸ hfit),
    ⟨g.fields, fun b hb => ?_, g.freeinode⟩, ?_⟩
  · rw [hnil] at hlen
    exact hroom.2.1.ne hlen
  · rw [hlen]
    exact hroom.2.2
  · rw [Image.iappendLoop, if_neg hp, if_pos hmax, hlen]
    simp only [hmap, hsect]
    rfl
  · refine (update_of_ne ?_ ..).trans (g.low b hb)
    rintro rfl
    have hne : (update D i d' i).block s'.disk ((c i).length / BSIZE) ≠ 0 := by
      rw [g.block, if_pos ⟨rfl, rfl⟩]
      exact g.ne_zero
    have := (g.owns.block_lt hne).1
    rw [g.block, if_pos ⟨rfl, rfl⟩] at this
    omega
  · show s'.freeblock + _ = _
    rw [hlen]
    omega

/-- The bytes are appended exactly if they fit into the file and into the image. -/
theorem iappendLoop (hlen : (c i).length ≤ MAXFILE * BSIZE) :
    Yields ((c i).length + p.length ≤ MAXFILE * BSIZE ∧
        s.freeblock + need ((c i).length + p.length) ≤ FSSIZE + need (c i).length)
      (fun r => r.2.1 = (c i).length + p.length ∧
        Built r.2.2 (update D i r.1) (update c i (c i ++ p)) ∧ Kept s r.2.2 (D i) r.1)
      (s.iappendLoop (D i) (c i).length p) := by
  induction hn : p.length using Nat.strong_induction_on generalizing s D c p with
  | _ n ih =>
    subst hn
    by_cases hp : p = []
    · subst hp
      rw [Image.iappendLoop, if_pos rfl]
      refine ⟨⟨hlen, Nat.add_le_add_right h.le _⟩, rfl, ?_, .refl s (D i)⟩
      rw [update_eq_self, List.append_nil, update_eq_self]
      exact h
    have hpos : 0 < p.length := List.length_pos_iff.2 hp
    by_cases hdiv : (c i).length / BSIZE < MAXFILE
    swap
    · rw [Image.iappendLoop, if_neg hp, if_neg hdiv]
      exact fun hfit => hdiv (Nat.div_lt_of_lt_mul (by rw [mul_comm]; omega))
    by_cases hfit : s.freeblock + taken s.disk (D i) ((c i).length / BSIZE) ≤ FSSIZE
    · obtain ⟨p₁, p₂, d₁, s₁, rfl, hp₁, hle, heq, hb₁, hk₁, hfree⟩ := h.turn hi hp hdiv hfit
      have hpos₁ : 0 < p₁.length := List.length_pos_iff.2 hp₁
      have hmax : ((c i).length / BSIZE + 1) * BSIZE ≤ MAXFILE * BSIZE :=
        Nat.mul_le_mul_right _ hdiv
      have hrest := ih p₂.length (by rw [List.length_append]; omega) hb₁
        (by rw [update_self, List.length_append]; omega) rfl
      simp only [update_self, update_idem, List.length_append, List.append_assoc] at hrest
      rw [heq, List.length_append, ← add_assoc]
      exact hrest.mono (by omega) fun r ⟨hr, hb, hk⟩ => ⟨by omega, hb, hk₁.trans hk⟩
    · -- a block behind the end of the image is read
      have hnone : s.iappendLoop (D i) (c i).length p = none := by
        rw [Image.iappendLoop, if_neg hp, if_pos hdiv]
        rcases h.mapBlock (i := i) hdiv with ⟨hnone, -⟩ | ⟨x, d', s', hmap, g, -, hfree, hx⟩
        · rw [hnone]
        · have hle := h.le
          have hsect : s'.rsect x = none :=
            if_neg (by rw [g.size, h.size]; have := hx (by omega); omega)
          simp only [hmap, hsect]
      have hneed := h.need_room hpos hdiv
      have hmono : need ((c i).length + room (c i).length p.length) ≤
        need ((c i).length + p.length) :=
        need_mono (Nat.add_le_add_left (min_le_left ..) _)
      rw [hnone]
      exact fun hc => hfit (by omega)

end

end Built

end Xv6.Mkfs
