import Xv6.Fs.Reading
import Mathlib.Data.Finset.Card
import Mathlib.Data.Finset.Range

/-!
# Block ownership

`Owned w D`: with the inodes `D`, the blocks of the inodes are exactly the blocks of the data area
that are marked in the free map, each in one place, and no block outside of the data area is free.
-/

namespace Xv6

open Function Finset

def Superblock.dataStart (sb : Superblock) : ℕ := sb.size - sb.nblocks

/-- Where the superblock puts things: block 1, then the inodes, the free map, and the data area. -/
structure Superblock.Layout (sb : Superblock) : Prop where
  super : 1 < sb.inodestart
  order : sb.inodestart ≤ sb.bmapstart
  inodes : ∀ i < sb.ninodes, IBLOCK i sb < sb.bmapstart
  bmap : ∀ b < sb.size, BBLOCK b sb < sb.dataStart
  size : sb.size < 2 ^ 32

/-- The blocks that `bmap` allocates for block `k`. -/
def Dinode.lack (disk : Disk) (d : Dinode) (k : ℕ) : ℕ :=
  if d.block disk k ≠ 0 then 0 else if NDIRECT ≤ k ∧ d.indirect = 0 then 2 else 1

namespace FS

open LittleEndian Fallible

def Dev.used (w : Dev) :
    Set ℕ := {b | w.sb.dataStart ≤ b ∧ b < w.sb.size ∧ w.disk.marked w.sb b = true}

structure Owned (w : Dev) (D : ℕ → Dinode) : Prop where
  layout : w.sb.Layout
  super : Superblock.get (w.disk 1) = w.sb
  exact : Exact (tree w.disk D) w.used
  free : ∀ b < w.sb.size, w.disk.marked w.sb b = false → w.sb.dataStart ≤ b

def Dev.freeBlocks (w : Dev) :
    ℕ := ((range w.sb.size).filter fun b => w.disk.marked w.sb b = false).card

/-! ## Taking a block -/

/-- Block `b` is marked and zeroed. -/
def Dev.take (w : Dev) (b : ℕ) : Dev :=
  (w.logWrite (BBLOCK b w.sb) (setBit (w.disk (BBLOCK b w.sb)) (b % BPB))).logWrite b zeroes

theorem balloc_cases (w : Dev) :
    (∃ b < w.sb.size, w.disk.marked w.sb b = false ∧ balloc w = (.ok b, w.take b)) ∨
      ((∀ b < w.sb.size, w.disk.marked w.sb b) ∧ balloc w = (.error .balloc, w)) := by
  unfold balloc
  simp only [run_get_bind]
  rcases hf : (List.range w.sb.size).find? fun b => !w.disk.marked w.sb b with _ | b
  · refine .inr ⟨fun b hb => ?_, rfl⟩
    have := List.find?_eq_none.1 hf b (List.mem_range.2 hb)
    simpa using this
  · refine .inl ⟨b, List.mem_range.1 (List.mem_of_find?_eq_some hf), ?_, rfl⟩
    have := List.find?_some hf
    simpa using this

theorem marked_setBit (disk : Disk) (sb : Superblock) (b c : ℕ) :
    Disk.marked (update disk (BBLOCK b sb) (setBit (disk (BBLOCK b sb)) (b % BPB))) sb c =
      (disk.marked sb c || decide (b = c)) := by
  have hB : BPB = 4096 := rfl
  have hlt : b % BPB < BSIZE * 8 := Nat.mod_lt _ (by decide)
  unfold Disk.marked
  by_cases hbb : BBLOCK c sb = BBLOCK b sb
  · have hiff : b % BPB = c % BPB ↔ b = c := by
      simp only [BBLOCK, hB] at hbb ⊢
      omega
    rw [hbb, update_self, bit_setBit hlt]
    simp only [hiff]
  · have hne : b ≠ c := by
      rintro rfl
      exact hbb rfl
    rw [update_of_ne hbb]
    simp [hne]

section take

variable {w : Dev} {D : ℕ → Dinode} {b c : ℕ}

theorem Owned.data_ne (h : Owned w D) (hb : w.sb.dataStart ≤ b) (hc : c < w.sb.size) :
    b ≠ BBLOCK c w.sb := by
  have := h.layout.bmap c hc
  omega

theorem bmapstart_le (b : ℕ) (sb : Superblock) : sb.bmapstart ≤ BBLOCK b sb := Nat.le_add_left ..

theorem Owned.bmapstart_lt (h : Owned w D) (hb : b < w.sb.size) : w.sb.bmapstart < w.sb.dataStart :=
  lt_of_le_of_lt (bmapstart_le b w.sb) (h.layout.bmap b hb)

theorem marked_take (h : Owned w D) (hb : w.sb.dataStart ≤ b) (hc : c < w.sb.size) :
    (w.take b).disk.marked w.sb c = (w.disk.marked w.sb c || decide (b = c)) := by
  rw [← marked_setBit w.disk w.sb b c]
  unfold Disk.marked
  congr 1
  exact update_of_ne (h.data_ne hb hc).symm ..

theorem take_of_ne (hb : c ≠ b) (hc : c ≠ BBLOCK b w.sb) : (w.take b).disk c = w.disk c := by
  show update (update w.disk _ _) b zeroes c = _
  rw [update_of_ne hb, update_of_ne hc]

theorem take_self : (w.take b).disk b = zeroes := update_self ..

theorem Owned.take_of_used (h : Owned w D) (hb : b < w.sb.size)
    (hfree : w.disk.marked w.sb b = false) (hc : c ∈ w.used) : (w.take b).disk c = w.disk c := by
  refine take_of_ne ?_ (h.data_ne hc.1 hb)
  rintro rfl
  have := hc.2.2
  rw [hfree] at this
  cases this

theorem Owned.ne_zero (h : Owned w D) (hb : b < w.sb.size) (hfree : w.disk.marked w.sb b = false) :
    b ≠ 0 := by
  have h₁ := h.free b hb hfree
  have h₂ := h.bmapstart_lt hb
  omega

theorem Owned.indirect_used (h : Owned w D) {i : ℕ} (hi : (D i).indirect ≠ 0) :
    (D i).indirect ∈ w.used := by
  have := h.exact.mem (a := (i, MAXFILE))
  rw [tree, Dinode.ptr_maxfile] at this
  exact this hi

theorem Owned.block_used (h : Owned w D) {i k : ℕ} (hk : (D i).block w.disk k ≠ 0) :
    (D i).block w.disk k ∈ w.used := by
  have hlt : k < MAXFILE := by
    by_contra hc
    exact hk (Dinode.block_of_le (not_lt.1 hc))
  have := h.exact.mem (a := (i, k))
  rw [tree, Dinode.ptr_of_lt hlt] at this
  exact this hk

theorem Owned.congr (h : Owned w D) {w' : Dev} {D' : ℕ → Dinode} (hsb : w'.sb = w.sb)
    (hsuper : w'.disk 1 = w.disk 1)
    (hmark : ∀ c < w.sb.size, w'.disk.marked w.sb c = w.disk.marked w.sb c)
    (htree : ∀ a, tree w'.disk D' a = tree w.disk D a) : Owned w' D' where
  layout := hsb ▸ h.layout
  super := by rw [hsuper, hsb, h.super]
  exact := by
    have hU : w'.used = w.used := by
      ext c
      simp only [Dev.used, hsb, Set.mem_ofPred_eq]
      constructor
      · rintro ⟨h₁, h₂, h₃⟩
        exact ⟨h₁, h₂, (hmark c h₂) ▸ h₃⟩
      · rintro ⟨h₁, h₂, h₃⟩
        exact ⟨h₁, h₂, (hmark c h₂).trans h₃⟩
    rw [hU]
    exact h.exact.congr htree
  free c hc hcf := by
    rw [hsb] at hc hcf ⊢
    exact h.free c hc ((hmark c hc).symm.trans hcf)

theorem freeBlocks_congr {w' : Dev} (hsb : w'.sb = w.sb)
    (hmark : ∀ c < w.sb.size, w'.disk.marked w.sb c = w.disk.marked w.sb c) :
    w'.freeBlocks = w.freeBlocks := by
  unfold Dev.freeBlocks
  rw [hsb]
  exact congrArg card (filter_congr fun c hc => by rw [hmark c (mem_range.1 hc)])

theorem Owned.grow (h : Owned w D) (hb : b < w.sb.size) (hfree : w.disk.marked w.sb b = false)
    {w' : Dev} {D' : ℕ → Dinode} {a : ℕ × ℕ} (ha : tree w.disk D a = 0) (hsb : w'.sb = w.sb)
    (hsuper : w'.disk 1 = w.disk 1)
    (hmark : ∀ c < w.sb.size, w'.disk.marked w.sb c = (w.disk.marked w.sb c || decide (b = c)))
    (htree : ∀ a', tree w'.disk D' a' = if a' = a then b else tree w.disk D a') : Owned w' D' where
  layout := hsb ▸ h.layout
  super := by rw [hsuper, hsb, h.super]
  exact := by
    have hnot : b ∉ w.used := fun hc => by
      have := hc.2.2
      rw [hfree] at this
      cases this
    have hadd := h.exact.add ha (h.ne_zero hb hfree) hnot htree
    have hU : w'.used = insert b w.used := by
      ext c
      simp only [Dev.used, hsb, Set.mem_ofPred_eq, Set.mem_insert_iff]
      constructor
      · rintro ⟨h₁, h₂, h₃⟩
        rw [hmark c h₂] at h₃
        rcases Bool.or_eq_true_iff.1 h₃ with h₃ | h₃
        · exact .inr ⟨h₁, h₂, h₃⟩
        · exact .inl (of_decide_eq_true h₃).symm
      · rintro (rfl | ⟨h₁, h₂, h₃⟩)
        · exact ⟨h.free c hb hfree, hb, by rw [hmark c hb]; simp⟩
        · exact ⟨h₁, h₂, by rw [hmark c h₂, h₃]; rfl⟩
    rw [hU]
    exact hadd
  free c hc hcf := by
    rw [hsb] at hc hcf ⊢
    rw [hmark c hc] at hcf
    exact h.free c hc (Bool.or_eq_false_iff.1 hcf).1

theorem freeBlocks_take {w' : Dev} (hb : b < w.sb.size) (hfree : w.disk.marked w.sb b = false)
    (hsb : w'.sb = w.sb)
    (hmark : ∀ c < w.sb.size, w'.disk.marked w.sb c = (w.disk.marked w.sb c || decide (b = c))) :
    w'.freeBlocks + 1 = w.freeBlocks := by
  have hmem : b ∈ (range w.sb.size).filter fun c => w.disk.marked w.sb c = false :=
    mem_filter.2 ⟨mem_range.2 hb, hfree⟩
  have herase : ((range w'.sb.size).filter fun c => w'.disk.marked w'.sb c = false) =
      ((range w.sb.size).filter fun c => w.disk.marked w.sb c = false).erase b := by
    ext c
    rw [hsb]
    simp only [mem_filter, mem_range, mem_erase]
    constructor
    · rintro ⟨h₁, h₂⟩
      rw [hmark c h₁] at h₂
      have h₃ := Bool.or_eq_false_iff.1 h₂
      exact ⟨Ne.symm (of_decide_eq_false h₃.2), h₁, h₃.1⟩
    · rintro ⟨h₁, h₂, h₃⟩
      refine ⟨h₂, ?_⟩
      rw [hmark c h₂, h₃]
      simpa using Ne.symm h₁
  rw [Dev.freeBlocks, herase, card_erase_add_one hmem]
  rfl

theorem freeBlocks_eq_zero (h : ∀ b < w.sb.size, w.disk.marked w.sb b) : w.freeBlocks = 0 := by
  refine card_eq_zero.2 (filter_eq_empty_iff.2 fun b hb => ?_)
  rw [h b (mem_range.1 hb)]
  decide

end take

/-! ## A block for a place of an inode -/

/-- From `w` to `w'` at most `n` different blocks are logged, besides the indirect block of an
inode, which is `y`, or the new block `y'` if there was none. -/
def Logs (w w' : Dev) (y y' n : ℕ) : Prop :=
  (y ≠ 0 → y' = y) ∧ ∃ (T : Finset ℕ) (l : List ℕ), w'.logged = l ++ w.logged ∧ T.card ≤ n ∧
    ∀ b ∈ l, b ∈ T ∨ b = y' ∧ y' ≠ 0

theorem Logs.refl (w : Dev) (y n : ℕ) : Logs w w y y n :=
  ⟨fun _ => rfl, ∅, [], rfl, Nat.zero_le n, by simp⟩

theorem Logs.trans {w w₁ w₂ : Dev} {y y₁ y₂ n m k : ℕ} (h₁ : Logs w w₁ y y₁ n)
    (h₂ : Logs w₁ w₂ y₁ y₂ m) (hle : n + m ≤ k) : Logs w w₂ y y₂ k := by
  obtain ⟨e₁, T₁, l₁, hl₁, hc₁, hm₁⟩ := h₁
  obtain ⟨e₂, T₂, l₂, hl₂, hc₂, hm₂⟩ := h₂
  refine ⟨fun hy => ?_, T₁ ∪ T₂, l₂ ++ l₁, by rw [hl₂, hl₁, List.append_assoc],
    (card_union_le ..).trans ((add_le_add hc₁ hc₂).trans hle), fun b hb => ?_⟩
  · rw [e₂ (e₁ hy ▸ hy), e₁ hy]
  · rcases List.mem_append.1 hb with hb | hb
    · exact (hm₂ b hb).imp_left (mem_union_right _)
    · refine (hm₁ b hb).imp (mem_union_left _) fun ⟨hb, hy⟩ => ?_
      rw [e₂ hy]
      exact ⟨hb, hy⟩

theorem Logs.take (w : Dev) {b : ℕ} (hb : b ≠ 0) : Logs w (w.take b) 0 b 1 :=
  ⟨fun h => absurd rfl h, {BBLOCK b w.sb}, [b, BBLOCK b w.sb], rfl,
    (card_singleton _).le, by simp [hb]⟩

/-- What `bmap` does for block `k` of inode `i`. -/
structure Grown (w w' : Dev) (D : ℕ → Dinode) (i k x : ℕ) (d' : Dinode) : Prop where
  owned : Owned w' (update D i d')
  ne_zero : x ≠ 0
  block : ∀ j m, (update D i d' j).block w'.disk m = if j = i ∧ m = k then x else
    (D j).block w.disk m
  same : ∀ j m, (D j).block w.disk m ≠ 0 →
    w'.disk ((D j).block w.disk m) = w.disk ((D j).block w.disk m)
  fresh : (D i).block w.disk k = 0 → w'.disk x = zeroes
  indirect : d'.indirect = 0 ↔ (D i).indirect = 0 ∧ k < NDIRECT
  kept : (D i).block w.disk k ≠ 0 → x = (D i).block w.disk k ∧ d' = D i
  fields : d' = { D i with addrs := d'.addrs }
  low : ∀ b < w.sb.bmapstart, w'.disk b = w.disk b
  sb : w'.sb = w.sb
  count : w'.freeBlocks + (D i).lack w.disk k = w.freeBlocks
  logs : ∀ c, Logs w (w'.logWrite x c) (D i).indirect d'.indirect ((D i).lack w.disk k + 1)

section bmap

variable {w : Dev} {D : ℕ → Dinode} {i k b : ℕ}

theorem block_of_tree {disk disk' : Disk} {D' : ℕ → Dinode} {x : ℕ} (hk : k < MAXFILE)
    (h : ∀ a, tree disk' D' a = if a = (i, k) then x else tree disk D a) (j m : ℕ) :
    (D' j).block disk' m = if j = i ∧ m = k then x else (D j).block disk m := by
  by_cases hm : m < MAXFILE
  · have := h (j, m)
    simp only [tree, Dinode.ptr_of_lt hm, Prod.mk.injEq] at this
    exact this
  · have hmk : ¬ (j = i ∧ m = k) := fun hc => hm (hc.2 ▸ hk)
    rw [if_neg hmk, Dinode.block_of_le (not_lt.1 hm), Dinode.block_of_le (not_lt.1 hm)]

section

variable (h : Owned w D)

include h

theorem Grown.mapped (hb : (D i).block w.disk k ≠ 0) :
    Grown w w D i k ((D i).block w.disk k) (D i) := by
  have hself : update D i (D i) = D := update_eq_self ..
  refine ⟨hself.symm ▸ h, hb, fun j m => ?_, fun _ _ _ => rfl, fun hc => absurd hc hb,
    ⟨fun hind => ⟨hind, ?_⟩, And.left⟩, fun _ => ⟨rfl, rfl⟩, rfl, fun _ _ => rfl, rfl, ?_,
    fun c => ⟨fun _ => rfl, {(D i).block w.disk k}, [(D i).block w.disk k], rfl, by simp, by simp⟩⟩
  · rw [hself]
    split_ifs with hjm
    · rw [hjm.1, hjm.2]
    · rfl
  · by_contra hn
    exact hb (Dinode.block_of_indirect_eq_zero (not_lt.1 hn) hind)
  · rw [Dinode.lack, if_pos hb]
    rfl

theorem tree_take (hb : b < w.sb.size) (hfree : w.disk.marked w.sb b = false) (a : ℕ × ℕ) :
    tree (w.take b).disk D a = tree w.disk D a :=
  tree_congr (fun _ hi => h.take_of_used hb hfree (h.indirect_used hi)) a

theorem low_take (hb : b < w.sb.size) (hfree : w.disk.marked w.sb b = false) {c : ℕ}
    (hc : c < w.sb.bmapstart) : (w.take b).disk c = w.disk c := by
  have h₁ := h.free b hb hfree
  have h₂ := h.bmapstart_lt hb
  have h₃ := bmapstart_le b w.sb
  exact take_of_ne (by omega) (by omega)

theorem Owned.super_lt : 1 < w.sb.bmapstart := lt_of_lt_of_le h.layout.super h.layout.order

section

variable (hb : b < w.sb.size) (hfree : w.disk.marked w.sb b = false)

include hb hfree

theorem Grown.direct (hk : k < NDIRECT) (hd : (D i).direct k hk = 0) :
    Grown w (w.take b) D i k b ((D i).setAddr ⟨k, Nat.lt_succ_of_lt hk⟩ b) := by
  have hdata := h.free b hb hfree
  have hlt : k < MAXFILE := by
    simp only [MAXFILE]
    omega
  have htree : ∀ a, tree (w.take b).disk (update D i ((D i).setAddr ⟨k, Nat.lt_succ_of_lt hk⟩ b))
    a =
      if a = (i, k) then b else tree w.disk D a := by
    intro a
    rw [tree_direct _ hk, tree_take h hb hfree]
  have hzero : tree w.disk D (i, k) = 0 := by
    rw [tree, Dinode.ptr_of_lt hlt, Dinode.block_direct hk, hd]
  have hlack : (D i).lack w.disk k = 1 := by
    rw [Dinode.lack, Dinode.block_direct hk, if_neg (not_not.2 hd),
      if_neg (fun hc => not_lt.2 hc.1 hk)]
  refine ⟨h.grow hb hfree hzero rfl (low_take h hb hfree h.super_lt)
    (fun c hc => marked_take h hdata hc) htree, h.ne_zero hb hfree, block_of_tree hlt htree,
    fun j m hm => h.take_of_used hb hfree (h.block_used hm),
    fun _ => take_self, ?_, fun hne => ?_, rfl, fun c hc => low_take h hb hfree hc, rfl, ?_,
    fun c => ?_⟩
  · rw [Dinode.indirect_setAddr_direct hk]
    exact ⟨fun hind => ⟨hind, hk⟩, And.left⟩
  · rw [Dinode.block_direct hk] at hne
    exact absurd hd hne
  · rw [hlack]
    exact freeBlocks_take hb hfree rfl fun c hc => marked_take h hdata hc
  · rw [hlack]
    exact ⟨fun _ => Dinode.indirect_setAddr_direct hk b, {BBLOCK b w.sb, b}, [b, b, BBLOCK b w.sb],
      rfl, card_le_two, by simp⟩

theorem Grown.entry (hn : NDIRECT ≤ k)
    (hk : k < MAXFILE) (hind : (D i).indirect ≠ 0) (hz : (D i).block w.disk k = 0) :
    Grown w ((w.take b).logWrite (D i).indirect
      (((w.take b).disk (D i).indirect).setAddr (k - NDIRECT) b)) D i k b (D i) := by
  have hdata := h.free b hb hfree
  have hself : update D i (D i) = D := update_eq_self ..
  have hused := h.indirect_used hind
  have hne : b ≠ (D i).indirect := fun hc => by
    have := hused.2.2
    rw [← hc, hfree] at this
    cases this
  -- the blocks after the allocation, and then after the store
  have hexact : Exact (tree (w.take b).disk D) w.used := h.exact.congr (tree_take h hb hfree)
  have htree : ∀ a, tree (update (w.take b).disk (D i).indirect
      (((w.take b).disk (D i).indirect).setAddr (k - NDIRECT) b)) D a = if a = (i, k) then b else
      tree w.disk D a := by
    intro a
    rw [tree_entry hexact hn hk hind (hb.trans h.layout.size), tree_take h hb hfree]
  have hzero : tree w.disk D (i, k) = 0 := by
    rw [tree, Dinode.ptr_of_lt hk, hz]
  have hlack : (D i).lack w.disk k = 1 := by
    rw [Dinode.lack, if_neg (not_not.2 hz), if_neg (fun hc => hind hc.2)]
  have hbm := h.bmapstart_lt hb
  have hout : ∀ c, c < w.sb.dataStart → update (w.take b).disk (D i).indirect
      (((w.take b).disk (D i).indirect).setAddr (k - NDIRECT) b) c = (w.take b).disk c := by
    intro c hc
    have := hused.1
    exact update_of_ne (by omega) ..
  have hmark : ∀ c < w.sb.size, Disk.marked (update (w.take b).disk (D i).indirect
      (((w.take b).disk (D i).indirect).setAddr (k - NDIRECT) b)) w.sb c =
        (w.disk.marked w.sb c || decide (b = c)) := by
    intro c hc
    rw [← marked_take h hdata hc, Disk.marked, hout _ (h.layout.bmap c hc)]
    rfl
  have hlow : ∀ c < w.sb.bmapstart, update (w.take b).disk (D i).indirect
      (((w.take b).disk (D i).indirect).setAddr (k - NDIRECT) b) c = w.disk c := by
    intro c hc
    rw [hout c (by omega), low_take h hb hfree hc]
  refine ⟨?_, h.ne_zero hb hfree, ?_, fun j m hm => ?_, fun _ => ?_,
    ⟨fun hc => absurd hc hind, fun hc => absurd hc.1 hind⟩, fun hc => absurd hz hc, rfl, hlow, rfl,
    ?_, fun c => ?_⟩
  · rw [hself]
    exact h.grow hb hfree hzero rfl (hlow 1 h.super_lt) hmark htree
  · rw [hself]
    exact block_of_tree hk htree
  · refine (update_of_ne ?_ ..).trans (h.take_of_used hb hfree (h.block_used hm))
    exact block_ne_indirect h.exact hm i
  · exact (update_of_ne hne ..).trans take_self
  · rw [hlack]
    exact freeBlocks_take hb hfree rfl hmark
  · rw [hlack]
    exact ⟨fun _ => rfl, {BBLOCK b w.sb, b}, [b, (D i).indirect, b, BBLOCK b w.sb], rfl,
      card_le_two, by simp [hind]⟩

theorem Owned.withIndirect (hind : (D i).indirect = 0) :
    Owned (w.take b) (update D i ((D i).setAddr (Fin.last NDIRECT) b)) ∧
      ∀ j m, (update D i ((D i).setAddr (Fin.last NDIRECT) b) j).block (w.take b).disk m =
        (D j).block w.disk m := by
  have hdata := h.free b hb hfree
  have htree : ∀ a, tree (w.take b).disk (update D i ((D i).setAddr (Fin.last NDIRECT) b)) a =
      if a = (i, MAXFILE) then b else tree w.disk D a := by
    intro a
    rw [tree_indirect hind take_self, tree_take h hb hfree]
  have hzero : tree w.disk D (i, MAXFILE) = 0 := by
    rw [tree, Dinode.ptr_maxfile, hind]
  refine ⟨h.grow hb hfree hzero rfl (low_take h hb hfree h.super_lt)
    (fun c hc => marked_take h hdata hc) htree, fun j m => ?_⟩
  by_cases hm : m < MAXFILE
  · have := htree (j, m)
    rw [if_neg (fun hc => ne_of_lt hm (congrArg Prod.snd hc))] at this
    simpa only [tree, Dinode.ptr_of_lt hm] using this
  · rw [Dinode.block_of_le (not_lt.1 hm), Dinode.block_of_le (not_lt.1 hm)]

end

end

theorem Grown.byteAt {w' : Dev} {x : ℕ} {d' : Dinode} (hg : Grown w w' D i k x d') {j o : ℕ}
    (ho : (update D i d' j).block w'.disk (o / BSIZE) ≠ 0) : (update D i d' j).byteAt w'.disk o =
      if (D j).block w.disk (o / BSIZE) ≠ 0 then (D j).byteAt w.disk o else 0 := by
  rw [hg.block] at ho
  rw [Dinode.byteAt, hg.block]
  by_cases hold : (D j).block w.disk (o / BSIZE) ≠ 0
  · have hblock : (if j = i ∧ o / BSIZE = k then x else (D j).block w.disk (o / BSIZE)) =
        (D j).block w.disk (o / BSIZE) := by
      split_ifs with hc
      · obtain ⟨rfl, rfl⟩ := hc
        exact (hg.kept hold).1
      · rfl
    rw [if_pos hold, hblock, hg.same j _ hold]
    rfl
  · rw [if_neg hold]
    split_ifs at ho ⊢ with hc
    · obtain ⟨rfl, rfl⟩ := hc
      rw [hg.fresh (not_not.1 hold), getByte_zeroes]
    · exact absurd ho hold

theorem Grown.both (h : Owned w D) (hb : b < w.sb.size) (hfree : w.disk.marked w.sb b = false)
    (hn : NDIRECT ≤ k) (hind : (D i).indirect = 0) {w' : Dev} {x : ℕ}
    (hg : Grown (w.take b) w' (update D i ((D i).setAddr (Fin.last NDIRECT) b)) i k x
      ((D i).setAddr (Fin.last NDIRECT) b)) :
    Grown w w' D i k x ((D i).setAddr (Fin.last NDIRECT) b) := by
  obtain ⟨h₁, hblock⟩ := h.withIndirect hb hfree hind
  have hdata := h.free b hb hfree
  have hself : update D i ((D i).setAddr (Fin.last NDIRECT) b) i = (D i).setAddr (Fin.last NDIRECT)
    b :=
    update_self ..
  have hz : (D i).block w.disk k = 0 := Dinode.block_of_indirect_eq_zero hn hind
  have hne : ((D i).setAddr (Fin.last NDIRECT) b).indirect ≠ 0 := by
    rw [Dinode.indirect_setAddr_last]
    exact h.ne_zero hb hfree
  have hlack : (D i).lack w.disk k = 2 := by
    rw [Dinode.lack, if_neg (not_not.2 hz), if_pos ⟨hn, hind⟩]
  have hlack' : (update D i ((D i).setAddr (Fin.last NDIRECT) b) i).lack (w.take b).disk k = 1 := by
    rw [Dinode.lack, hblock, if_neg (not_not.2 hz),
      if_neg (fun hc => hne (by rw [← hself]; exact hc.2))]
  have howned := hg.owned
  have hblock' := hg.block
  rw [update_idem] at howned
  refine ⟨howned, hg.ne_zero, fun j m => ?_, fun j m hm => ?_, fun _ => hg.fresh ?_,
    ⟨fun hc => absurd hc hne, fun hc => absurd hc.2 (not_lt.2 hn)⟩, fun hc => absurd hz hc, rfl,
    fun c hc => ?_,
    hg.sb, ?_, fun c => ?_⟩
  · have := hblock' j m
    rw [update_idem, hblock] at this
    exact this
  · have := hg.same j m
    rw [hblock] at this
    exact (this hm).trans (h.take_of_used hb hfree (h.block_used hm))
  · rw [hblock, hz]
  · exact (hg.low c hc).trans (low_take h hb hfree hc)
  · have hc₁ := hg.count
    have hc₂ : (w.take b).freeBlocks + 1 = w.freeBlocks := freeBlocks_take hb hfree rfl fun c hc =>
      marked_take h hdata hc
    rw [hlack'] at hc₁
    rw [hlack]
    omega
  · have hlogs := hg.logs c
    rw [hlack', hself, Dinode.indirect_setAddr_last] at hlogs
    rw [hlack, hind, Dinode.indirect_setAddr_last]
    exact (Logs.take w (h.ne_zero hb hfree)).trans hlogs le_rfl

theorem Owned.bmap_entry (h : Owned w D) (hn : NDIRECT ≤ k) (hk : k < MAXFILE)
    (hind : (D i).indirect ≠ 0) (hz : (D i).block w.disk k = 0) :
    Sat (fun e w' => e = .balloc ∧ w.freeBlocks = 0 ∧ w' = w) (fun r w' => r.2 = D i ∧
      Grown w w' D i k r.1 (D i)) (bmap (D i) k w) := by
  have hload : loadIndirect (D i) w = (.ok (D i), w) := by
    rw [loadIndirect, if_neg hind]
    rfl
  have hin := sub_ndirect_lt hk
  have haddr : (w.disk (D i).indirect).addr (k - NDIRECT) = 0 := by
    rwa [Dinode.block_indirect hn hk hind] at hz
  rw [bmap, dif_neg (not_lt.2 hn), if_pos hin, bind_ok hload]
  simp only [run_get_bind, if_pos haddr]
  rcases balloc_cases w with ⟨b, hb, hfree, hok⟩ | ⟨hall, herr⟩
  · rw [bind_ok hok]
    exact ⟨rfl, Grown.entry h hb hfree hn hk hind hz⟩
  · rw [bind_error herr]
    exact ⟨rfl, freeBlocks_eq_zero hall, rfl⟩

theorem Owned.bmap_spec (h : Owned w D) (hk : k < MAXFILE) :
    Sat (fun e w' => e = .balloc ∧ w.freeBlocks < (D i).lack w.disk k ∧
        ∃ y, Logs w w' (D i).indirect y ((D i).lack w.disk k))
      (fun r w' => Grown w w' D i k r.1 r.2) (bmap (D i) k w) := by
  by_cases hz : (D i).block w.disk k = 0
  swap
  · rw [bmap_mapped hz]
    exact Grown.mapped h hz
  rw [Dinode.lack, if_neg (not_not.2 hz)]
  by_cases hd : k < NDIRECT
  · rw [Dinode.block_direct hd] at hz
    rw [bmap, dif_pos hd, if_pos hz, if_neg (fun hc => not_lt.2 hc.1 hd)]
    rcases balloc_cases w with ⟨b, hb, hfree, hok⟩ | ⟨hall, herr⟩
    · rw [bind_ok hok]
      exact Grown.direct h hb hfree hd hz
    · rw [bind_error herr]
      exact ⟨rfl, by rw [freeBlocks_eq_zero hall]; exact one_pos, _, .refl ..⟩
  · have hn := not_lt.1 hd
    by_cases hind : (D i).indirect = 0
    swap
    · refine ((h.bmap_entry hn hk hind hz).mono fun r w' hg => ?_).weaken ?_
      · rw [hg.1]
        exact hg.2
      · rintro e w' ⟨he, hzero, rfl⟩
        rw [hzero, if_neg (fun hc => hind hc.2)]
        exact ⟨he, one_pos, _, .refl ..⟩
    rw [if_pos ⟨hn, hind⟩]
    -- the indirect block is allocated first, and then `bmap` goes on as with one
    rcases balloc_cases w with ⟨b, hb, hfree, hok⟩ | ⟨hall, herr⟩
    · obtain ⟨h₁, hblock⟩ := h.withIndirect hb hfree hind
      have hself : update D i ((D i).setAddr (Fin.last NDIRECT) b) i = (D i).setAddr
        (Fin.last NDIRECT) b :=
        update_self ..
      have hne : ((D i).setAddr (Fin.last NDIRECT) b).indirect ≠ 0 := by
        rw [Dinode.indirect_setAddr_last]
        exact h.ne_zero hb hfree
      have hload : loadIndirect (D i) w = (.ok ((D i).setAddr (Fin.last NDIRECT) b), w.take b) := by
        rw [loadIndirect, if_pos hind, bind_ok hok]
        rfl
      have hload' : loadIndirect ((D i).setAddr (Fin.last NDIRECT) b) (w.take b) =
          (.ok ((D i).setAddr (Fin.last NDIRECT) b), w.take b) := by
        rw [loadIndirect, if_neg hne]
        rfl
      have hsame : bmap (D i) k w = bmap ((D i).setAddr (Fin.last NDIRECT) b) k (w.take b) := by
        have hin := sub_ndirect_lt hk
        rw [bmap, bmap, dif_neg hd, dif_neg hd, if_pos hin, if_pos hin, bind_ok hload,
          bind_ok hload']
      have hz' : (update D i ((D i).setAddr (Fin.last NDIRECT) b) i).block (w.take b).disk k =
        0 := by
        rw [hblock, hz]
      have hentry := h₁.bmap_entry (i := i) hn hk (by rw [hself]; exact hne) hz'
      rw [hself] at hentry
      rw [hsame]
      refine (hentry.mono fun r w' hg => ?_).weaken ?_
      · rw [hg.1]
        exact Grown.both h hb hfree hn hind hg.2
      · rintro e w' ⟨he, hzero, rfl⟩
        have : (w.take b).freeBlocks + 1 = w.freeBlocks :=
          freeBlocks_take hb hfree rfl fun c hc => marked_take h (h.free b hb hfree) hc
        rw [hind]
        exact ⟨he, by omega, b, (Logs.take w (h.ne_zero hb hfree)).trans (.refl _ _ 1) le_rfl⟩
    · have hload : loadIndirect (D i) w = (.error .balloc, w) := by
        rw [loadIndirect, if_pos hind, bind_error herr]
      have hin := sub_ndirect_lt hk
      rw [bmap, dif_neg hd, if_pos hin, bind_error hload]
      exact ⟨rfl, by rw [freeBlocks_eq_zero hall]; exact two_pos, _, .refl ..⟩

end bmap

end FS

end Xv6
