import Xv6.Fs.Ownership
import Mathlib.Order.Interval.Finset.Nat
import Mathlib.Algebra.Order.Interval.Finset.SuccPred
import Mathlib.Data.Nat.SuccPred

/-!
# Writing files

`Written w w' D i off src d'`: the bytes `src` are now the bytes of inode `i` from `off` on.  Other
bytes are as before, those of new blocks are zero, and the blocks that were there are still the
same.  `writei` fails only if the blocks to be allocated (`needs`) are more than there are free
ones.
-/

namespace Xv6

open LittleEndian Function List Finset Nat

/-- The blocks that `writei` allocates to have blocks `b` up to `e`. -/
def Dinode.needs (disk : Disk) (d : Dinode) (b e : ℕ) : ℕ :=
  ((Finset.Ico b e).filter fun k => d.block disk k = 0).card + if d.indirect = 0 ∧ b < e ∧
    NDIRECT < e then 1 else 0

namespace FS

open Fallible

structure Written (w w' : Dev) (D : ℕ → Dinode) (i off : ℕ) (src : List UInt8) (d' : Dinode) :
Prop where
  owned : Owned w' (update D i d')
  block : ∀ j m, (D j).block w.disk m ≠ 0 → (update D i d' j).block w'.disk m = (D j).block w.disk m
  ne_zero : ∀ j m, (update D i d' j).block w'.disk m ≠ 0 ↔
    (D j).block w.disk m ≠ 0 ∨ j = i ∧ ∃ o, off ≤ o ∧ o < off + src.length ∧ m = o / BSIZE
  byteAt : ∀ j o, (update D i d' j).block w'.disk (o / BSIZE) ≠ 0 →
    (update D i d' j).byteAt w'.disk o =
      if j = i ∧ off ≤ o ∧ o < off + src.length then src.getD (o - off) 0
      else if (D j).block w.disk (o / BSIZE) ≠ 0 then (D j).byteAt w.disk o else 0
  kept : (∀ o, off ≤ o → o < off + src.length → (D i).block w.disk (o / BSIZE) ≠ 0) → d' = D i
  indirect : d'.indirect = 0 ↔ (D i).indirect = 0 ∧ ∀ o, off ≤ o → o < off + src.length →
    o / BSIZE < NDIRECT
  fields : d' = { D i with addrs := d'.addrs }
  low : ∀ b < w.sb.bmapstart, w'.disk b = w.disk b
  sb : w'.sb = w.sb

variable {w : Dev} {D : ℕ → Dinode} {i : ℕ}

/-! ## One round -/

theorem Owned.logWrite (h : Owned w D) {k : ℕ} (hk : (D i).block w.disk k ≠ 0) (x : Block) :
    Owned (w.logWrite ((D i).block w.disk k) x) D ∧
      (∀ j m, (D j).block (w.logWrite ((D i).block w.disk k) x).disk m = (D j).block w.disk m) ∧
      (w.logWrite ((D i).block w.disk k) x).freeBlocks = w.freeBlocks := by
  have hused := h.block_used hk
  have hind : ∀ j, (D j).indirect ≠ 0 →
      (w.logWrite ((D i).block w.disk k) x).disk (D j).indirect = w.disk (D j).indirect :=
      fun j _ =>
    update_of_ne (block_ne_indirect h.exact hk j).symm ..
  have hmeta : ∀ c < w.sb.dataStart, (w.logWrite ((D i).block w.disk k) x).disk c = w.disk c := by
    intro c hc
    have := hused.1
    exact update_of_ne (by omega) ..
  have hmark : ∀ c < w.sb.size, (w.logWrite ((D i).block w.disk k) x).disk.marked w.sb c =
    w.disk.marked w.sb c := by
    intro c hc
    rw [Disk.marked, hmeta _ (h.layout.bmap c hc)]
    rfl
  have hone : 1 < w.sb.dataStart := by
    have h₁ := h.super_lt
    have h₂ := h.bmapstart_lt hused.2.1
    omega
  exact ⟨h.congr rfl (hmeta 1 hone) hmark (tree_congr hind),
    fun j m => Dinode.block_congr (hind j) m, freeBlocks_congr rfl hmark⟩

theorem byteAt_blit (h : Owned w D) {k o m : ℕ} (f : ℕ → UInt8) (hk : (D i).block w.disk k ≠ 0)
    {j p : ℕ} (hp : (D j).block w.disk (p / BSIZE) ≠ 0) :
    (D j).byteAt (w.logWrite ((D i).block w.disk k)
      (blit (w.disk ((D i).block w.disk k)) o m f)).disk p = if j = i ∧ p / BSIZE = k ∧
      o ≤ p % BSIZE ∧ p % BSIZE < o + m then f (p % BSIZE - o) else (D j).byteAt w.disk p := by
  have hblock := (h.logWrite hk (blit (w.disk ((D i).block w.disk k)) o m f)).2.1 j (p / BSIZE)
  have hmod : p % BSIZE < BSIZE := mod_lt _ (by decide)
  rw [Dinode.byteAt, hblock]
  by_cases hsame : j = i ∧ p / BSIZE = k
  · obtain ⟨rfl, rfl⟩ := hsame
    have hself : (w.logWrite ((D j).block w.disk (p / BSIZE))
        (blit (w.disk ((D j).block w.disk (p / BSIZE))) o m f)).disk ((D j).block w.disk
        (p / BSIZE)) =
          blit (w.disk ((D j).block w.disk (p / BSIZE))) o m f := update_self ..
    rw [hself]
    by_cases hin : o ≤ p % BSIZE ∧ p % BSIZE < o + m
    · rw [if_pos ⟨rfl, rfl, hin⟩, getByte_blit hin.1 hin.2 hmod]
    · rw [if_neg (fun hc => hin hc.2.2), getByte_blit_of_disjoint _ _ (by omega)]
      rfl
  · have hne : (D j).block w.disk (p / BSIZE) ≠ (D i).block w.disk k :=
      fun he => hsame (block_inj h.exact hp he)
    rw [if_neg (fun hc => hsame ⟨hc.1, hc.2.1⟩)]
    exact congrArg (fun b => getByte b _) (update_of_ne hne ..)

theorem Written.chunk {w₁ : Dev} {off x : ℕ} {d' : Dinode} {src : List UInt8}
    (hg : Grown w w₁ D i (off / BSIZE) x d') (hpos : 0 < src.length)
    (hm : off % BSIZE + src.length ≤ BSIZE) (f : ℕ → UInt8)
    (hf : ∀ k < src.length, f k = src.getD k 0) :
    Written w (w₁.logWrite x (blit (w₁.disk x) (off % BSIZE) src.length f)) D i off src d' := by
  have hB : BSIZE = 512 := rfl
  have hself : (update D i d' i).block w₁.disk (off / BSIZE) = x := by
    rw [hg.block, if_pos ⟨rfl, rfl⟩]
  have hx : (update D i d' i).block w₁.disk (off / BSIZE) ≠ 0 := by
    rw [hself]
    exact hg.ne_zero
  obtain ⟨howned, hblock, -⟩ := hg.owned.logWrite hx (blit (w₁.disk x) (off % BSIZE) src.length f)
  rw [hself] at howned hblock
  -- the block of the range is `off / BSIZE`
  have hdiv : ∀ o, off ≤ o → o < off + src.length → o / BSIZE = off / BSIZE := by
    intro o h₁ h₂
    simp only [hB] at hm ⊢
    omega
  have hind : (∀ o, off ≤ o → o < off + src.length → o / BSIZE < NDIRECT) ↔ off / BSIZE < NDIRECT :=
    ⟨fun hall => hall off le_rfl (by omega), fun hlt o h₁ h₂ => by rwa [hdiv o h₁ h₂]⟩
  refine ⟨howned, fun j m hjm => ?_, fun j m => ?_, fun j o ho => ?_,
    fun hall => ?_, by rw [hg.indirect, hind],
    hg.fields, fun b hb => ?_, hg.sb⟩
  · rw [hblock, hg.block]
    split_ifs with hc
    · obtain ⟨rfl, rfl⟩ := hc
      exact (hg.kept hjm).1
    · rfl
  · rw [hblock, hg.block]
    split_ifs with hc
    · refine ⟨fun _ => .inr ⟨hc.1, off, le_rfl, by omega, hc.2⟩, fun _ => hg.ne_zero⟩
    · refine ⟨.inl, fun hor => hor.elim id ?_⟩
      rintro ⟨hji, o, h₁, h₂, rfl⟩
      exact absurd ⟨hji, hdiv o h₁ h₂⟩ hc
  · rw [hblock] at ho
    have hin : (o / BSIZE = off / BSIZE ∧ off % BSIZE ≤ o % BSIZE ∧
      o % BSIZE < off % BSIZE + src.length) ↔
        off ≤ o ∧ o < off + src.length := by
      simp only [hB] at hm ⊢
      omega
    have hbyte := byteAt_blit hg.owned (o := off % BSIZE) (m := src.length) f hx ho
    rw [hself] at hbyte
    rw [hbyte]
    simp only [hin]
    split_ifs with hc hold
    · have hsub : o % BSIZE - off % BSIZE = o - off := by
        have := hin.2 hc.2
        simp only [hB] at this ⊢
        omega
      rw [hsub, hf _ (by omega)]
    · rw [hg.byteAt ho, if_pos hold]
    · rw [hg.byteAt ho, if_neg hold]
  · exact (hg.kept (hall off le_rfl (by omega))).2
  · have hused := hg.owned.block_used hx
    rw [hself] at hused
    have hlt := hg.owned.bmapstart_lt hused.2.1
    have hge := hused.1
    rw [hg.sb] at hlt hge
    exact (update_of_ne (by omega) ..).trans (hg.low b hb)

/-! ## The loop -/

theorem Written.nil (h : Owned w D) (off : ℕ) : Written w w D i off [] (D i) := by
  have hself : update D i (D i) = D := update_eq_self ..
  refine ⟨hself.symm ▸ h, fun j m _ => by rw [hself], fun j m => ?_, fun j o ho => ?_, fun _ => rfl,
    ?_,
    rfl, fun _ _ => rfl, rfl⟩
  · rw [hself]
    refine ⟨.inl, fun hor => hor.elim id ?_⟩
    rintro ⟨-, o, h₁, h₂, -⟩
    simp only [length_nil] at h₂
    omega
  · rw [hself] at ho ⊢
    rw [if_neg (fun hc => by simp only [length_nil] at hc; omega), if_pos ho]
  · refine ⟨fun hz => ⟨hz, fun o h₁ h₂ => ?_⟩, And.left⟩
    simp only [length_nil] at h₂
    omega

theorem Written.append {w₁ w₂ : Dev} {off : ℕ} {l₁ : List UInt8} {d₁ d₂ : Dinode}
    (h₁ : Written w w₁ D i off l₁ d₁) (l₂ : List UInt8)
    (h₂ : Written w₁ w₂ (update D i d₁) i (off + l₁.length) l₂ d₂) :
    Written w w₂ D i off (l₁ ++ l₂) d₂ := by
  have hidem : update (update D i d₁) i d₂ = update D i d₂ := update_idem ..
  have hself : update D i d₁ i = d₁ := update_self ..
  obtain ⟨o₁, b₁, n₁, y₁, k₁, i₁, f₁, l₁', s₁⟩ := h₁
  obtain ⟨o₂, b₂, n₂, y₂, k₂, i₂, f₂, l₂', s₂⟩ := h₂
  rw [hidem] at o₂ b₂ n₂ y₂
  rw [hself] at k₂ i₂ f₂
  have hne : ∀ j m, (D j).block w.disk m ≠ 0 → (update D i d₁ j).block w₁.disk m ≠ 0 := fun j m h =>
    (n₁ j m).2 (.inl h)
  refine ⟨o₂, fun j m hjm => (b₂ j m (hne j m hjm)).trans (b₁ j m hjm), fun j m => ?_,
    fun j o ho => ?_, fun hall => ?_, ?_, ?_, fun b hb => (l₂' b (s₁.symm ▸ hb)).trans (l₁' b hb),
    s₂.trans s₁⟩
  · rw [n₂, n₁, or_assoc]
    refine or_congr_right ⟨?_, ?_⟩
    · rintro (⟨hj, o, ho₁, ho₂, hm⟩ | ⟨hj, o, ho₁, ho₂, hm⟩)
      · exact ⟨hj, o, ho₁, by rw [length_append]; omega, hm⟩
      · exact ⟨hj, o, by omega, by rw [length_append]; omega, hm⟩
    · rintro ⟨hj, o, ho₁, ho₂, hm⟩
      rw [length_append] at ho₂
      by_cases hlt : o < off + l₁.length
      · exact .inl ⟨hj, o, ho₁, hlt, hm⟩
      · exact .inr ⟨hj, o, by omega, by omega, hm⟩
  · rw [y₂ j o ho]
    by_cases hsnd : j = i ∧ off + l₁.length ≤ o ∧ o < off + l₁.length + l₂.length
    · rw [if_pos hsnd, if_pos ⟨hsnd.1, by omega, by rw [length_append]; omega⟩,
        getD_append_right _ _ _ _ (by omega)]
      congr 1
      omega
    · rw [if_neg hsnd]
      by_cases hmid : (update D i d₁ j).block w₁.disk (o / BSIZE) ≠ 0
      · rw [if_pos hmid, y₁ j o hmid]
        by_cases hfst : j = i ∧ off ≤ o ∧ o < off + l₁.length
        · rw [if_pos hfst, if_pos ⟨hfst.1, hfst.2.1, by rw [length_append]; omega⟩,
            getD_append _ _ _ _ (by omega)]
        · have hnot : ¬ (j = i ∧ off ≤ o ∧ o < off + (l₁ ++ l₂).length) := by
            rintro ⟨hj, hc₁, hc₂⟩
            rw [length_append] at hc₂
            by_cases hlt : o < off + l₁.length
            · exact hfst ⟨hj, hc₁, hlt⟩
            · exact hsnd ⟨hj, by omega, by omega⟩
          rw [if_neg hfst, if_neg hnot]
      · have hold : ¬ (D j).block w.disk (o / BSIZE) ≠ 0 := fun hc => hmid (hne j _ hc)
        have hnot : ¬ (j = i ∧ off ≤ o ∧ o < off + (l₁ ++ l₂).length) := by
          rintro ⟨hj, hc₁, hc₂⟩
          rw [length_append] at hc₂
          by_cases hlt : o < off + l₁.length
          · exact hmid ((n₁ j _).2 (.inr ⟨hj, o, hc₁, hlt, rfl⟩))
          · exact hsnd ⟨hj, by omega, by omega⟩
        rw [if_neg hmid, if_neg hold, if_neg hnot]
  · have hd₁ : d₁ = D i := k₁ fun o ho₁ ho₂ => hall o ho₁ (by rw [length_append]; omega)
    rw [← hd₁]
    refine k₂ fun o ho₁ ho₂ => ?_
    have := hne i (o / BSIZE) (hall o (by omega) (by rw [length_append]; omega))
    rwa [hself] at this
  · rw [i₂, i₁, and_assoc]
    refine and_congr_right fun _ =>
      ⟨fun ⟨h₁, h₂⟩ o ho₁ ho₂ => ?_, fun hall => ⟨fun o ho₁ ho₂ => ?_, fun o ho₁ ho₂ => ?_⟩⟩
    · rw [length_append] at ho₂
      by_cases hlt : o < off + l₁.length
      · exact h₁ o ho₁ hlt
      · exact h₂ o (by omega) (by omega)
    · exact hall o ho₁ (by rw [length_append]; omega)
    · exact hall o (by omega) (by rw [length_append]; omega)
  · rw [f₂, f₁]

theorem needs_self (disk : Disk) (d : Dinode) (b : ℕ) : d.needs disk b b = 0 := by
  simp [Dinode.needs]

theorem needs_eq_zero {disk : Disk} {d : Dinode} {b e : ℕ}
    (h : ∀ k, b ≤ k → k < e → d.block disk k ≠ 0) : d.needs disk b e = 0 := by
  have hfilter : (Finset.Ico b e).filter (fun k => d.block disk k = 0) = ∅ := by
    refine filter_eq_empty_iff.2 fun k hk => ?_
    obtain ⟨h₁, h₂⟩ := mem_Ico.1 hk
    exact h k h₁ h₂
  have hind : ¬ (d.indirect = 0 ∧ b < e ∧ NDIRECT < e) := by
    rintro ⟨h₁, h₂, h₃⟩
    exact h (e - 1) (by omega) (by omega) (Dinode.block_of_indirect_eq_zero (by omega) h₁)
  rw [Dinode.needs, hfilter, if_neg hind]
  rfl

theorem needs_congr {disk disk' : Disk} {d d' : Dinode} {b e : ℕ}
    (hind : d'.indirect = 0 ↔ d.indirect = 0)
    (h : ∀ k, b ≤ k → k < e → (d'.block disk' k = 0 ↔ d.block disk k = 0)) :
    d'.needs disk' b e = d.needs disk b e := by
  have hfilter : ((Finset.Ico b e).filter fun k => d'.block disk' k = 0) =
      (Finset.Ico b e).filter fun k => d.block disk k = 0 :=
    filter_congr fun k hk => h k (mem_Ico.1 hk).1 (mem_Ico.1 hk).2
  rw [Dinode.needs, Dinode.needs, hfilter]
  simp only [hind]

theorem needs_mono (disk : Disk) (d : Dinode) {b e e' : ℕ} (h : e ≤ e') :
    d.needs disk b e ≤ d.needs disk b e' := by
  have hcard := card_le_card (filter_subset_filter (fun k => d.block disk k = 0)
    (Finset.Ico_subset_Ico_right (a := b) h))
  rw [Dinode.needs, Dinode.needs]
  split_ifs <;> omega

theorem needs_eq_lack_add (disk : Disk) (d : Dinode) {k e : ℕ} (hk : k < e) :
    d.needs disk k e = d.lack disk k +
      (((Finset.Ico (k + 1) e).filter fun m => d.block disk m = 0).card + if (d.indirect = 0 ∧
      k < NDIRECT) ∧ k + 1 < e ∧ NDIRECT < e then 1 else 0) := by
  have hcard : ((Finset.Ico k e).filter fun m => d.block disk m = 0).card =
      (if d.block disk k = 0 then 1 else 0) + ((Finset.Ico (k + 1) e).filter fun m =>
        d.block disk m = 0).card := by
    rw [← insert_Ico_add_one_left_eq_Ico hk, filter_insert]
    split_ifs with hz
    · rw [card_insert_of_notMem (by simp), add_comm]
    · rw [zero_add]
  have hdir : d.indirect = 0 → d.block disk k ≠ 0 → k < NDIRECT := by
    intro hind hz
    by_contra hn
    exact hz (Dinode.block_of_indirect_eq_zero (not_lt.1 hn) hind)
  rw [Dinode.needs, Dinode.lack, hcard]
  by_cases hz : d.block disk k = 0 <;> by_cases hind : d.indirect = 0
  · simp only [hz, hind, ne_eq, not_true, if_false, if_true, true_and, and_true]
    split_ifs <;> omega
  · simp only [hz, hind, ne_eq, not_true, if_false, if_true, false_and, and_false]
    omega
  · have hlt := hdir hind hz
    simp only [hz, hind, ne_eq, not_false_eq_true, if_false, if_true, true_and]
    split_ifs <;> omega
  · simp only [hz, hind, ne_eq, not_false_eq_true, if_false, if_true, false_and]
    omega

theorem Grown.needs {w' : Dev} {k e x : ℕ} {d' : Dinode} (hg : Grown w w' D i k x d') (hk : k < e) :
    (D i).needs w.disk k e = (D i).lack w.disk k + d'.needs w'.disk (k + 1) e := by
  have hblock : ∀ m, k + 1 ≤ m → d'.block w'.disk m = (D i).block w.disk m := by
    intro m hm
    have := hg.block i m
    rw [update_self, if_neg (by omega)] at this
    exact this
  have hfilter : ((Finset.Ico (k + 1) e).filter fun m => d'.block w'.disk m = 0) =
      (Finset.Ico (k + 1) e).filter fun m => (D i).block w.disk m = 0 :=
    filter_congr fun m hm => by rw [hblock m (mem_Ico.1 hm).1]
  rw [needs_eq_lack_add _ _ hk, Dinode.needs, hfilter]
  simp only [hg.indirect]

def endBlock (off n : ℕ) : ℕ := if n = 0 then off / BSIZE else (off + n - 1) / BSIZE + 1

theorem endBlock_mono (off : ℕ) {n m : ℕ} (h : n ≤ m) : endBlock off n ≤ endBlock off m := by
  have hB : BSIZE = 512 := rfl
  unfold endBlock
  simp only [hB]
  split_ifs <;> omega

theorem endBlock_round {off n m : ℕ} (hn : 0 < n) (hm : m = min n (BSIZE - off % BSIZE)) :
    off / BSIZE < endBlock off n ∧
      ((endBlock off n = off / BSIZE + 1 ∧ endBlock (off + m) (n - m) = (off + m) / BSIZE) ∨
        ((off + m) / BSIZE = off / BSIZE + 1 ∧ endBlock (off + m) (n - m) = endBlock off n)) := by
  have hB : BSIZE = 512 := rfl
  have hmod := mod_lt off (by decide : 0 < BSIZE)
  rw [endBlock, if_neg (by omega)]
  simp only [hB] at hm hmod ⊢
  refine ⟨by omega, ?_⟩
  by_cases hdone : m = n
  · refine .inl ⟨by omega, ?_⟩
    rw [endBlock, if_pos (by omega), hB]
  · refine .inr ⟨by omega, ?_⟩
    rw [endBlock, if_neg (by omega), hB]
    congr 2
    omega

theorem Written.needs {w' : Dev} {src : List UInt8} {off : ℕ} {d' : Dinode}
    (h : Written w w' D i off src d') (n : ℕ) :
    (D i).needs w.disk (off / BSIZE) (endBlock off (src.length + n)) = (D i).needs w.disk
      (off / BSIZE) (endBlock off src.length) + d'.needs w'.disk ((off + src.length) / BSIZE)
      (endBlock (off + src.length) n) := by
  have hB : BSIZE = 512 := rfl
  rcases Nat.eq_zero_or_pos n with rfl | hn
  · rw [add_zero, endBlock, endBlock, if_pos rfl, needs_self]
    rfl
  have hend : endBlock (off + src.length) n = endBlock off (src.length + n) := by
    rw [endBlock, endBlock, if_neg (by omega), if_neg (by omega), add_assoc]
  have he : endBlock off (src.length + n) = (off + (src.length + n) - 1) / BSIZE + 1 :=
    if_neg (by omega)
  have he₁ : endBlock off src.length =
      if src.length = 0 then off / BSIZE else (off + src.length - 1) / BSIZE + 1 := rfl
  have hle : off / BSIZE ≤ endBlock off src.length ∧
    endBlock off src.length ≤ endBlock off (src.length + n) ∧
      (off + src.length) / BSIZE ≤ endBlock off src.length := by
    rw [he, he₁, hB]
    split_ifs <;> omega
  -- a block is written if and only if it lies between the two ends
  have hwritten : ∀ k, (∃ o, off ≤ o ∧ o < off + src.length ∧ k = o / BSIZE) ↔
      off / BSIZE ≤ k ∧ k < endBlock off src.length := by
    intro k
    rw [he₁, hB]
    constructor
    · rintro ⟨o, h₁, h₂, rfl⟩
      rw [if_neg (by omega)]
      omega
    · intro hk
      split_ifs at hk
      · omega
      · refine ⟨max off (512 * k), ?_⟩
        omega
  have hzero : ∀ k, d'.block w'.disk k = 0 ↔
      (D i).block w.disk k = 0 ∧ ¬ (off / BSIZE ≤ k ∧ k < endBlock off src.length) := by
    intro k
    have := h.ne_zero i k
    rw [update_self] at this
    rw [← hwritten k]
    constructor
    · intro hz
      refine ⟨by_contra fun hc => this.2 (.inl hc) hz, fun hc => this.2 (.inr ⟨rfl, hc⟩) hz⟩
    · rintro ⟨hz, hout⟩
      by_contra hc
      rcases this.1 hc with h₁ | h₁
      · exact h₁ hz
      · exact hout h₁.2
  have hind : d'.indirect = 0 ↔
      (D i).indirect = 0 ∧
      ¬ (off / BSIZE < endBlock off src.length ∧ NDIRECT < endBlock off src.length) := by
    rw [h.indirect]
    refine and_congr_right fun _ => ⟨fun hall hc => ?_, fun hout o h₁ h₂ => ?_⟩
    · obtain ⟨o, h₁, h₂, ho⟩ := (hwritten (endBlock off src.length - 1)).2 (by omega)
      have := hall o h₁ h₂
      omega
    · have := (hwritten (o / BSIZE)).1 ⟨o, h₁, h₂, rfl⟩
      omega
  have hsplit : ((Finset.Ico (off / BSIZE) (endBlock off (src.length + n))).filter fun k =>
    (D i).block w.disk k = 0).card =
      ((Finset.Ico (off / BSIZE) (endBlock off src.length)).filter fun k =>
        (D i).block w.disk k = 0).card +
      ((Finset.Ico ((off + src.length) / BSIZE) (endBlock off (src.length + n))).filter
        fun k => d'.block w'.disk k = 0).card := by
    have hrest : ((Finset.Ico ((off + src.length) / BSIZE) (endBlock off (src.length + n))).filter
        fun k => d'.block w'.disk k = 0) =
        (Finset.Ico (endBlock off src.length) (endBlock off (src.length + n))).filter
          fun k => (D i).block w.disk k = 0 := by
      ext k
      simp only [Finset.mem_filter, Finset.mem_Ico, hzero]
      constructor
      · rintro ⟨hk, hz, hout⟩
        have : off / BSIZE ≤ (off + src.length) / BSIZE :=
          Nat.div_le_div_right (Nat.le_add_right ..)
        exact ⟨⟨by omega, hk.2⟩, hz⟩
      · rintro ⟨hk, hz⟩
        exact ⟨⟨by omega, hk.2⟩, hz, by omega⟩
    rw [hrest, ← Finset.Ico_union_Ico_eq_Ico hle.1 hle.2.1, Finset.filter_union,
      Finset.card_union_of_disjoint]
    exact Finset.disjoint_filter_filter (Finset.Ico_disjoint_Ico_consecutive ..)
  rw [hend, Dinode.needs, Dinode.needs, Dinode.needs, hsplit]
  have hlt : off / BSIZE < endBlock off (src.length + n) ∧
      (off + src.length) / BSIZE < endBlock off (src.length + n) := by
    rw [he, hB]
    omega
  simp only [hind, hlt.1, hlt.2, true_and]
  by_cases hz : (D i).indirect = 0
  · simp only [hz, true_and]
    split_ifs <;> omega
  · simp only [hz, false_and, if_false]
    omega

theorem Grown.round {w₁ : Dev} {src : List UInt8} {off m x : ℕ} {d₁ : Dinode}
    (hg : Grown w w₁ D i (off / BSIZE) x d₁) (hz : src ≠ [])
    (hm : m = min src.length (BSIZE - off % BSIZE)) {w₂ : Dev}
    (hw₂ : w₂ = w₁.logWrite x (blit (w₁.disk x) (off % BSIZE) m fun k => src.getD k 0)) :
    Written w w₂ D i off (src.take m) d₁ ∧ w₂.freeBlocks = w₁.freeBlocks ∧
      (D i).needs w.disk (off / BSIZE) (endBlock off src.length) = (D i).lack w.disk (off / BSIZE) +
      d₁.needs w₂.disk ((off + m) / BSIZE) (endBlock (off + m) (src.drop m).length) := by
  have hpos : 0 < src.length := length_pos_iff.2 hz
  have hmod := mod_lt off (by decide : 0 < BSIZE)
  have hlen : (src.take m).length = m := by
    rw [length_take]
    omega
  have hself : update D i d₁ i = d₁ := update_self ..
  have hx : (update D i d₁ i).block w₁.disk (off / BSIZE) = x := by
    rw [hg.block, if_pos ⟨rfl, rfl⟩]
  have hchunk : Written w _ D i off (src.take m) d₁ :=
    Written.chunk hg (by omega) (by omega) (fun k => src.getD k 0) fun k hk => by
      rw [getD_eq_getElem?_getD, getD_eq_getElem?_getD, getElem?_take_of_lt (by omega)]
  rw [hlen, ← hw₂] at hchunk
  obtain ⟨-, hblock, hfree⟩ :=
    hg.owned.logWrite (i := i) (k := off / BSIZE) (by rw [hx]; exact hg.ne_zero)
    (blit (w₁.disk x) (off % BSIZE) m fun k => src.getD k 0)
  rw [hx, ← hw₂] at hblock hfree
  refine ⟨hchunk, hfree, ?_⟩
  obtain ⟨hend, hrest⟩ := endBlock_round hpos hm
  rw [hg.needs hend, length_drop]
  congr 1
  rcases hrest with ⟨h₁, h₂⟩ | ⟨h₁, h₂⟩
  · rw [h₁, h₂, needs_self, needs_self]
  · rw [h₁, h₂]
    refine (needs_congr Iff.rfl fun k _ _ => ?_).symm
    have hk := hblock i k
    rw [hself] at hk
    rw [hk]

theorem Owned.writeiLoop_spec {src : List UInt8} {off : ℕ} (h : Owned w D)
    (hmax : off + src.length ≤ MAXFILE * BSIZE) :
    Sat (fun e w' => e = .balloc ∧
      w.freeBlocks < (D i).needs w.disk (off / BSIZE) (endBlock off src.length) ∧
      ∃ y, Logs w w' (D i).indirect y
      (endBlock off src.length - off / BSIZE + (D i).needs w.disk (off / BSIZE)
      (endBlock off src.length))) (fun r w' => r.1 = off + src.length ∧
      Written w w' D i off src r.2 ∧
      w'.freeBlocks + (D i).needs w.disk (off / BSIZE) (endBlock off src.length) = w.freeBlocks ∧
      Logs w w' (D i).indirect r.2.indirect
      (endBlock off src.length - off / BSIZE + (D i).needs w.disk (off / BSIZE)
      (endBlock off src.length))) (writeiLoop (D i) src off w) := by
  induction hn : src.length using Nat.strong_induction_on generalizing w D src off with
  | _ n ih =>
    subst hn
    rw [writeiLoop]
    by_cases hz : src = []
    · subst hz
      rw [if_pos rfl]
      refine ⟨rfl, Written.nil h off, ?_, .refl ..⟩
      simp only [length_nil, endBlock, if_true, needs_self]
      rfl
    · have hpos : 0 < src.length := length_pos_iff.2 hz
      have hmod := Nat.mod_lt off (by decide : 0 < BSIZE)
      obtain ⟨m, hm⟩ : ∃ m, m = min src.length (BSIZE - off % BSIZE) := ⟨_, rfl⟩
      have hlen : (src.take m).length = m := by
        rw [length_take]
        omega
      have hk : off / BSIZE < MAXFILE := Nat.div_lt_of_lt_mul (by rw [mul_comm]; omega)
      rw [if_neg hz, ← hm]
      obtain ⟨hend, hround⟩ := endBlock_round hpos hm
      refine Sat.bind ((h.bmap_spec hk).weaken ?_) fun r w₁ hg => ?_
      · rintro e w' ⟨he, hlack, y, hlogs⟩
        have hneeds := needs_eq_lack_add w.disk (D i) hend
        exact ⟨he, by omega, y, hlogs.trans (.refl _ _ 0) (by omega)⟩
      obtain ⟨x, d₁⟩ := r
      replace hg : Grown w w₁ D i (off / BSIZE) x d₁ := hg
      simp only [run_get_bind, run_logWrite_bind]
      obtain ⟨w₂, hw₂⟩ : ∃ w₂,
        w₂ = w₁.logWrite x (blit (w₁.disk x) (off % BSIZE) m fun k => src.getD k 0) := ⟨_, rfl⟩
      obtain ⟨hchunk, hfree, hneeds⟩ := hg.round hz hm hw₂
      rw [← hw₂]
      -- the rest of the bytes, in the next block
      have hrest : Sat _ _ (writeiLoop (update D i d₁ i) (src.drop m) (off + m) w₂) :=
        ih (src.drop m).length (by rw [length_drop]; omega) hchunk.owned
        (by rw [length_drop]; omega) rfl
      rw [update_self] at hrest
      have hcount : w₂.freeBlocks + (D i).lack w.disk (off / BSIZE) = w.freeBlocks := by
        rw [hfree, hg.count]
      have hlogs : Logs w w₂ (D i).indirect d₁.indirect _ := hw₂ ▸ hg.logs _
      have hle : (D i).lack w.disk (off / BSIZE) + 1 +
        (endBlock (off + m) (src.drop m).length - (off + m) / BSIZE + d₁.needs w₂.disk
          ((off + m) / BSIZE) (endBlock (off + m) (src.drop m).length)) ≤
          endBlock off src.length - off / BSIZE + (D i).needs w.disk (off / BSIZE)
          (endBlock off src.length) := by
        rw [length_drop] at hneeds ⊢
        omega
      refine (hrest.mono fun r w' hr => ?_).weaken fun e _ ⟨he, hlt, y, hy⟩ =>
        ⟨he, by omega, y, hlogs.trans hy hle⟩
      obtain ⟨hoff, hw, hc, hlogs'⟩ := hr
      refine ⟨by rw [hoff, length_drop]; omega, ?_, by omega, hlogs.trans hlogs' hle⟩
      have happ := hchunk.append (src.drop m) (by rw [hlen]; exact hw)
      rwa [take_append_drop] at happ

end FS

end Xv6
