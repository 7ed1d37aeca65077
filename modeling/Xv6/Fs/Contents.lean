import Xv6.Fs.Writing
import Xv6.Lib.Overwrite

/-!
# The contents of files

`w.inode i` is the inode `i` of the file system with its contents, as it is on the disk.  In a sound
file system (`Dev.Sound`: the blocks are owned, and files have the blocks up to their size) the
functions on inodes do what they are for.
-/

namespace Xv6

open LittleEndian Function List Nat

structure Node where
  type : ℕ
  major : ℕ
  minor : ℕ
  nlink : ℕ
  data : List UInt8
  deriving DecidableEq

def Node.free : Node := ⟨0, 0, 0, 0, []⟩

/-- The inode `d` with its contents. -/
def Dinode.node (disk : Disk) (d : Dinode) :
    Node := ⟨d.type, d.major, d.minor, d.nlink, d.bytes disk 0 d.size⟩

theorem Dinode.node_zero (disk : Disk) : Dinode.zero.node disk = Node.free := rfl

theorem Dinode.getD_bytes {disk : Disk} {d : Dinode} {n k : ℕ} (hk : k < n) :
    (d.bytes disk 0 n).getD k 0 = d.byteAt disk k := by
  have hlen : k < (d.bytes disk 0 n).length := by rwa [Dinode.length_bytes]
  rw [getD_eq_getElem _ _ hlen]
  simp [Dinode.bytes]

theorem Dinode.bytes_congr {disk disk' : Disk} {d d' : Dinode} {n : ℕ}
    (h : ∀ o < n, d'.byteAt disk' o = d.byteAt disk o) : d'.bytes disk' 0 n = d.bytes disk 0 n := by
  refine map_congr_left fun o ho => ?_
  rw [zero_add]
  exact h o (mem_range.1 ho)

theorem Dinode.bytes_eq_drop_take (disk : Disk) (d : Dinode) (size : ℕ) {off n : ℕ}
    (h : off + n ≤ size) : d.bytes disk off n = ((d.bytes disk 0 size).drop off).take n := by
  refine ext_getElem ?_ fun k h₁ h₂ => ?_
  · simp only [Dinode.length_bytes, length_take, length_drop]
    omega
  · simp [Dinode.bytes]

namespace FS

open Fallible Overwrite

variable (w : Dev) (i : ℕ)

def Dev.dinode : Dinode := w.disk.dinode w.sb i

def Dev.live : Dinode :=
  if i < w.sb.ninodes ∧ (w.dinode i).type ≠ 0 then w.dinode i else Dinode.zero

def Dev.inode : Node := (w.live i).node w.disk

/-- The blocks of the allocated inodes are owned, and a file or directory has all blocks up to its
size. -/
structure Dev.Sound (w : Dev) : Prop where
  owned : Owned w w.live
  mapped : ∀ i, (w.live i).type ≠ T_DEV → ∀ o < (w.live i).size,
    (w.live i).block w.disk (o / BSIZE) ≠ 0

section live

variable {w w' : Dev} {D : ℕ → Dinode} {i j : ℕ} {d : Dinode}

theorem Dev.live_eq (h : (w.live i).type ≠ 0) : i < w.sb.ninodes ∧ w.live i = w.dinode i := by
  unfold Dev.live at h ⊢
  split_ifs at h ⊢ with hi
  · exact ⟨hi.1, rfl⟩
  · exact absurd rfl h

theorem Dev.live_fits (w : Dev) (i : ℕ) : (w.live i).Fits := by
  unfold Dev.live
  split_ifs
  · exact Dinode.fits_get ..
  · exact Dinode.fits_zero

theorem Dev.live_congr (hsb : w'.sb = w.sb)
    (h : ∀ i < w.sb.ninodes, w'.disk (IBLOCK i w.sb) = w.disk (IBLOCK i w.sb)) :
    w'.live = w.live := by
  funext i
  unfold Dev.live Dev.dinode
  rw [hsb]
  by_cases hi : i < w.sb.ninodes
  · rw [Disk.dinode_congr (h i hi)]
  · rw [if_neg (fun hc => hi hc.1), if_neg (fun hc => hi hc.1)]

theorem Owned.live_congr (h : Owned w D) (hsb : w'.sb = w.sb)
    (hlow : ∀ b < w.sb.bmapstart, w'.disk b = w.disk b) : w'.live = w.live :=
  Dev.live_congr hsb fun i hi => hlow _ (h.layout.inodes i hi)

/-! ## `iupdate` -/

def Dev.iupdate (w : Dev) (i : ℕ) (d : Dinode) : Dev :=
  w.logWrite (IBLOCK i w.sb) (Dinode.put (w.disk (IBLOCK i w.sb)) (i % IPB) d)

@[simp] theorem run_iupdate_bind {α : Type} (i : ℕ) (d : Dinode) (f : Unit → DevM α) (w : Dev) :
    (FS.iupdate i d >>= f) w = f () (w.iupdate i d) := rfl

theorem Dev.live_iupdate (hi : i < w.sb.ninodes) (hd : d.Fits) :
    (w.iupdate i d).live = update w.live i (if d.type ≠ 0 then d else Dinode.zero) := by
  funext j
  by_cases hj : j = i
  · subst hj
    have hself : (w.iupdate j d).dinode j = d := Disk.dinode_putDinode_self hd
    rw [update_self, Dev.live, hself]
    have hi' : j < (w.iupdate j d).sb.ninodes := hi
    simp only [hi', true_and]
  · have hne : (w.iupdate i d).dinode j = w.dinode j := Disk.dinode_putDinode_of_ne d hj
    rw [update_of_ne hj, Dev.live, hne]
    rfl

theorem Owned.iblock_lt (h : Owned w D) (hi : i < w.sb.ninodes) {b : ℕ} (hb : b = 0 ∨ b ∈ w.used) :
    b ≠ IBLOCK i w.sb := by
  have h₁ := h.layout.inodes i hi
  have h₂ := h.layout.super
  have h₃ : w.sb.inodestart ≤ IBLOCK i w.sb := Nat.le_add_left ..
  rcases hb with hb | hb
  · omega
  · have h₄ := hb.1
    have h₅ := h.bmapstart_lt hb.2.1
    omega

theorem Owned.iupdate (h : Owned w D) (hi : i < w.sb.ninodes) (d : Dinode) :
    Owned (w.iupdate i d) D ∧ (∀ j m, (D j).block (w.iupdate i d).disk m = (D j).block w.disk m) ∧
      (∀ j o, (D j).byteAt (w.iupdate i d).disk o = (D j).byteAt w.disk o) ∧
      (w.iupdate i d).freeBlocks = w.freeBlocks := by
  have hother : ∀ b, b ≠ IBLOCK i w.sb → (w.iupdate i d).disk b = w.disk b := fun b hb =>
    update_of_ne hb ..
  have hmark : ∀ c < w.sb.size, (w.iupdate i d).disk.marked w.sb c = w.disk.marked w.sb c := by
    intro c hc
    have h₁ := h.layout.inodes i hi
    have h₂ := bmapstart_le c w.sb
    rw [Disk.marked, hother _ (by omega)]
    rfl
  have hind : ∀ j, (D j).indirect ≠ 0 →
    (w.iupdate i d).disk (D j).indirect = w.disk (D j).indirect := fun j hj =>
    hother _ (h.iblock_lt hi (.inr (h.indirect_used hj)))
  have hblock : ∀ j m, (D j).block (w.iupdate i d).disk m = (D j).block w.disk m := fun j m =>
    Dinode.block_congr (hind j) m
  have hsuper : (w.iupdate i d).disk 1 = w.disk 1 := by
    have h₁ := h.layout.super
    have h₂ : w.sb.inodestart ≤ IBLOCK i w.sb := Nat.le_add_left ..
    exact hother 1 (by omega)
  refine ⟨h.congr rfl hsuper hmark (tree_congr hind), hblock, fun j o => ?_,
    freeBlocks_congr rfl hmark⟩
  have hb : (D j).block w.disk (o / BSIZE) = 0 ∨ (D j).block w.disk (o / BSIZE) ∈ w.used :=
    (Decidable.em _).imp_right h.block_used
  rw [Dinode.byteAt, hblock, hother _ (h.iblock_lt hi hb)]
  rfl

end live

/-! ## `writei` and `readi` -/

section writei

variable {w w' : Dev} {D : ℕ → Dinode} {i off : ℕ} {src : List UInt8} {d' : Dinode}

section

variable (h : Written w w' D i off src d') (hw : Owned w D)

include h hw

theorem Written.getByte (j o : ℕ) : (update D i d' j).byteAt w'.disk o =
      if j = i ∧ off ≤ o ∧ o < off + src.length then src.getD (o - off) 0
      else if (D j).block w.disk (o / BSIZE) = 0 ∧
      (update D i d' j).block w'.disk (o / BSIZE) ≠ 0 then 0 else (D j).byteAt w.disk o := by
  by_cases hb : (update D i d' j).block w'.disk (o / BSIZE) ≠ 0
  · rw [h.byteAt j o hb]
    simp only [ne_eq, hb, not_false_eq_true, and_true, ite_not]
  · have hold : (D j).block w.disk (o / BSIZE) = 0 := by
      by_contra hc
      exact hb ((h.ne_zero j _).2 (.inl hc))
    have hout : ¬ (j = i ∧ off ≤ o ∧ o < off + src.length) := fun hc =>
      hb ((h.ne_zero j _).2 (.inr ⟨hc.1, o, hc.2.1, hc.2.2, rfl⟩))
    rw [if_neg hout, if_neg (fun hc => hb hc.2), Dinode.byteAt, Dinode.byteAt, not_not.1 hb, hold,
      h.low 0 (by have := hw.super_lt; omega)]

theorem Written.node_of_ne {j : ℕ} (hj : j ≠ i) : (D j).node w'.disk = (D j).node w.disk := by
  have hbytes : (D j).bytes w'.disk 0 (D j).size = (D j).bytes w.disk 0 (D j).size := by
    refine Dinode.bytes_congr fun o _ => ?_
    have := h.getByte hw j o
    have hiff := h.ne_zero j (o / BSIZE)
    rw [update_of_ne hj] at this hiff
    rw [this, if_neg (fun hc => hj hc.1), if_neg]
    rintro ⟨h₁, h₂⟩
    rcases hiff.1 h₂ with h₃ | h₃
    · exact h₃ h₁
    · exact hj h₃.1
  rw [Dinode.node, hbytes]
  rfl

theorem Written.data (hoff : off ≤ (D i).size)
    (hmapped : ∀ o < (D i).size, (D i).block w.disk (o / BSIZE) ≠ 0) :
    d'.bytes w'.disk 0 (max (D i).size (off + src.length)) = overwrite
      ((D i).bytes w.disk 0 (D i).size) off src := by
  have hlen : ((D i).bytes w.disk 0 (D i).size).length = (D i).size := Dinode.length_bytes ..
  refine ext_getD 0 ?_ fun o ho => ?_
  · rw [Dinode.length_bytes, length_overwrite _ (by omega), hlen]
  · rw [Dinode.length_bytes] at ho
    have hbyte := h.getByte hw i o
    rw [update_self] at hbyte
    rw [Dinode.getD_bytes ho, hbyte, getD_overwrite _ (by omega)]
    simp only [true_and]
    split_ifs with hin hz
    · rfl
    · exact absurd hz.1 (hmapped o (by omega))
    · rw [Dinode.getD_bytes (by omega)]

end

theorem Owned.addrs_lt (h : Owned w D) (i : ℕ) (k : Fin (NDIRECT + 1)) :
    (D i).addrs k < 2 ^ 32 := by
  have hlt : ∀ a, tree w.disk D a < 2 ^ 32 := by
    intro a
    by_cases ha : tree w.disk D a = 0
    · rw [ha]
      exact Nat.two_pow_pos 32
    · exact (h.exact.mem ha).2.1.trans h.layout.size
  refine Fin.lastCases ?_ (fun k => ?_) k
  · have := hlt (i, MAXFILE)
    rwa [tree, Dinode.ptr_maxfile] at this
  · have hk : k.val < MAXFILE := by
      have := k.isLt
      simp only [MAXFILE]
      omega
    have := hlt (i, k.val)
    rwa [tree, Dinode.ptr_of_lt hk, Dinode.block_direct k.isLt] at this

theorem byteAt_of_addrs {disk : Disk} {d d' : Dinode} (h : d'.addrs = d.addrs) (o : ℕ) :
    d'.byteAt disk o = d.byteAt disk o := by
  rw [Dinode.byteAt, Dinode.block_of_addrs h]
  rfl

theorem Written.sound_inside (hw : Written w w' w.live i off src d') (h : w.Sound) (hdev : (w.live i).type ≠ T_DEV)
    (hoff : off ≤ (w.live i).size) (hend : src = [] ∨ off + src.length ≤ (w.live i).size) :
    d' = w'.live i ∧ w'.Sound ∧
      w'.inode = update w.inode i { w.inode i with data := overwrite (w.inode i).data off src } := by
  have hlive : w'.live = w.live := h.owned.live_congr hw.sb hw.low
  have hd : d' = w.live i := by
    refine hw.kept fun o h₁ h₂ => h.mapped i hdev o ?_
    rcases hend with rfl | hend
    · simp only [length_nil] at h₂
      omega
    · omega
  have hself : update w.live i d' = w.live := by rw [hd, update_eq_self]
  have hsize : max (w.live i).size (off + src.length) = (w.live i).size := by
    rcases hend with rfl | hend
    · simpa using hoff
    · exact max_eq_left hend
  refine ⟨by rw [hlive, hd], ⟨?_, fun j hj o ho => ?_⟩, funext fun j => ?_⟩
  · rw [hlive, ← hself]
    exact hw.owned
  · rw [hlive] at hj ho ⊢
    have := (hw.ne_zero j (o / BSIZE)).2 (.inl (h.mapped j hj o ho))
    rwa [hself] at this
  · by_cases hj : j = i
    · subst hj
      have hdata := hw.data h.owned hoff (h.mapped j hdev)
      rw [hsize, hd] at hdata
      rw [update_self, Dev.inode, hlive, Dinode.node, hdata]
      rfl
    · rw [update_of_ne hj, Dev.inode, hlive, hw.node_of_ne h.owned hj]
      rfl

theorem Written.sound_grown (hw : Written w w' w.live i off src d') (h : w.Sound)
    (hlive : (w.live i).type ≠ 0) (hdev : (w.live i).type ≠ T_DEV) (hoff : off ≤ (w.live i).size)
    (hmax : off + src.length ≤ MAXFILE * BSIZE) (hend : (w.live i).size < off + src.length) :
    (w'.iupdate i { d' with size := off + src.length }).live =
        update w.live i { d' with size := off + src.length } ∧
      (w'.iupdate i { d' with size := off + src.length }).Sound ∧
      (w'.iupdate i { d' with size := off + src.length }).inode =
        update w.inode i { w.inode i with data := overwrite (w.inode i).data off src } ∧
      (w'.iupdate i { d' with size := off + src.length }).freeBlocks = w'.freeBlocks ∧
      ∀ b e, Dinode.needs (w'.iupdate i { d' with size := off + src.length }).disk
        { d' with size := off + src.length } b e = d'.needs w'.disk b e := by
  have hM : MAXFILE * BSIZE < 2 ^ 32 := by decide
  have hi := (Dev.live_eq hlive).1
  have hi' : i < w'.sb.ninodes := by rwa [hw.sb]
  have hlive' : w'.live = w.live := h.owned.live_congr hw.sb hw.low
  obtain ⟨d₂, hd₂⟩ : ∃ d₂, d₂ = { d' with size := off + src.length } := ⟨_, rfl⟩
  rw [← hd₂]
  have haddrs : d₂.addrs = d'.addrs := by rw [hd₂]
  have hfits := w.live_fits i
  have htype : d₂.type = (w.live i).type := by rw [hd₂, hw.fields]
  have hfits₂ : d₂.Fits := by
    have haddrs_lt := hw.owned.addrs_lt i
    rw [update_self] at haddrs_lt
    refine ⟨htype ▸ hfits.type, ?_, ?_, ?_, ?_, fun k => by rw [haddrs]; exact haddrs_lt k⟩
    · rw [hd₂, hw.fields]
      exact hfits.major
    · rw [hd₂, hw.fields]
      exact hfits.minor
    · rw [hd₂, hw.fields]
      exact hfits.nlink
    · rw [hd₂]
      exact hmax.trans_lt hM
  have hupd : (w'.iupdate i d₂).live = update w.live i d₂ := by
    rw [Dev.live_iupdate hi' hfits₂, hlive', if_pos (by rw [htype]; exact hlive)]
  -- the size is not part of the tree of blocks
  have htree : ∀ a, tree w'.disk (update w.live i d₂) a = tree w'.disk (update w.live i d') a := by
    rintro ⟨j, k⟩
    by_cases hj : j = i
    · subst hj
      rw [tree_update_self, tree_update_self, Dinode.ptr_of_addrs haddrs]
    · rw [tree_update_of_ne hj, tree_update_of_ne hj]
  have howned : Owned w' (update w.live i d₂) := hw.owned.congr rfl rfl (fun _ _ => rfl) htree
  obtain ⟨h₁, h₂, h₃, h₄⟩ := howned.iupdate hi' d₂
  have h₅ : ∀ b e, d₂.needs (w'.iupdate i d₂).disk b e = d'.needs w'.disk b e := by
    intro b e
    refine needs_congr (by rw [Dinode.indirect, haddrs]; rfl) fun k _ _ => ?_
    have hk := h₂ i k
    rw [update_self] at hk
    rw [hk, Dinode.block_of_addrs haddrs]
  refine ⟨hupd, ⟨?_, fun j hj o ho => ?_⟩, funext fun j => ?_, h₄, h₅⟩
  · rw [hupd]
    exact h₁
  · rw [hupd] at hj ho ⊢
    rw [h₂]
    by_cases hji : j = i
    · subst hji
      rw [update_self] at ho ⊢
      rw [Dinode.block_of_addrs haddrs]
      have hne := hw.ne_zero j (o / BSIZE)
      rw [update_self] at hne
      rw [hd₂] at ho
      by_cases hin : o < (w.live j).size
      · exact hne.2 (.inl (h.mapped j hdev o hin))
      · exact hne.2 (.inr ⟨rfl, o, by omega, ho, rfl⟩)
    · rw [update_of_ne hji] at hj ho ⊢
      have := (hw.ne_zero j (o / BSIZE)).2 (.inl (h.mapped j hj o ho))
      rwa [update_of_ne hji] at this
  · rw [Dev.inode, hupd]
    have hsame : (update w.live i d₂ j).node (w'.iupdate i d₂).disk =
        (update w.live i d₂ j).node w'.disk := by
      rw [Dinode.node, Dinode.bytes_congr fun o _ => h₃ j o]
      rfl
    rw [hsame]
    by_cases hji : j = i
    · subst hji
      have hdata := hw.data h.owned hoff (h.mapped j hdev)
      rw [max_eq_right hend.le] at hdata
      have hbytes : d₂.bytes w'.disk 0 d₂.size = overwrite (w.inode j).data off src := by
        rw [Dinode.bytes_congr fun o _ => byteAt_of_addrs haddrs o, hd₂]
        exact hdata
      rw [update_self, update_self, Dinode.node, hbytes, hd₂, hw.fields]
      rfl
    · rw [update_of_ne hji, update_of_ne hji, hw.node_of_ne h.owned hji]
      rfl

theorem Dev.Sound.writei_spec (h : w.Sound) (hlive : (w.live i).type ≠ 0) (hdev : (w.live i).type ≠ T_DEV)
    (hoff : off ≤ (w.live i).size) (hmax : off + src.length ≤ MAXFILE * BSIZE) :
    Sat (fun e _ => e = .balloc ∧
        w.freeBlocks < (w.live i).needs w.disk (off / BSIZE) (endBlock off src.length))
      (fun r w' => r = (some src.length, w'.live i) ∧ w'.Sound ∧
        (w'.sb = w.sb ∧ ∀ j, j ≠ i → w'.live j = w.live j) ∧
        w'.inode = update w.inode i { w.inode i with data := overwrite (w.inode i).data off src } ∧
        w'.freeBlocks + (w.live i).needs w.disk (off / BSIZE) (endBlock off src.length) = w.freeBlocks ∧
        ∀ n, (w.live i).needs w.disk (off / BSIZE) (endBlock off (src.length + n)) =
          (w.live i).needs w.disk (off / BSIZE) (endBlock off src.length) +
            (w'.live i).needs w'.disk ((off + src.length) / BSIZE) (endBlock (off + src.length) n))
      (writei i (w.live i) src off w) := by
  have hM : MAXFILE * BSIZE < 2 ^ 32 := by decide
  have hmod : (off + src.length) % 2 ^ 32 = off + src.length := Nat.mod_eq_of_lt (by omega)
  obtain ⟨hi, -⟩ := Dev.live_eq hlive
  rw [writei, if_neg hdev, hmod, if_neg (by omega), if_neg (by omega)]
  refine ((h.owned.writeiLoop_spec hmax).weaken fun _ _ he => ⟨he.1, he.2.1⟩).bind fun r w₁ hr => ?_
  obtain ⟨off', d₁⟩ := r
  obtain ⟨rfl, hw, hcount, -⟩ := hr
  replace hw : Written w w₁ w.live i off src d₁ := hw
  have hsize : d₁.size = (w.live i).size := by rw [hw.fields]
  by_cases hgrow : 0 < src.length ∧ d₁.size < off + src.length
  · simp only [if_pos hgrow, run_iupdate_bind]
    obtain ⟨h₁, h₂, h₃, h₄, h₅⟩ := hw.sound_grown h hlive hdev hoff hmax (by omega)
    have hself : (w₁.iupdate i { d₁ with size := off + src.length }).live i = { d₁ with size := off + src.length } := by
      rw [h₁, update_self]
    refine ⟨by rw [hself], h₂, ⟨hw.sb, fun j hj => ?_⟩, h₃, by rw [h₄]; exact hcount, fun n => ?_⟩
    · rw [h₁, update_of_ne hj]
    · rw [hw.needs n, hself, h₅]
  · simp only [if_neg hgrow]
    have hend : src = [] ∨ off + src.length ≤ (w.live i).size := by
      rcases Nat.eq_zero_or_pos src.length with h₀ | h₀
      · exact .inl (length_eq_zero_iff.1 h₀)
      · exact .inr (by omega)
    obtain ⟨h₁, h₂, h₃⟩ := hw.sound_inside h hdev hoff hend
    have hlive' : w₁.live = w.live := h.owned.live_congr hw.sb hw.low
    exact ⟨by rw [← h₁], h₂, ⟨hw.sb, fun j _ => by rw [hlive']⟩, h₃, hcount, fun n => by rw [hw.needs n, ← h₁]⟩

theorem Dev.length_data (w : Dev) (i : ℕ) : (w.inode i).data.length = (w.live i).size :=
  Dinode.length_bytes ..

theorem Dev.Sound.needs_inside (h : w.Sound) (hdev : (w.live i).type ≠ T_DEV) {n : ℕ}
    (hn : off + n ≤ (w.live i).size) :
    (w.live i).needs w.disk (off / BSIZE) (endBlock off n) = 0 := by
  have hB : BSIZE = 512 := rfl
  refine needs_eq_zero fun k h₁ h₂ => ?_
  rw [endBlock] at h₂
  split_ifs at h₂ with h₀
  · omega
  · have hk : (max off (k * BSIZE)) / BSIZE = k := by
      simp only [hB] at h₁ h₂ ⊢
      omega
    rw [← hk]
    refine h.mapped i hdev _ ?_
    simp only [hB] at h₁ h₂ ⊢
    omega

theorem Dev.Sound.readi_spec (h : w.Sound) (hdev : (w.live i).type ≠ T_DEV) {n : ℕ}
    (hoff : off < 2 ^ 32) (hn : n < 2 ^ 32) : readi (w.live i) off n w =
      (.ok (if (w.inode i).data.length < off ∨ 2 ^ 32 ≤ off + n then none
        else some (((w.inode i).data.drop off).take n), w.live i), w) := by
  rw [Dev.length_data]
  by_cases hbad : (w.live i).size < off ∨ 2 ^ 32 ≤ off + n
  · have hmod : (w.live i).size < off ∨ (off + n) % 2 ^ 32 < off := by
      rcases hbad with h₁ | h₁
      · exact .inl h₁
      · exact .inr (by omega)
    rw [if_pos hbad, readi, if_neg hdev, if_pos hmod]
    rfl
  · rw [if_neg hbad, readi_mapped hdev (by omega) (by omega) (fun o _ => h.mapped i hdev o),
      Dinode.bytes_eq_drop_take w.disk (w.live i) (w.live i).size (by omega)]
    have htake : (((w.inode i).data.drop off).take (min n ((w.live i).size - off))) =
        ((w.inode i).data.drop off).take n := by
      rw [← Dev.length_data, ← length_drop, take_eq_take_iff]
      simp
    exact congrArg (fun l => (Except.ok (some l, w.live i), w)) htake

theorem writei_refused {d : Dinode} (hdev : d.type ≠ T_DEV) (hoff : off < 2 ^ 32)
    (hn : src.length < 2 ^ 32) (hbad : ¬ (off ≤ d.size ∧ off + src.length ≤ MAXFILE * BSIZE)) :
    writei i d src off w = (.ok (none, d), w) := by
  rw [writei, if_neg hdev]
  by_cases h₁ : d.size < off ∨ (off + src.length) % 2 ^ 32 < off
  · rw [if_pos h₁]
    rfl
  · rw [if_neg h₁, if_pos (by omega)]
    rfl

/-- A file is an array of bytes: `writei` overwrites a part of one file and changes no other,
`readi` returns what is there, and arguments out of range change nothing. -/
theorem file_is_bytes (h : w.Sound) (hlive : (w.live i).type ≠ 0) (hdev : (w.live i).type ≠ T_DEV) :
    (∀ off src, off ≤ (w.inode i).data.length → off + src.length ≤ MAXFILE * BSIZE →
      (w.live i).needs w.disk (off / BSIZE) (endBlock off src.length) ≤ w.freeBlocks →
      ∃ w', writei i (w.live i) src off w = (.ok (some src.length, w'.live i), w') ∧ w'.Sound ∧
        w'.inode = update w.inode i { w.inode i with data := overwrite (w.inode i).data off src } ∧
        (w'.inode i).data.length = max (w.inode i).data.length (off + src.length)) ∧
    (∀ off < 2 ^ 32, ∀ src : List UInt8, src.length < 2 ^ 32 →
      ¬ (off ≤ (w.inode i).data.length ∧ off + src.length ≤ MAXFILE * BSIZE) →
      writei i (w.live i) src off w = (.ok (none, w.live i), w)) ∧
    ∀ off < 2 ^ 32, ∀ n < 2 ^ 32, readi (w.live i) off n w =
      (.ok (if (w.inode i).data.length < off ∨ 2 ^ 32 ≤ off + n then none
        else some (((w.inode i).data.drop off).take n), w.live i), w) := by
  refine ⟨fun off src hoff hmax hfree => ?_, fun off hoff src hn hbad => ?_,
    fun off hoff n hn => ?_⟩
  · have hoff' : off ≤ (w.live i).size := by rwa [Dev.length_data] at hoff
    have hspec : Sat (fun _ _ => False) _ (writei i (w.live i) src off w) :=
      (h.writei_spec hlive hdev hoff' hmax).weaken fun e _ he => by
        have := he.2
        omega
    obtain ⟨r, w', hrun, rfl, hsound, -, hinode, -⟩ := hspec.exists_ok
    refine ⟨w', hrun, hsound, hinode, ?_⟩
    rw [hinode, update_self, length_overwrite _ hoff]
  · rw [Dev.length_data] at hbad
    exact writei_refused hdev hoff hn hbad
  · exact h.readi_spec hdev hoff hn

/-! ## An empty file -/

/-- Boot block, superblock, inodes, free map, a block that is not used, and `n` blocks of data. -/
def smallSb (n : ℕ) : Superblock := ⟨5 + n, n, 8, 0, 2, 2, 3⟩

theorem BBLOCK_smallSb {n b : ℕ} (hn : n < 59) (hb : b < 5 + n) : BBLOCK b (smallSb n) = 3 ∧
    b % BPB = b := by
  have hlt : b < BPB := by
    have : BPB = 4096 := rfl
    omega
  exact ⟨by rw [BBLOCK, div_eq_of_lt hlt]; rfl, mod_eq_of_lt hlt⟩

theorem dataStart_smallSb (n : ℕ) : (smallSb n).dataStart = 5 := Nat.add_sub_cancel ..

theorem smallSb_layout {n : ℕ} (hn : n < 59) : (smallSb n).Layout where
  super := lt_succ_self 1
  order := le_succ 2
  inodes i hi := by
    have hi' : i < 8 := hi
    show i / 8 + 2 < 3
    omega
  bmap b hb := by
    rw [(BBLOCK_smallSb hn hb).1, dataStart_smallSb]
    decide
  size := by
    show 5 + n < _
    omega

/-- A file system with an empty file and the given free map. -/
def emptyFile (n : ℕ) (bits : Block) : Dev where
  disk b :=
    if b = 1 then Superblock.put zeroes (smallSb n)
    else if b = 2 then Dinode.put zeroes 1 { Dinode.zero with type := T_FILE, nlink := 1 }
    else if b = 3 then bits
    else zeroes
  sb := smallSb n
  logged := []

section emptyFile

variable {n : ℕ} {bits : Block}

theorem emptyFile_dinode (i : Fin 8) : (emptyFile n bits).dinode i =
    Dinode.get (Dinode.put zeroes 1 { Dinode.zero with type := T_FILE, nlink := 1 }) i := by
  have hi : IBLOCK i (smallSb n) = 2 := by
    show i.val / 8 + 2 = 2
    omega
  have hk : i.val % IPB = i := mod_eq_of_lt i.isLt
  show Dinode.get ((emptyFile n bits).disk (IBLOCK i (smallSb n))) (i % IPB) = _
  rw [hi, hk]
  rfl

theorem emptyFile_live (i : ℕ) : ((emptyFile n bits).live i).addrs = Dinode.zero.addrs ∧
      ((emptyFile n bits).live i).size = 0 := by
  have hall : ∀ i : Fin 8, (∀ k, (Dinode.get (Dinode.put zeroes 1
      { Dinode.zero with type := T_FILE, nlink := 1 }) i).addrs k = 0) ∧
      (Dinode.get (Dinode.put zeroes 1 { Dinode.zero with type := T_FILE, nlink := 1 }) i).size =
      0 := by
    decide +kernel
  unfold Dev.live
  split_ifs with hi
  · rw [emptyFile_dinode ⟨i, hi.1⟩]
    exact ⟨funext (hall ⟨i, hi.1⟩).1, (hall ⟨i, hi.1⟩).2⟩
  · exact ⟨rfl, rfl⟩

theorem emptyFile_type : ((emptyFile n bits).live 1).type = T_FILE := by
  have htype : (Dinode.get (Dinode.put zeroes 1 { Dinode.zero with type := T_FILE, nlink := 1 })
    1).type = T_FILE := by
    decide +kernel
  have hd : (emptyFile n bits).dinode 1 = _ := emptyFile_dinode ⟨1, by decide⟩
  have hlive : (emptyFile n bits).live 1 = (emptyFile n bits).dinode 1 :=
    if_pos ⟨show 1 < 8 by decide, by rw [hd, htype]; decide⟩
  rw [hlive, hd, htype]

theorem emptyFile_tree (a : ℕ × ℕ) :
    tree (emptyFile n bits).disk (emptyFile n bits).live a = 0 := by
  rw [tree, Dinode.ptr_of_addrs (emptyFile_live a.1).1, Dinode.ptr_zero]

theorem emptyFile_marked (hn : n < 59) {b : ℕ} (hb : b < 5 + n) :
    (emptyFile n bits).disk.marked (smallSb n) b = bit bits b := by
  rw [Disk.marked, (BBLOCK_smallSb hn hb).1, (BBLOCK_smallSb hn hb).2]
  rfl

theorem emptyFile_exact (hn : n < 59) (h : ∀ b < 5 + n, 5 ≤ b → bit bits b = false) :
    Exact (tree (emptyFile n bits).disk (emptyFile n bits).live) (emptyFile n bits).used where
  inj a _ ha := absurd (emptyFile_tree a) ha
  mem_iff b := by
    refine ⟨fun ⟨h₁, hb, hm⟩ => ?_, fun ⟨hb, a, ha⟩ => absurd (ha.symm.trans (emptyFile_tree a)) hb⟩
    have hle : 5 ≤ b := (dataStart_smallSb n) ▸ h₁
    rw [show (emptyFile n bits).sb = smallSb n from rfl, emptyFile_marked hn hb, h b hb hle] at hm
    cases hm

theorem emptyFile_mapped (i o : ℕ) (ho : o < ((emptyFile n bits).live i).size) :
    ((emptyFile n bits).live i).block (emptyFile n bits).disk (o / BSIZE) ≠ 0 := by
  have hz : ((emptyFile n bits).live i).size = 0 := (emptyFile_live i).2
  omega

end emptyFile

/-- The free map that `mkfs` writes: the blocks before the data area are in use. -/
def metadataBits : Block := (range 5).foldl setBit zeroes

theorem emptyFile_sound {n : ℕ} (hn : n < 59) : (emptyFile n metadataBits).Sound where
  owned := by
    have hbits : ∀ b : Fin 64, bit metadataBits b = decide (b.val < 5) := by decide +kernel
    have hbit : ∀ b < 5 + n, bit metadataBits b = decide (b < 5) := fun b hb => hbits ⟨b, by omega⟩
    refine ⟨smallSb_layout hn, ?_, emptyFile_exact hn fun b hb hle => ?_, fun b hb hfree => ?_⟩
    · refine Superblock.get_put _ _ fun i => ?_
      match i with
      | 0 => exact (show 5 + n < 2 ^ 32 by omega)
      | 1 => exact (show n < 2 ^ 32 by omega)
      | 2 => exact (show 8 < 2 ^ 32 by decide)
      | 3 => exact (show 0 < 2 ^ 32 by decide)
      | 4 => exact (show 2 < 2 ^ 32 by decide)
      | 5 => exact (show 2 < 2 ^ 32 by decide)
      | 6 => exact (show 3 < 2 ^ 32 by decide)
    · rw [hbit b hb]
      simpa using hle
    · have hb' : b < 5 + n := hb
      have hm : (emptyFile n metadataBits).disk.marked (smallSb n) b = false := hfree
      rw [emptyFile_marked hn hb', hbit b hb'] at hm
      show (smallSb n).dataStart ≤ b
      rw [dataStart_smallSb]
      simpa using hm
  mapped i _ o ho := emptyFile_mapped i o ho

theorem emptyFile_data (n : ℕ) {bits : Block} : ((emptyFile n bits).inode 1).data = [] := by
  rw [← length_eq_zero_iff, Dev.length_data]
  exact (emptyFile_live 1).2

/-- A write of two blocks, and a read from the end of the first to the second. -/
theorem file_is_bytes_emptyFile :
    ∃ w', writei 1 ((emptyFile 40 metadataBits).live 1) (replicate 1000 7) 0
      (emptyFile 40 metadataBits) = (.ok (some 1000, w'.live 1), w') ∧ w'.Sound ∧
      (w'.inode 1).data = replicate 1000 7 ∧
      readi (w'.live 1) 500 100 w' = (.ok (some (replicate 100 7), w'.live 1), w') := by
  have hlen : (replicate 1000 (7 : UInt8)).length = 1000 := length_replicate
  obtain ⟨hwrite, -, -⟩ := file_is_bytes (w := emptyFile 40 metadataBits) (i := 1)
    (emptyFile_sound (by decide))
    (by decide +kernel) (by decide +kernel)
  obtain ⟨w', hrun, hsound, hinode, -⟩ :=
    hwrite 0 (replicate 1000 7) (zero_le _) (by rw [hlen]; decide)
    (by rw [hlen]; decide +kernel)
  rw [hlen] at hrun
  have hnode := congrFun hinode 1
  have hdata : (w'.inode 1).data = replicate 1000 7 := by
    rw [hnode, update_self, emptyFile_data, overwrite, take_nil, drop_nil, append_nil, nil_append]
  have htype : (w'.live 1).type = T_FILE := by
    have := congrArg Node.type hnode
    rw [update_self] at this
    exact this.trans emptyFile_type
  obtain ⟨-, -, hread⟩ :=
    file_is_bytes hsound (i := 1) (by rw [htype]; decide) (by rw [htype]; decide)
  have hread := hread 500 (by decide) 100 (by decide)
  rw [hdata, hlen, if_neg (by decide), drop_replicate, take_replicate] at hread
  exact ⟨w', hrun, hsound, hdata, hread⟩

/-! ### A free map without the metadata

If the blocks outside of the data area are free, `balloc` returns block 0, which is no block. -/

/-- Write one byte to the start of the inode `i`, and read it. -/
def writeRead (i : ℕ) (c : UInt8) (d : Dinode) : DevM (Option ℕ × Option (List UInt8)) := do
  let (r, d) ← writei i d [c] 0
  let (l, _) ← readi d 0 1
  return (r, l)

/-- The byte written is not the byte read. -/
theorem writei_block_zero : ∃ w : Dev, w.sb.Layout ∧ Superblock.get (w.disk 1) = w.sb ∧
    Exact (tree w.disk w.live) w.used ∧
    (∀ i, (w.live i).type ≠ T_DEV → ∀ o < (w.live i).size, (w.live i).block w.disk (o / BSIZE) ≠
      0) ∧ (w.live 1).type = T_FILE ∧ (w.live 1).size = 0 ∧
      (w.live 1).needs w.disk 0 (endBlock 0 1) ≤ w.freeBlocks ∧
      (writeRead 1 7 (w.live 1) w).1.toOption = some (some 1, some [0]) :=
  ⟨emptyFile 40 zeroes, smallSb_layout (by decide), by decide +kernel,
    emptyFile_exact (by decide) (by decide +kernel),
    fun i _ o ho => emptyFile_mapped i o
    ho, by decide +kernel, by decide +kernel, by decide +kernel,
    by decide +kernel⟩

end writei

end FS

end Xv6
