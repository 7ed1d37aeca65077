import Xv6.Fs.Contents

/-!
# Freeing inodes, and changing their fields

`ifree` frees the blocks of an inode and the inode; in a sound file system it never frees a block
that is free.  `iupdate` with the blocks and the size that the inode has changes its other fields
only.
-/

namespace Xv6.FS

open LittleEndian Fallible Function List Dev

/-! ## The free map -/

/-- Only the bits of the blocks of `S` are cleared. -/
structure Freed (w w' : Dev) (S : ℕ → Prop) : Prop where
  sb : w'.sb = w.sb
  low : ∀ c < w.sb.bmapstart, w'.disk c = w.disk c
  data : ∀ c, w.sb.dataStart ≤ c → w'.disk c = w.disk c
  marked : ∀ c < w.sb.size, w'.disk.marked w.sb c ↔ w.disk.marked w.sb c ∧ ¬ S c

section freed

variable {w w₁ w₂ : Dev} {S S₁ S₂ : ℕ → Prop} {b : ℕ}

theorem Freed.refl (w : Dev) : Freed w w fun _ => False :=
  ⟨rfl, fun _ _ => rfl, fun _ _ => rfl, fun _ _ => by simp⟩

theorem Freed.trans (h₁ : Freed w w₁ S₁) (h₂ : Freed w₁ w₂ S₂) : Freed w w₂ fun c => S₁ c ∨
    S₂ c where
  sb := h₂.sb.trans h₁.sb
  low c hc := (h₂.low c (h₁.sb ▸ hc)).trans (h₁.low c hc)
  data c hc := (h₂.data c (h₁.sb ▸ hc)).trans (h₁.data c hc)
  marked c hc := by
    have := h₂.marked c (h₁.sb ▸ hc)
    rw [h₁.sb] at this
    rw [this, h₁.marked c hc, and_assoc, not_or]

theorem Freed.congr (h : Freed w w₁ S₁) (hS : ∀ c < w.sb.size, S₁ c ↔ S₂ c) : Freed w w₁ S₂ :=
  ⟨h.sb, h.low, h.data, fun c hc => by rw [h.marked c hc, hS c hc]⟩

theorem marked_clearBit (disk : Disk) (sb : Superblock) (b c : ℕ) :
    Disk.marked (update disk (BBLOCK b sb) (clearBit (disk (BBLOCK b sb)) (b % BPB))) sb c =
      (disk.marked sb c && !decide (b = c)) := by
  have hB : BPB = 4096 := rfl
  have hlt : b % BPB < BSIZE * 8 := Nat.mod_lt _ (by decide)
  unfold Disk.marked
  by_cases hbb : BBLOCK c sb = BBLOCK b sb
  · have hiff : b % BPB = c % BPB ↔ b = c := by
      simp only [BBLOCK, hB] at hbb ⊢
      omega
    rw [hbb, update_self, bit_clearBit hlt]
    simp only [hiff]
  · have hne : b ≠ c := by
      rintro rfl
      exact hbb rfl
    rw [update_of_ne hbb]
    simp [hne]

/-- What the kernel relies on when it reads the superblock again. -/
structure Dev.Super (w : Dev) : Prop where
  layout : w.sb.Layout
  super : Superblock.get (w.disk 1) = w.sb

theorem Freed.super (h : Freed w w₁ S) (hw : w.Super) : w₁.Super where
  layout := h.sb ▸ hw.layout
  super := by
    have hlt : 1 < w.sb.bmapstart := lt_of_lt_of_le hw.layout.super hw.layout.order
    rw [h.low 1 hlt, h.sb, hw.super]

theorem Dev.Super.bfree (h : w.Super) (hb : b < w.sb.size) (hm : w.disk.marked w.sb b) :
    ∃ w', bfree b w = (.ok (), w') ∧ Freed w w' fun c => c = b := by
  have hsb : { w with sb := Superblock.get (w.disk 1) } = w := by
    rw [h.super]
  refine ⟨w.logWrite (BBLOCK b w.sb) (clearBit (w.disk (BBLOCK b w.sb)) (b % BPB)), ?_, rfl,
    fun c hc => ?_, fun c hc => ?_, fun c _ => ?_⟩
  · have hread : readsb w = (.ok (), w) := congrArg _ hsb
    rw [FS.bfree, bind_ok hread]
    simp only [run_get_bind, hm, if_true]
    rfl
  · have := bmapstart_le b w.sb
    exact logWrite_of_ne _ _ (by omega)
  · have := h.layout.bmap b hb
    exact logWrite_of_ne _ _ (by omega)
  · have hmark : (w.logWrite (BBLOCK b w.sb)
      (clearBit (w.disk (BBLOCK b w.sb)) (b % BPB))).disk.marked w.sb c = _ :=
      marked_clearBit w.disk w.sb b c
    rw [hmark, Bool.and_eq_true, Bool.not_eq_true', decide_eq_false_iff_not, eq_comm (a := b)]

theorem Dev.Super.bfrees {l : List ℕ} (h : w.Super) (hne : l.Pairwise fun a b => a ≠ 0 → a ≠ b)
    (hm : ∀ b ∈ l, b ≠ 0 → b < w.sb.size ∧ w.disk.marked w.sb b) :
    ∃ w', bfrees l w = (.ok (), w') ∧ Freed w w' fun c => c ≠ 0 ∧ c ∈ l := by
  induction l generalizing w with
  | nil => exact ⟨w, rfl, (Freed.refl w).congr fun c _ => by simp⟩
  | cons b l ih =>
    obtain ⟨hb, hl⟩ := pairwise_cons.1 hne
    rw [FS.bfrees]
    by_cases hz : b = 0
    · obtain ⟨w', hrun, hfreed⟩ := ih h hl fun c hc => hm c (mem_cons_of_mem _ hc)
      refine ⟨w', by rw [if_pos hz, hrun], hfreed.congr fun c _ => ?_⟩
      simp only [mem_cons, hz]
      constructor
      · exact fun hc => ⟨hc.1, .inr hc.2⟩
      · rintro ⟨h₁, h₂ | h₂⟩
        · exact absurd h₂ h₁
        · exact ⟨h₁, h₂⟩
    · obtain ⟨h₁, h₂⟩ := hm b mem_cons_self hz
      obtain ⟨w₁, hrun₁, hfreed₁⟩ := h.bfree h₁ h₂
      obtain ⟨w₂, hrun₂, hfreed₂⟩ := ih (hfreed₁.super h) hl fun c hc hc0 => by
        obtain ⟨hc₁, hc₂⟩ := hm c (mem_cons_of_mem _ hc) hc0
        rw [hfreed₁.sb]
        exact ⟨hc₁, (hfreed₁.marked c hc₁).2 ⟨hc₂, fun he => hb c hc hz he.symm⟩⟩
      refine ⟨w₂, by rw [if_neg hz, bind_ok hrun₁, hrun₂], (hfreed₁.trans hfreed₂).congr fun c _ =>
        ?_⟩
      simp only [mem_cons]
      constructor
      · rintro (rfl | hc)
        · exact ⟨hz, .inl rfl⟩
        · exact ⟨hc.1, .inr hc.2⟩
      · rintro ⟨hc, rfl | hc'⟩
        · exact .inl rfl
        · exact .inr ⟨hc, hc'⟩

end freed

/-! ## `itrunc` -/

theorem bfrees_append (l l' : List ℕ) : bfrees (l ++ l') = bfrees l >>= fun _ => bfrees l' := by
  induction l with
  | nil => exact (pure_bind () fun _ => bfrees l').symm
  | cons b l ih =>
    rw [cons_append, bfrees, bfrees, ih]
    split_ifs
    · rfl
    · rw [bind_assoc]

theorem bfrees_of_zero {l : List ℕ} (h : ∀ b ∈ l, b = 0) (w : Dev) : bfrees l w = (.ok (), w) := by
  induction l with
  | nil => rfl
  | cons b l ih =>
    rw [bfrees, if_pos (h b mem_cons_self)]
    exact ih fun c hc => h c (mem_cons_of_mem _ hc)

/-- The blocks of an inode, in the order in which `itrunc` frees them. -/
theorem map_ptr (disk : Disk) (d : Dinode) : (range (MAXFILE + 1)).map (d.ptr disk) =
      ((finRange NDIRECT).map fun i => d.addrs i.castSucc) ++
        ((range NINDIRECT).map (fun k => d.block disk (NDIRECT + k)) ++ [d.indirect]) := by
  have hM : MAXFILE + 1 = NDIRECT + NINDIRECT + 1 := rfl
  rw [hM, range_succ, range_add, map_append, map_append, map_map, append_assoc]
  refine congrArg₂ _ ?_ (congrArg₂ _ ?_ ?_)
  · rw [← map_coe_finRange_eq_range, map_map]
    refine map_congr_left fun k _ => ?_
    have hk : k.val < MAXFILE := k.isLt.trans (by decide)
    exact (Dinode.ptr_of_lt hk).trans (Dinode.block_direct k.isLt)
  · refine map_congr_left fun k hk => Dinode.ptr_of_lt ?_
    exact Nat.add_lt_add_left (mem_range.1 hk) _
  · exact congrArg (fun b => [b]) Dinode.ptr_maxfile

section itrunc

variable {w : Dev} {D : ℕ → Dinode} {i : ℕ}

theorem Owned.dev (h : Owned w D) : w.Super := ⟨h.layout, h.super⟩

theorem Owned.places (h : Owned w D) (i n : ℕ) :
    ((range n).map ((D i).ptr w.disk)).Pairwise (fun a b => a ≠ 0 → a ≠ b) ∧
      ∀ b ∈ (range n).map ((D i).ptr w.disk), b ≠ 0 → b < w.sb.size ∧ w.disk.marked w.sb b := by
  constructor
  · rw [pairwise_map]
    refine nodup_range.imp fun {a b} hab h0 he => hab ?_
    have := h.exact.inj (i, a) (i, b) h0 he
    exact congrArg Prod.snd this
  · intro b hb hb0
    obtain ⟨k, -, rfl⟩ := mem_map.1 hb
    have hmem : tree w.disk D (i, k) ∈ w.used := h.exact.mem hb0
    exact hmem.2

theorem Owned.itrunc (h : Owned w D) :
    ∃ w', itrunc i (D i) w = (.ok { D i with addrs := fun _ => 0, size := 0 },
        w'.iupdate i { D i with addrs := fun _ => 0, size := 0 }) ∧
      Freed w w' fun c => c ≠ 0 ∧ ∃ k, tree w.disk D (i, k) = c := by
  obtain ⟨hne, hm⟩ := h.places i (MAXFILE + 1)
  obtain ⟨w', hrun, hfreed⟩ := h.dev.bfrees hne hm
  rw [map_ptr] at hne hm hrun
  obtain ⟨w₁, hrun₁, hfreed₁⟩ := h.dev.bfrees (pairwise_append.1 hne).1 fun b hb =>
    hm b (mem_append_left _ hb)
  rw [bfrees_append, bind_ok hrun₁] at hrun
  refine ⟨w', ?_, hfreed.congr fun c hc => ?_⟩
  · rw [FS.itrunc, bind_ok hrun₁]
    by_cases hz : (D i).indirect = 0
    · -- the rest of the list is zero
      have hzero := bfrees_of_zero (w := w₁) (l := (range NINDIRECT).map
        (fun k => (D i).block w.disk (NDIRECT + k)) ++ [(D i).indirect]) fun b hb => by
          rcases mem_append.1 hb with hb | hb
          · obtain ⟨k, -, rfl⟩ := mem_map.1 hb
            exact Dinode.block_of_indirect_eq_zero (Nat.le_add_right ..) hz
          · exact (mem_singleton.1 hb).trans hz
      obtain rfl : w₁ = w' := congrArg Prod.snd (hzero.symm.trans hrun)
      rw [if_pos hz]
      rfl
    · have hind : w₁.disk (D i).indirect = w.disk (D i).indirect :=
        hfreed₁.data _ (h.indirect_used hz).1
      have hlist : (range NINDIRECT).map (w₁.disk (D i).indirect).addr =
          (range NINDIRECT).map fun k => (D i).block w.disk (NDIRECT + k) := by
        refine map_congr_left fun k hk => ?_
        have hk' : NDIRECT + k < MAXFILE := Nat.add_lt_add_left (mem_range.1 hk) _
        rw [Dinode.block_indirect (Nat.le_add_right ..) hk' hz, hind, add_tsub_cancel_left]
      have hlast : bfrees [(D i).indirect] = bfree (D i).indirect := by
        rw [bfrees, if_neg hz]
        exact bind_pure _
      rw [bfrees_append, hlast, ← hlist] at hrun
      rw [if_neg hz, run_get_bind, ← bind_assoc]
      exact bind_ok hrun
  · rw [mem_map]
    constructor
    · rintro ⟨h₁, k, -, h₂⟩
      exact ⟨h₁, k, h₂⟩
    · rintro ⟨h₁, k, h₂⟩
      refine ⟨h₁, k, mem_range.2 (Nat.lt_succ_of_le ?_), h₂⟩
      by_contra hk
      rw [tree, Dinode.ptr_of_gt (not_le.1 hk)] at h₂
      exact h₁ h₂.symm

theorem Owned.freed {w' : Dev} (h : Owned w D)
    (hf : Freed w w' fun c => c ≠ 0 ∧ ∃ k, tree w.disk D (i, k) = c) {d : Dinode}
    (hd : d.addrs = fun _ => 0) : Owned w' (update D i d) ∧
    (∀ j, j ≠ i → ∀ m, (D j).block w'.disk m = (D j).block w.disk m) ∧
      (∀ j, j ≠ i → ∀ o, (D j).byteAt w'.disk o = (D j).byteAt w.disk o) ∧
      w.freeBlocks ≤ w'.freeBlocks := by
  have hind : ∀ j, (D j).indirect ≠ 0 → w'.disk (D j).indirect = w.disk (D j).indirect :=
    fun j hj =>
    hf.data _ (h.indirect_used hj).1
  have hzero : ∀ disk k, d.ptr disk k = 0 := fun disk k =>
    (Dinode.ptr_of_addrs (d := Dinode.zero) hd k).trans Dinode.ptr_zero
  have htree : ∀ a : ℕ × ℕ, tree w'.disk (update D i d) a = if a.1 = i then 0 else
    tree w.disk D a := by
    rintro ⟨j, k⟩
    split_ifs with hj
    · replace hj : j = i := hj
      subst hj
      rw [tree_update_self, hzero]
    · rw [tree_update_of_ne hj]
      exact Dinode.ptr_congr (hind j) k
  have hsuper := hf.super h.dev
  refine ⟨⟨hsuper.layout, hsuper.super, h.exact.clear htree fun c => ?_, fun c hc hm => ?_⟩,
    fun j _ m => Dinode.block_congr (hind j) m, fun j _ o => ?_, ?_⟩
  · simp only [used, hf.sb, Set.mem_ofPred_eq]
    constructor
    · rintro ⟨h₁, h₂, h₃⟩
      obtain ⟨h₄, h₅⟩ := (hf.marked c h₂).1 h₃
      have hc : c ∈ w.used := ⟨h₁, h₂, h₄⟩
      refine ⟨hc, ?_⟩
      rintro ⟨j, k⟩ hj hjk
      replace hj : j = i := hj
      subst hj
      exact h₅ ⟨((h.exact.mem_iff c).1 hc).1, k, hjk⟩
    · rintro ⟨⟨h₁, h₂, h₃⟩, h₄⟩
      exact ⟨h₁, h₂, (hf.marked c h₂).2 ⟨h₃, fun hc => h₄ (i, hc.2.choose) rfl hc.2.choose_spec⟩⟩
  · rw [hf.sb] at hc hm ⊢
    by_cases hold : w.disk.marked w.sb c
    · have hS : c ≠ 0 ∧ ∃ k, tree w.disk D (i, k) = c := by
        by_contra hS
        rw [(hf.marked c hc).2 ⟨hold, hS⟩] at hm
        cases hm
      obtain ⟨h0, k, rfl⟩ := hS
      exact (h.exact.mem h0).1
    · exact h.free c hc (Bool.not_eq_true _ ▸ hold)
  · have hb : (D j).block w.disk (o / BSIZE) = 0 ∨ (D j).block w.disk (o / BSIZE) ∈ w.used :=
      (Decidable.em _).imp_right h.block_used
    rw [Dinode.byteAt, Dinode.block_congr (hind j), Dinode.byteAt]
    rcases hb with hb | hb
    · have := h.super_lt
      rw [hb, hf.low 0 (by omega)]
    · rw [hf.data _ hb.1]
  · unfold freeBlocks
    rw [hf.sb]
    refine Finset.card_le_card fun c hc => ?_
    obtain ⟨h₁, h₂⟩ := Finset.mem_filter.1 hc
    refine Finset.mem_filter.2 ⟨h₁, ?_⟩
    rw [Bool.eq_false_iff]
    intro hc'
    rw [((hf.marked c (Finset.mem_range.1 h₁)).1 hc').1] at h₂
    cases h₂

end itrunc

/-! ## `ifree` and `iupdate` of a sound file system -/

section sound

variable {w : Dev} {i : ℕ} {d : Dinode}

theorem Dev.Sound.ifree_spec (h : w.Sound) (hi : (w.live i).type ≠ 0) :
    ∃ w', ifree i (w.live i) w = (.ok { w.live i with addrs := fun _ => 0, size := 0, type := 0 },
    w') ∧ w'.Sound ∧
      w'.sb = w.sb ∧ w'.live = update w.live i Dinode.zero ∧
      w'.inode = update w.inode i Node.free ∧ w.freeBlocks ≤ w'.freeBlocks := by
  obtain ⟨hlt, -⟩ := live_eq hi
  obtain ⟨w₁, hrun, hfreed⟩ := h.owned.itrunc (i := i)
  obtain ⟨d₁, hd₁⟩ : ∃ d, d = { w.live i with addrs := fun _ => 0, size := 0 } := ⟨_, rfl⟩
  obtain ⟨d₂, hd₂⟩ : ∃ d, d = { w.live i with addrs := fun _ => 0, size := 0, type := 0 } :=
    ⟨_, rfl⟩
  obtain ⟨howned, hblock, hbyte, hcount⟩ := h.owned.freed hfreed (d := Dinode.zero) rfl
  have hfits := w.live_fits i
  have hfits₁ : d₁.Fits := by
    rw [hd₁]
    exact ⟨hfits.type, hfits.major, hfits.minor, hfits.nlink, Nat.two_pow_pos 32,
      fun _ => Nat.two_pow_pos 32⟩
  have hfits₂ : d₂.Fits := by
    rw [hd₂]
    exact ⟨Nat.two_pow_pos 16, hfits.major, hfits.minor, hfits.nlink, Nat.two_pow_pos 32,
      fun _ => Nat.two_pow_pos 32⟩
  have hlt₁ : i < w₁.sb.ninodes := by rwa [hfreed.sb]
  obtain ⟨ho₁, hb₁, hy₁, hc₁⟩ := howned.iupdate hlt₁ d₁
  obtain ⟨ho₂, hb₂, hy₂, hc₂⟩ := ho₁.iupdate (i := i) hlt₁ d₂
  have hlive : ((w₁.iupdate i d₁).iupdate i d₂).live = update w.live i Dinode.zero := by
    have htype : d₂.type = 0 := by rw [hd₂]
    rw [live_iupdate (w := w₁.iupdate i d₁) hlt₁ hfits₂, live_iupdate hlt₁ hfits₁, update_idem,
      h.owned.live_congr hfreed.sb hfreed.low, if_neg (not_not.2 htype)]
  refine ⟨(w₁.iupdate i d₁).iupdate i d₂, ?_, ⟨by rwa [hlive], fun j hj o ho => ?_⟩, hfreed.sb,
    hlive,
    funext fun j => ?_, by omega⟩
  · rw [FS.ifree, bind_ok hrun, hd₁, hd₂]
    rfl
  · rw [hlive] at hj ho ⊢
    by_cases hji : j = i
    · subst hji
      rw [update_self] at ho
      exact absurd ho (Nat.not_lt_zero o)
    · rw [hb₂, hb₁]
      rw [update_of_ne hji] at hj ho ⊢
      rw [hblock j hji]
      exact h.mapped j hj o ho
  · rw [inode, hlive]
    by_cases hji : j = i
    · subst hji
      rw [update_self, update_self, Dinode.node_zero]
    · have hdata := Dinode.bytes_congr (n := (w.live j).size) fun o _ => (hy₂ j o).trans (hy₁ j o)
      rw [update_of_ne hji] at hdata ⊢
      rw [update_of_ne hji, Dinode.node, hdata, Dinode.bytes_congr fun o _ => hbyte j hji o]
      rfl

theorem Dev.Sound.iupdate_spec (h : w.Sound) (hi : i < w.sb.ninodes) (hd : d.Fits)
    (htype : d.type ≠ 0) (haddrs : d.addrs = (w.live i).addrs) (hsize : d.size = (w.live i).size)
    (hdev : (w.live i).type = T_DEV → d.type = T_DEV ∨ d.size = 0) :
    (w.iupdate i d).Sound ∧ (w.iupdate i d).live = update w.live i d ∧
      (w.iupdate i d).inode = update w.inode i ⟨d.type, d.major, d.minor, d.nlink,
      (w.inode i).data⟩ ∧ (w.iupdate i d).freeBlocks = w.freeBlocks := by
  have htree : ∀ a, tree w.disk (update w.live i d) a = tree w.disk w.live a := by
    rintro ⟨j, k⟩
    by_cases hj : j = i
    · subst hj
      rw [tree_update_self, Dinode.ptr_of_addrs haddrs]
      rfl
    · rw [tree_update_of_ne hj]
  have hown : Owned w (update w.live i d) := h.owned.congr rfl rfl (fun _ _ => rfl) htree
  obtain ⟨h₁, h₂, h₃, h₄⟩ := hown.iupdate hi d
  have hlive : (w.iupdate i d).live = update w.live i d := by rw [live_iupdate hi hd, if_pos htype]
  refine ⟨⟨hlive ▸ h₁, fun j hj o ho => ?_⟩, hlive, funext fun j => ?_, h₄⟩
  · rw [hlive] at hj ho ⊢
    rw [h₂]
    by_cases hji : j = i
    · subst hji
      rw [update_self] at hj ho ⊢
      rw [Dinode.block_of_addrs haddrs]
      refine h.mapped j (fun hc => ?_) o (hsize ▸ ho)
      rcases hdev hc with hd | hd
      · exact hj hd
      · omega
    · rw [update_of_ne hji] at hj ho ⊢
      exact h.mapped j hj o ho
  · rw [inode, hlive, Dinode.node, Dinode.bytes_congr fun o _ => h₃ j o]
    by_cases hji : j = i
    · subst hji
      rw [update_self, update_self, hsize, Dinode.bytes_congr fun o _ => byteAt_of_addrs haddrs o]
      rfl
    · rw [update_of_ne hji, update_of_ne hji]
      rfl

end sound

end Xv6.FS
