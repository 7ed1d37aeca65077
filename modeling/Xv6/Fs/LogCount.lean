import Xv6.Fs.Calls
import Xv6.Fs.Contents

/-!
# A chunk fits its reservation

The blocks that one round of `filewrite` gives to `log_write`.
-/

namespace Xv6.FS

open LittleEndian Fallible Function List

theorem Logs.card {w w' : Dev} {y y' n : ℕ} (h : Logs w w' y y' n) :
    ∃ l, w'.logged = l ++ w.logged ∧ l.toFinset.card ≤ n + 1 := by
  obtain ⟨-, T, l, e, hc, m⟩ := h
  refine ⟨l, e, (Finset.card_le_card fun b hb => ?_).trans
    ((Finset.card_insert_le y' T).trans (Nat.add_le_add_right hc 1))⟩
  rw [Finset.mem_insert]
  exact (m b (mem_toFinset.1 hb)).symm.imp_left And.left

section writei

variable {w : Dev} {D : ℕ → Dinode} {i k : ℕ} {d : Dinode}

theorem blocks_of_chunk {off n : ℕ} (hn : n ≤ CHUNK) (hoff : off ≤ d.size)
    (hmapped : ∀ o < d.size, d.block w.disk (o / BSIZE) ≠ 0) :
    endBlock off n - off / BSIZE + d.needs w.disk (off / BSIZE) (endBlock off n) ≤ 8 := by
  have hB : BSIZE = 512 := rfl
  have hC : CHUNK = 1536 := rfl
  have hneeds : d.needs w.disk (off / BSIZE) (endBlock off n) ≤
      ((Finset.Ico (off / BSIZE) (endBlock off n)).filter fun k => d.block w.disk k = 0).card +
      1 := by
    rw [Dinode.needs]
    split_ifs <;> omega
  have hcard := Finset.card_filter_le (Finset.Ico (off / BSIZE) (endBlock off n)) fun k =>
    d.block w.disk k = 0
  rw [Nat.card_Ico] at hcard
  by_cases ha : off % BSIZE = 0
  · have hend : endBlock off n - off / BSIZE ≤ 3 := by
      rw [endBlock]
      split_ifs
      · omega
      · simp only [hB, hC] at *
        omega
    omega
  · have hpos : off ≠ 0 := by
      rintro rfl
      exact ha rfl
    have hfirst : d.block w.disk (off / BSIZE) ≠ 0 := by
      have := hmapped (off - 1) (by omega)
      have hdiv : (off - 1) / BSIZE = off / BSIZE := by
        simp only [hB] at *
        omega
      rwa [hdiv] at this
    have hsub : ((Finset.Ico (off / BSIZE) (endBlock off n)).filter fun k => d.block w.disk k = 0) ⊆
        Finset.Ico (off / BSIZE + 1) (endBlock off n) := by
      intro k hk
      obtain ⟨hk, hzero⟩ := Finset.mem_filter.1 hk
      have hne : k ≠ off / BSIZE := by
        rintro rfl
        exact hfirst hzero
      rw [Finset.mem_Ico] at hk ⊢
      omega
    have hle := Finset.card_le_card hsub
    rw [Nat.card_Ico] at hle
    have hend : endBlock off n - off / BSIZE ≤ 4 := by
      rw [endBlock]
      split_ifs
      · omega
      · simp only [hB, hC] at *
        omega
    omega

theorem Dev.Sound.writei_logged {src : List UInt8} {off : ℕ} (h : w.Sound)
    (hdev : (w.live i).type ≠ T_DEV) (hoff : off ≤ (w.live i).size) (hn : src.length ≤ CHUNK) :
    ∃ l, (writei i (w.live i) src off w).2.logged = l ++ w.logged ∧
      l.toFinset.card ≤ MAXOPBLOCKS := by
  have hC : CHUNK = 1536 := rfl
  have hM : MAXOPBLOCKS = 10 := rfl
  rw [writei, if_neg hdev]
  split_ifs with h₁ h₂
  · exact ⟨[], rfl, Nat.zero_le _⟩
  · exact ⟨[], rfl, Nat.zero_le _⟩
  · have hsize := (w.live_fits i).size
    have hmax : off + src.length ≤ MAXFILE * BSIZE := by
      by_cases hlt : off + src.length < 2 ^ 32
      · rw [Nat.mod_eq_of_lt hlt] at h₂
        omega
      · omega
    have hblocks := blocks_of_chunk hn hoff (h.mapped i hdev)
    have hloop := h.owned.writeiLoop_spec (i := i) hmax
    rcases hrun : writeiLoop (w.live i) src off w with ⟨e | ⟨off', d'⟩, w'⟩
    · obtain ⟨-, -, y, hlogs⟩ := hloop.of_eq_error hrun
      rw [bind_error hrun]
      obtain ⟨l, hl, hc⟩ := hlogs.card
      exact ⟨l, hl, by omega⟩
    · obtain ⟨-, -, -, hlogs⟩ := hloop.of_eq_ok hrun
      obtain ⟨l, hl, hc⟩ := hlogs.card
      rw [bind_ok hrun]
      dsimp only
      split_ifs
      · have hins := Finset.card_insert_le (IBLOCK i w'.sb) l.toFinset
        rw [← toFinset_cons] at hins
        exact ⟨IBLOCK i w'.sb :: l, congrArg (IBLOCK i w'.sb :: ·) hl, by omega⟩
      · exact ⟨l, hl, by omega⟩

end writei

section filewrite

variable {P : Type} {s : State P}

theorem writeInode_dev (s : State P) (ip : Ip) (src : List UInt8) (off : ℕ) :
    (writeInode ip src off s).2.dev =
      (writei (s.icache ip).inum (s.icache ip).d src off s.dev).2 := by
  rcases hrun : writei (s.icache ip).inum (s.icache ip).d src off s.dev with ⟨e | r, w⟩
  · have hdev : (onDev (writei (s.icache ip).inum (s.icache ip).d src off) : M P _) s =
        (.error e, { s with dev := w }) := by rw [onDev, hrun]
    simp only [writeInode, withInode, run_get_bind, bind_error hdev]
  · have hdev : (onDev (writei (s.icache ip).inum (s.icache ip).d src off) : M P _) s =
        (.ok r, { s with dev := w }) := by rw [onDev, hrun]
    simp only [writeInode, withInode, run_get_bind, bind_ok hdev, run_modify_bind, run_pure]
    rfl

theorem iunlock_dev (s : State P) (ip : Ip) : (iunlock ip s).2.dev = s.dev := by
  unfold iunlock
  dsimp only
  split_ifs
  · rfl
  · rfl

theorem filewriteOp_dev {f : Fin NFILE} (src : List UInt8) {s₁ : State P} {x : File}
    (hx : s.ftable f = x) (hlock : ilock x.ip s = (.ok (), s₁)) : (filewriteOp f src s).2.dev =
      (writei (s₁.icache x.ip).inum (s₁.icache x.ip).d src x.off s₁.dev).2 := by
  rw [← writeInode_dev]
  unfold filewriteOp
  simp only [run_get_bind, hx]
  rw [bind_ok hlock]
  rcases hrun : writeInode x.ip src x.off s₁ with ⟨e | r, s₂⟩
  · rw [bind_error hrun]
  · rw [bind_ok hrun]
    simp only [run_modify_bind]
    have hun := iunlock_dev (s₂.setFile f { x with off := (x.off + r.getD 0) % 2 ^ 32 }) x.ip
    rcases hrun' : iunlock x.ip
      (s₂.setFile f { x with off := (x.off + r.getD 0) % 2 ^ 32 }) with ⟨e | _, s₃⟩
    · rw [bind_error hrun']
      rw [hrun'] at hun
      exact hun
    · rw [bind_ok hrun', run_pure]
      rw [hrun'] at hun
      exact hun

/-- A round of `filewrite` on a regular file logs at most `MAXOPBLOCKS` different blocks. -/
theorem filewrite_fits_reservation {f : Fin NFILE} {src : List UInt8} {x : Inode}
    (hx : s.icache (s.ftable f).ip = x) (h : s.dev.Sound) (hfile : (s.dev.live x.inum).type = T_FILE)
    (hcache : x.valid → x.d = s.dev.live x.inum) (hoff : (s.ftable f).off ≤ (s.dev.live x.inum).size)
    (hn : src.length ≤ CHUNK) :
    ∃ l, (filewriteOp f src s).2.dev.logged = l ++ s.dev.logged ∧ l.toFinset.card ≤ MAXOPBLOCKS := by
  have hlive := (Dev.live_eq (w := s.dev) (i := x.inum) (by rw [hfile]; decide)).2
  -- `ilock` finds the inode in the cache or on the disk
  have hlock : (∃ e, ilock (s.ftable f).ip s = (.error e, s)) ∨
      ∃ v, ilock (s.ftable f).ip s =
        (.ok (), s.setInode (s.ftable f).ip { x with locked := true, valid := v, d := s.dev.live x.inum }) := by
    unfold ilock
    rw [hx]
    dsimp only
    split_ifs with h₁ h₂ h₃ h₄
    · exact .inl ⟨_, rfl⟩
    · exact .inl ⟨_, rfl⟩
    · exact .inr ⟨x.valid, by rw [← hcache h₃]⟩
    · exact .inl ⟨_, rfl⟩
    · exact .inr ⟨true, by rw [hlive]; rfl⟩
  rcases hlock with ⟨e, hlock⟩ | ⟨v, hlock⟩
  · have hfail : filewriteOp f src s = (.error e, s) := by
      unfold filewriteOp
      simp only [run_get_bind, bind_error hlock]
    rw [hfail]
    exact ⟨[], rfl, Nat.zero_le _⟩
  · have hdev := filewriteOp_dev src rfl hlock
    simp only [State.setInode, update_self] at hdev
    rw [hdev]
    exact h.writei_logged (by rw [hfile]; decide) hoff hn

theorem filewrite_fits_reservation_emptyFile : ∃ s : State Unit, s.dev = emptyFile 40 metadataBits ∧
    ∃ l, (filewriteOp ⟨0, by decide⟩ (replicate 1536 7) s).2.dev.logged = l ++ s.dev.logged ∧
      l.toFinset.card ≤ MAXOPBLOCKS := by
  refine ⟨{ State.boot (emptyFile 40 metadataBits).disk with
    dev := emptyFile 40 metadataBits, icache := fun _ => ⟨1, 1, false, false, Dinode.zero⟩
    ftable := fun _ => ⟨.inode, 1, false, true, 0, ⟨0, by decide⟩, 0⟩ }, rfl, ?_⟩
  exact filewrite_fits_reservation rfl (emptyFile_sound (by decide)) (by decide +kernel)
    (fun h => nomatch h) (Nat.zero_le _)
    (by rw [length_replicate]; decide)

end filewrite

/-! ## A free map without the metadata

If block 0 is free, the first indirect block that `bmap` allocates is none, and the next round
allocates another. -/

section scattered

variable {w : Dev} {q b : ℕ}

/-- The free blocks are the first ones of the blocks of the free map, from the `q`th on. -/
def FreeFrom (w : Dev) (q : ℕ) : Prop :=
  ∀ c < w.sb.size, (w.disk.marked w.sb c = false ↔ c % 4096 = 0 ∧ q ≤ c / 4096)

theorem FreeFrom.logWrite (h : FreeFrom w q) (hb : ∀ c < w.sb.size, b ≠ BBLOCK c w.sb) (x : Block) :
    FreeFrom (w.logWrite b x) q := by
  intro c hc
  have hsame : (w.logWrite b x).disk.marked w.sb c = w.disk.marked w.sb c := by
    unfold Disk.marked
    congr 1
    exact update_of_ne (hb c hc).symm ..
  show (w.logWrite b x).disk.marked w.sb c = false ↔ _
  rw [hsame]
  exact h c hc

theorem FreeFrom.balloc (h : FreeFrom w q) (hq : q * 4096 < w.sb.size)
    (hb : ∀ c < w.sb.size, q * 4096 ≠ BBLOCK c w.sb) :
    balloc w = (.ok (q * 4096), w.take (q * 4096)) ∧ FreeFrom (w.take (q * 4096)) (q + 1) := by
  have hfree : w.disk.marked w.sb (q * 4096) = false := by
    rw [h _ hq]
    omega
  have hfirst : (range w.sb.size).find? (fun b => !w.disk.marked w.sb b) = some (q * 4096) := by
    refine find?_range_eq_some.2 ⟨by rw [hfree]; rfl, mem_range.2 hq, fun c hc => ?_⟩
    have hc' := h c (by omega)
    rcases hm : w.disk.marked w.sb c
    · have := hc'.1 hm
      omega
    · rfl
  refine ⟨by simp only [FS.balloc, run_get_bind, hfirst]; rfl, fun c hc => ?_⟩
  have hmark : (w.take (q * 4096)).disk.marked w.sb c = (w.disk.marked w.sb c ||
    decide (q * 4096 = c)) := by
    rw [← marked_setBit w.disk w.sb (q * 4096) c]
    unfold Disk.marked
    congr 1
    exact update_of_ne (hb c hc).symm ..
  have hc' := h c hc
  show (w.take (q * 4096)).disk.marked w.sb c = false ↔ _
  rw [hmark, Bool.or_eq_false_iff, hc', decide_eq_false_iff_not]
  omega

def twelveBlocks : Dinode :=
  { Dinode.zero with type := T_FILE, nlink := 1, size := 6144, addrs :=
    fun i => if i.val < NDIRECT then 100 + i else 0 }

/-- Every block of the free map has its first bit clear. -/
def scattered : Dev where
  disk b :=
    if 3 ≤ b ∧ b ≤ 7 then setByte (fun _ => 255) 0 254
    else if b = 2 then Dinode.put zeroes 1 twelveBlocks
    else zeroes
  sb := ⟨16385, 16000, 8, 0, 2, 2, 3⟩
  logged := []

theorem scattered_free : FreeFrom scattered 0 := by
  intro c hc
  have hc' : c < 16385 := hc
  have hblock : scattered.disk (BBLOCK c scattered.sb) = setByte (fun _ => 255) 0 254 := by
    refine if_pos ?_
    show 3 ≤ c / 4096 + 3 ∧ c / 4096 + 3 ≤ 7
    omega
  have hbits : ∀ r < 8, (Nat.testBit 255 r) ∧ (Nat.testBit 254 r = false ↔ r = 0) := by decide
  have hlt : c % BPB / 8 < BSIZE := show c % 4096 / 8 < 512 by omega
  rw [Disk.marked, hblock, bit, getByte, dif_pos hlt, setByte]
  show (if c % 4096 / 8 = 0 then (254 : UInt8) else 255).toNat.testBit (c % 4096 % 8) = false ↔ _
  split_ifs with hz
  · rw [show (254 : UInt8).toNat = 254 from rfl, (hbits _ (Nat.mod_lt _ (by decide))).2]
    omega
  · rw [show (255 : UInt8).toNat = 255 from rfl, (hbits _ (Nat.mod_lt _ (by decide))).1]
    simp only [Bool.true_eq_false, false_iff]
    omega

theorem FreeFrom.bmap_both {d : Dinode} {k : ℕ} (h : FreeFrom w q) (hsb : w.sb = scattered.sb)
    (hq : q < 4) (hk : NDIRECT ≤ k) (hk' : k < MAXFILE) (hind : d.indirect = 0) :
    ∃ w₁, bmap d k w = (.ok ((q + 1) * 4096, d.setAddr (Fin.last NDIRECT) (q * 4096)), w₁) ∧
      w₁.sb = w.sb ∧ FreeFrom w₁ (q + 2) ∧ w₁.disk (q * 4096) = Block.setAddr zeroes (k - NDIRECT)
      ((q + 1) * 4096) ∧ w₁.logged = [q * 4096, (q + 1) * 4096, q + 1 + 3, q * 4096, q + 3] ++
      w.logged := by
  have hsize : w.sb.size = 16385 := by rw [hsb]; rfl
  have hbb : ∀ c, BBLOCK c w.sb = c / 4096 + 3 := fun c => by rw [hsb]; rfl
  have hin := sub_ndirect_lt hk'
  have hne : ∀ q' ≤ 4, ∀ c < w.sb.size, q' * 4096 ≠ BBLOCK c w.sb := by
    intro q' _ c hc
    rw [hbb]
    omega
  obtain ⟨hok, hfree⟩ := h.balloc (by omega) (hne q (by omega))
  obtain ⟨hok', hfree'⟩ := hfree.balloc (by show _ < w.sb.size; omega) (hne (q + 1) (by omega))
  have hload : loadIndirect d w = (.ok (d.setAddr (Fin.last NDIRECT) (q * 4096)),
    w.take (q * 4096)) := by
    rw [loadIndirect, if_pos hind, bind_ok hok]
    rfl
  have hzero : ((w.take (q * 4096)).take ((q + 1) * 4096)).disk (q * 4096) = zeroes := by
    have hkeep := take_of_ne (w := w.take (q * 4096)) (c := q * 4096) (b := (q + 1) * 4096)
      (by omega)
      (hne q (by omega) ((q + 1) * 4096) (by omega))
    rw [hkeep, take_self]
  refine ⟨((w.take (q * 4096)).take ((q + 1) * 4096)).logWrite (q * 4096)
    (Block.setAddr zeroes (k - NDIRECT) ((q + 1) * 4096)), ?_, rfl, ?_, update_self .., ?_⟩
  · rw [bmap, dif_neg (not_lt.2 hk), if_pos hin, bind_ok hload]
    simp only [run_get_bind, Dinode.indirect_setAddr_last, take_self, Block.addr_zeroes, if_true,
      bind_ok hok', hzero]
    rfl
  · exact hfree'.logWrite (hne q (by omega)) _
  · have h₁ : BBLOCK (q * 4096) w.sb = q + 3 := by rw [hbb]; omega
    have h₂ : BBLOCK ((q + 1) * 4096) w.sb = q + 1 + 3 := by rw [hbb]; omega
    show [q * 4096, (q + 1) * 4096, BBLOCK ((q + 1) * 4096) w.sb, q * 4096,
      BBLOCK (q * 4096) w.sb] ++ w.logged = _
    rw [h₁, h₂]

theorem FreeFrom.bmap_entry {d : Dinode} {k : ℕ} (h : FreeFrom w q) (hsb : w.sb = scattered.sb)
    (hq : q ≤ 4) (hk : NDIRECT ≤ k) (hk' : k < MAXFILE) (hind : d.indirect ≠ 0)
    (hentry : (w.disk d.indirect).addr (k - NDIRECT) = 0) :
    ∃ w₁, bmap d k w = (.ok (q * 4096, d), w₁) ∧ w₁.sb = w.sb ∧
      w₁.logged = [d.indirect, q * 4096, q + 3] ++ w.logged := by
  have hsize : w.sb.size = 16385 := by rw [hsb]; rfl
  have hbb : ∀ c, BBLOCK c w.sb = c / 4096 + 3 := fun c => by rw [hsb]; rfl
  have hin := sub_ndirect_lt hk'
  obtain ⟨hok, -⟩ := h.balloc (by omega) fun c hc => by rw [hbb]; omega
  have hload : loadIndirect d w = (.ok d, w) := by
    rw [loadIndirect, if_neg hind]
    rfl
  refine ⟨(w.take (q * 4096)).logWrite d.indirect
    (((w.take (q * 4096)).disk d.indirect).setAddr (k - NDIRECT) (q * 4096)), ?_, rfl, ?_⟩
  · rw [bmap, dif_neg (not_lt.2 hk), if_pos hin, bind_ok hload]
    simp only [run_get_bind, if_pos hentry, bind_ok hok]
    rfl
  · have h₁ : BBLOCK (q * 4096) w.sb = q + 3 := by rw [hbb]; omega
    show [d.indirect, q * 4096, BBLOCK (q * 4096) w.sb] ++ w.logged = _
    rw [h₁]

theorem writeiLoop_block {d d₁ : Dinode} {w₁ : Dev} {n k x : ℕ} {c : UInt8}
    (h : bmap d k w = (.ok (x, d₁), w₁)) :
    ∃ y, writeiLoop d (replicate (512 * (n + 1)) c) (512 * k) w =
      writeiLoop d₁ (replicate (512 * n) c) (512 * (k + 1)) (w₁.logWrite x y) := by
  have hne : replicate (512 * (n + 1)) c ≠ [] := by
    rw [ne_eq, replicate_eq_nil_iff]
    omega
  have hB : BSIZE = 512 := rfl
  have hk : 512 * k / BSIZE = k := by rw [hB]; omega
  have hm : min (replicate (512 * (n + 1)) c).length (BSIZE - 512 * k % BSIZE) = 512 := by
    rw [length_replicate, hB]
    omega
  rw [writeiLoop, if_neg hne, hk, bind_ok h, hm]
  simp only [run_get_bind, run_logWrite_bind, drop_replicate]
  rw [show 512 * (n + 1) - 512 = 512 * n by omega, show 512 * k + 512 = 512 * (k + 1) by omega]
  exact ⟨_, rfl⟩

theorem scattered_logged :
    (writei 1 twelveBlocks (replicate (512 * 3) 1) (512 * 12) scattered).2.logged = [2] ++
      ([4 * 4096] ++ ([2 * 4096, 4 * 4096, 7] ++
      ([3 * 4096] ++ ([2 * 4096, 3 * 4096, 6, 2 * 4096, 5] ++
      ([1 * 4096] ++ [0 * 4096, 1 * 4096, 4, 0 * 4096, 3]))))) := by
  have hne : ∀ q ≤ 4, ∀ c < scattered.sb.size, q * 4096 ≠ BBLOCK c scattered.sb := by
    intro q _ c hc
    have hc' : c < 16385 := hc
    show q * 4096 ≠ c / 4096 + 3
    omega
  -- the indirect block is block 0
  obtain ⟨w₁, h₁, hsb₁, hfree₁, -, hlog₁⟩ := scattered_free.bmap_both (d := twelveBlocks) (k := 12)
    rfl (by decide)
    (by decide) (by decide) rfl
  obtain ⟨y₁, hrun₁⟩ := writeiLoop_block (n := 2) (c := 1) h₁
  -- so that there is none, and another one is allocated
  obtain ⟨w₂, h₂, hsb₂, hfree₂, hdisk₂, hlog₂⟩ :=
    (hfree₁.logWrite (b := 1 * 4096) (hsb₁ ▸ hne 1 (by decide))
    y₁).bmap_both (d := twelveBlocks.setAddr (Fin.last NDIRECT) (0 * 4096)) (k :=
    13) hsb₁ (by decide) (by decide)
    (by decide) (Dinode.indirect_setAddr_last ..)
  obtain ⟨y₂, hrun₂⟩ := writeiLoop_block (n := 1) (c := 1) h₂
  obtain ⟨d₂, hd₂⟩ : ∃ d₂, d₂ = (twelveBlocks.setAddr (Fin.last NDIRECT) (0 * 4096)).setAddr
    (Fin.last NDIRECT)
    (2 * 4096) := ⟨_, rfl⟩
  have hind₂ : d₂.indirect = 2 * 4096 := by
    rw [hd₂]
    exact Dinode.indirect_setAddr_last ..
  have hentry : ((w₂.logWrite (3 * 4096) y₂).disk d₂.indirect).addr (14 - NDIRECT) = 0 := by
    have hkeep : (w₂.logWrite (3 * 4096) y₂).disk (2 * 4096) = w₂.disk (2 * 4096) :=
      Dev.logWrite_of_ne w₂ y₂ (by decide)
    rw [hind₂, hkeep, hdisk₂, Block.addr_setAddr_of_ne (by decide), Block.addr_zeroes]
  have hsb₂' : w₂.sb = scattered.sb := hsb₂.trans hsb₁
  obtain ⟨w₃, h₃, hsb₃, hlog₃⟩ :=
    (hfree₂.logWrite (b := 3 * 4096) (hsb₂' ▸ hne 3 (by decide)) y₂).bmap_entry
    (d := d₂) (k := 14) hsb₂' (by decide) (by decide) (by decide) (by rw [hind₂]; decide) hentry
  obtain ⟨y₃, hrun₃⟩ := writeiLoop_block (n := 0) (c := 1) h₃
  rw [← hd₂, hrun₃] at hrun₂
  have hloop : writeiLoop twelveBlocks (replicate (512 * 3) 1) (512 * 12) scattered =
      (.ok (512 * 15, d₂), w₃.logWrite (4 * 4096) y₃) := by
    rw [hrun₁, hrun₂, writeiLoop, if_pos (replicate_zero ..)]
    rfl
  have hib : IBLOCK 1 w₃.sb = 2 := by
    rw [hsb₃.trans hsb₂']
    rfl
  have hsize : 0 < (replicate (512 * 3) (1 : UInt8)).length ∧ d₂.size < 512 * 15 := by
    rw [length_replicate, hd₂]
    decide
  rw [writei, if_neg (by decide), length_replicate, if_neg (by decide), if_neg (by decide),
    bind_ok hloop]
  rw [length_replicate] at hsize
  simp only [if_pos hsize]
  show IBLOCK 1 w₃.sb :: 4 * 4096 :: w₃.logged = _
  rw [hib, hlog₃, hind₂]
  have hlog₂' : (w₂.logWrite (3 * 4096) y₂).logged = [3 * 4096] ++ w₂.logged := rfl
  have hlog₁' : (w₁.logWrite (1 * 4096) y₁).logged = [1 * 4096] ++ w₁.logged := rfl
  rw [hlog₂', hlog₂, hlog₁', hlog₁]
  rfl

/-- A round of `filewrite` that logs more than its reservation: the file has all blocks below its
size, and the free map is any free map. -/
theorem filewrite_exceeds_reservation :
    ∃ (s : State Unit) (f : Fin NFILE) (x : Inode) (src : List UInt8),
      s.icache (s.ftable f).ip = x ∧ x.d = s.dev.dinode x.inum ∧ x.d.type = T_FILE ∧
      (∀ o < x.d.size, x.d.block s.dev.disk (o / BSIZE) ≠ 0) ∧ (s.ftable f).off ≤ x.d.size ∧
      src.length ≤ CHUNK ∧ s.dev.logged = [] ∧
      MAXOPBLOCKS < (filewriteOp f src s).2.dev.logged.toFinset.card := by
  obtain ⟨x, hx⟩ : ∃ x : Inode, x = ⟨1, 1, true, false, twelveBlocks⟩ := ⟨_, rfl⟩
  obtain ⟨s, hs⟩ : ∃ s : State Unit, s = { State.boot scattered.disk with
    dev := scattered, icache := fun _ => x
    ftable := fun _ => ⟨.inode, 1, false, true, 0, ⟨0, by decide⟩, 6144⟩ } := ⟨_, rfl⟩
  have hlock : ilock (s.ftable ⟨0, by decide⟩).ip s =
      (.ok (), s.setInode (s.ftable ⟨0, by decide⟩).ip { x with locked := true }) := by
    rw [hs, hx]
    rfl
  refine ⟨s, ⟨0, by decide⟩, x, replicate (512 * 3) 1, by rw [hs], ?_, by rw [hx]; rfl,
    fun o ho => ?_, ?_, ?_,
    by rw [hs]; rfl, ?_⟩
  · rw [hs, hx]
    exact (Dinode.get_put (by decide)
      ⟨by decide, by decide, by decide, by decide, by decide, by decide⟩).symm
  · have ho' : o < 6144 := by rwa [hx] at ho
    have hk : o / BSIZE < NDIRECT := by
      show o / 512 < 12
      omega
    rw [Dinode.block_direct hk, hx]
    show (if o / BSIZE < NDIRECT then 100 + o / BSIZE else 0) ≠ 0
    rw [if_pos hk]
    exact ne_of_gt (Nat.add_pos_left (by decide) _)
  · rw [hs, hx]
    decide
  · rw [length_replicate]
    decide
  · have hdev := filewriteOp_dev (replicate (512 * 3) 1) rfl hlock
    have hlog := scattered_logged
    have heq : (filewriteOp ⟨0, by decide⟩ (replicate (512 * 3) 1) s).2.dev =
        (writei 1 twelveBlocks (replicate (512 * 3) 1) (512 * 12) scattered).2 := by
      rw [hdev, hs, hx]
      rfl
    rw [heq, hlog]
    decide

end scattered

end Xv6.FS
