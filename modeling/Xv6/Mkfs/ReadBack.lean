import Xv6.Mkfs.Consistent
import Xv6.Fs.Cache

/-!
# The kernel reads what `mkfs` has written

For files with different names, `namei` finds each of them, and `readi` returns its bytes.
-/

namespace Xv6.Mkfs

open LittleEndian Image FS Fallible Function List State Nat

variable {s : Image} {D : ℕ → Dinode} {files : List File}

/-! ## The entries of the root directory -/

theorem Final.byteAt (h : Final s D files) {i o : ℕ} (ho : o < (contents files i).length) :
    (D i).block s.disk (o / BSIZE) ≠ 0 ∧ (D i).byteAt s.disk o = (contents files i).getD o 0 := by
  have hB : BSIZE = 512 := rfl
  have hk : o / BSIZE < MAXFILE := by
    have := h.max i
    exact Nat.div_lt_of_lt_mul (by rw [mul_comm]; omega)
  have hb : (D i).block s.disk (o / BSIZE) ≠ 0 := (h.built.mapped i _ hk).2 (by rw [hB]; omega)
  exact ⟨hb, h.built.bytes i o hb⟩

theorem Final.bytes (h : Final s D files) {i off n : ℕ}
    (hle : off + n ≤ (contents files i).length) :
    (D i).bytes s.disk off n = ((contents files i).drop off).take n := by
  refine ext_getElem (by simp [Dinode.bytes]; omega) fun k hk₁ hk₂ => ?_
  have hk : k < n := by simpa [Dinode.bytes] using hk₁
  have hlt : off + k < (contents files i).length := by omega
  simp only [Dinode.bytes, getElem_map, getElem_range, getElem_take, getElem_drop]
  rw [(h.byteAt hlt).2, getD_eq_getElem _ _ hlt]

theorem Final.dirent (h : Final s D files) {j : ℕ} {e : Dirent}
    (he : (rootEntries files)[j]? = some e) :
    (D ROOTINO).dirent s.disk j = Dirent.ofBytes e.bytes := by
  have hE : DIRENT = 16 := rfl
  have hj : j < files.length + 2 := by
    have := (List.getElem?_eq_some_iff.1 he).1
    simp only [rootEntries, length_cons, length_mapIdx] at this
    omega
  have hlen := length_contents_root files
  unfold Dinode.dirent
  congr 1
  refine ext_getElem (by rw [Dinode.length_bytes, Dirent.length_bytes]) fun k hk₁ hk₂ => ?_
  have hk : k < DIRENT := by rwa [Dinode.length_bytes] at hk₁
  have hlt : j * DIRENT + k < (contents files ROOTINO).length := by
    rw [hlen, hE] at *
    omega
  simp only [Dinode.bytes, getElem_map, getElem_range]
  rw [(h.byteAt hlt).2, contents_root, getD_flatMap_bytes _ hk, he, Option.map_some,
    Option.getD_some, getD_eq_getElem]

theorem rootEntries_file {k : ℕ} {f : File} (hf : files[k]? = some f) :
    (rootEntries files)[k + 2]? = some ⟨k + 2, f.stripped⟩ := by
  simp [rootEntries, hf]

theorem mem_of_mem_stripped {f : File} {c : UInt8} (hc : c ∈ f.stripped) : c ∈ f.name := by
  unfold File.stripped at hc
  split_ifs at hc
  · exact mem_of_mem_tail hc
  · exact hc

theorem stripped_nul (f : File) : (0 : UInt8) ∉ f.stripped :=
  fun hc => f.name_nul (mem_of_mem_stripped hc)

section

variable (h : Final s D files) {k : ℕ} {f : File} (hf : files[k]? = some f)
  (hdistinct : (files.map fun f => f.stripped.take DIRSIZ).Nodup)
  (hdot : f.stripped.take DIRSIZ ≠ dot) (hdotdot : f.stripped.take DIRSIZ ≠ dotdot)

include h hf hdistinct hdot hdotdot

theorem Final.first {j : ℕ} (hj : j < k + 2) :
    namecmp (f.stripped.take DIRSIZ) ((D ROOTINO).dirent s.disk j).name = false := by
  have hcmp : ∀ {e : Dirent}, (rootEntries files)[j]? = some e → (0 : UInt8) ∉ e.name →
      f.stripped.take DIRSIZ ≠ e.name.take DIRSIZ →
      namecmp (f.stripped.take DIRSIZ) ((D ROOTINO).dirent s.disk j).name = false := by
    intro e he hnul hne
    rw [h.dirent he, Dirent.name_ofBytes_bytes hnul, ← Bool.not_eq_true, namecmp_iff, take_take,
      take_take, min_self]
    exact hne
  rcases j with _ | _ | j
  · exact hcmp (e := ⟨ROOTINO, dot⟩) rfl (by decide) hdot
  · exact hcmp (e := ⟨ROOTINO, dotdot⟩) rfl (by decide) hdotdot
  · have hjk : j < k := by omega
    have hk := (List.getElem?_eq_some_iff.1 hf).1
    have hg : files[j]? = some files[j] := List.getElem?_eq_getElem (hjk.trans hk)
    refine hcmp (rootEntries_file hg) (stripped_nul _) ?_
    · intro heq
      have hfk : files[k] = f := (List.getElem?_eq_some_iff.1 hf).2
      have hkj : k = j := by
        have hget : ∀ m (hm : m < files.length), (files.map fun f => f.stripped.take DIRSIZ)[m]? =
            some (files[m].stripped.take DIRSIZ) := fun m hm => by simp [hm]
        refine (List.getElem?_inj (by simpa using hk) hdistinct).1 ?_
        rw [hget k hk, hget j (hjk.trans hk), hfk, heq]
      omega

theorem Final.lookup {w : Dev} (hw : w.disk = s.disk) :
    FS.dirlookupLoop (f.stripped.take DIRSIZ) (FS.rounds (D ROOTINO) 0) (D ROOTINO) 0 w =
      (.ok (some (k + 2, (k + 2) * DIRENT), D ROOTINO), w) := by
  have hE : DIRENT = 16 := rfl
  have hB : BSIZE = 512 := rfl
  have hk := (List.getElem?_eq_some_iff.1 hf).1
  have hlen := length_contents_root files
  have hsize := h.root_size
  have hmax := h.max ROOTINO
  have hM : MAXFILE * BSIZE = 71680 := rfl
  have hent : (D ROOTINO).dirent s.disk (k + 2) = ⟨k + 2, f.stripped.take DIRSIZ⟩ := by
    have hnum : k + 2 < 2 ^ 16 := by
      simp only [hE] at hlen
      omega
    rw [h.dirent (rootEntries_file hf), Dirent.ofBytes_bytes hnum (stripped_nul f)]
  have hle : (k + 2 + 1) * DIRENT ≤ (contents files ROOTINO).length := by
    rw [hlen]
    exact mul_le_mul_right _ (by omega)
  have hsize32 : (D ROOTINO).size < 2 ^ 32 := by
    rw [hsize, hB]
    omega
  have hfound : FS.dirlookupLoop (f.stripped.take DIRSIZ) (FS.rounds (D ROOTINO) 0) (D ROOTINO)
    (0 * DIRENT) w = _ :=
    dirlookupLoop_found (j := k + 2) h.root hsize32
    (by rw [hsize]; exact hle.trans (lt_mul_of_div_lt (lt_succ_self _) (by decide)).le)
    (fun o ho => by rw [hw]; exact (h.byteAt (ho.trans_le hle)).1)
    (by rw [hw, hent]; exact ⟨succ_ne_zero _, namecmp_iff.2 rfl⟩)
    (fun j hj hc => by
      rw [hw, h.first hf hdistinct hdot hdotdot hj] at hc
      exact absurd hc.2 Bool.false_ne_true)
    (zero_le _) (by
      rw [rounds, hsize, hE, hB]
      simp only [hE] at hle
      omega)
  rw [hw, hent, zero_mul] at hfound
  exact hfound

end

/-! ## The kernel -/

theorem Final.dinode (h : Final s D files) {j : ℕ} (hj : j < NI) {P : Type} :
    (boot s.disk : State P).dev.disk.dinode (boot s.disk : State P).dev.sb j = D j := by
  show s.disk.dinode (Superblock.get (s.disk 1)) j = D j
  rw [h.super]
  exact h.table j hj

theorem Final.namei (h : Final s D files) {k : ℕ} {f : File} (hf : files[k]? = some f)
    (hdistinct : (files.map fun f => f.stripped.take DIRSIZ).Nodup)
    (hdot : f.stripped.take DIRSIZ ≠ dot) (hdotdot : f.stripped.take DIRSIZ ≠ dotdot)
    (hne : f.stripped ≠ []) (hslash : slash ∉ f.stripped) {P : Type} (p : P) :
    ∃ ip s₁, namei p (slash :: f.stripped) (boot s.disk) = (.ok (some ip), s₁) ∧
      s₁.dev = (boot s.disk : State P).dev ∧ (s₁.icache ip).inum = k + 2 ∧ (s₁.icache ip).ref = 1 ∧
      (s₁.icache ip).valid = false ∧ (s₁.icache ip).locked = false := by
  obtain ⟨s₀, hs₀⟩ : ∃ s₀ : State P, s₀ = boot s.disk := ⟨_, rfl⟩
  have hblank : ∀ ip, s₀.icache ip = ⟨0, 0, false, false, Dinode.zero⟩ := fun ip => by rw [hs₀]; rfl
  have hroot : s₀.dev.disk.dinode s₀.dev.sb ROOTINO = D ROOTINO := by
    rw [hs₀]
    exact h.dinode (by decide)
  have hdisk : s₀.dev.disk = s.disk := by rw [hs₀]; rfl
  rw [← hs₀]
  -- the root directory
  obtain ⟨a, -, hrun₁⟩ := iget_new s₀ ROOTINO (fun ip hip => by rw [hblank] at hip; cases hip)
    ⟨⟨0, by decide⟩, by rw [hblank]⟩
  rw [hblank] at hrun₁
  obtain ⟨s₁, hs₁⟩ : ∃ s₁ : State P, s₁ = s₀.put s₀.dev a ⟨ROOTINO, 1, true, true, D ROOTINO⟩ :=
    ⟨_, rfl⟩
  have ha : s₁.icache a = ⟨ROOTINO, 1, true, true, D ROOTINO⟩ := by rw [hs₁, put_self]
  have hother : ∀ ip, ip ≠ a → s₁.icache ip = ⟨0, 0, false, false, Dinode.zero⟩ := fun ip hip => by
    rw [hs₁, put_of_ne hip, hblank]
  have hrun₂ : ilock a (s₀.setInode a ⟨ROOTINO, 1, false, false, Dinode.zero⟩) = (.ok (), s₁) := by
    have hx : (s₀.setInode a ⟨ROOTINO, 1, false, false, Dinode.zero⟩).icache a = ⟨ROOTINO, 1, false,
      false, Dinode.zero⟩ :=
      update_self ..
    have hd : (s₀.setInode a ⟨ROOTINO, 1, false, false, Dinode.zero⟩).dev.disk.dinode
        (s₀.setInode a ⟨ROOTINO, 1, false, false, Dinode.zero⟩).dev.sb ROOTINO = D ROOTINO := hroot
    unfold ilock
    simp only [hx, hd]
    rw [if_neg (by decide), if_neg (by decide), if_neg (by decide), if_neg (by rw [h.root]; decide),
      hs₁]
    unfold put setInode
    simp only [update_idem]
  -- the entry
  have hrun₃ : dirlookup a (f.stripped.take DIRSIZ) s₁ = (do
      let ip ← iget (k + 2)
      return some (ip, (k + 2) * DIRENT) : M P (Option (Ip × ℕ))) s₁ := by
    have hloop : withInode a (fun d => dirlookupLoop (f.stripped.take DIRSIZ) (rounds d 0) d 0) s₁ =
      _ :=
      withInode_same (by
        rw [ha]
        exact h.lookup hf hdistinct hdot hdotdot (by rw [hs₁]; exact hdisk))
    unfold dirlookup
    simp only [run_get_bind, ha]
    rw [if_neg (not_not.2 h.root), bind_ok hloop]
  obtain ⟨b, hb, hrun₄⟩ := iget_new s₁ (k + 2) (fun ip hip => by
      by_cases hc : ip = a
      · rw [hc, ha]
        show 1 ≠ k + 2
        omega
      · rw [hother ip hc] at hip
        cases hip)
    (by
      by_cases hc : (⟨0, by decide⟩ : Ip) = a
      · exact ⟨⟨1, by decide⟩, by rw [hother _ fun h1 => absurd (hc.trans h1.symm) (by decide)]⟩
      · exact ⟨⟨0, by decide⟩, by rw [hother _ hc]⟩)
  have hba : b ≠ a := by
    rintro rfl
    rw [ha] at hb
    cases hb
  rw [hother b hba] at hrun₄
  obtain ⟨s₂, hs₂⟩ : ∃ s₂ : State P, s₂ = s₁.setInode b ⟨k + 2, 1, false, false, Dinode.zero⟩ :=
    ⟨_, rfl⟩
  have ha₂ : s₂.icache a = ⟨ROOTINO, 1, true, true, D ROOTINO⟩ := by
    rw [hs₂, ← ha]
    exact update_of_ne hba.symm ..
  -- the reference to the root directory is dropped
  have hrun₅ : iunlockput a s₂ =
    (.ok (), s₂.put s₂.dev a ⟨ROOTINO, 0, true, false, D ROOTINO⟩) := by
    have hunlock : iunlock a s₂ = (.ok (), s₂.setInode a ⟨ROOTINO, 1, true, false, D ROOTINO⟩) := by
      unfold iunlock
      simp only [ha₂]
      exact if_neg (by decide)
    have hx : (s₂.setInode a ⟨ROOTINO, 1, true, false, D ROOTINO⟩).icache a = ⟨ROOTINO, 1, true,
      false, D ROOTINO⟩ :=
      update_self ..
    rw [iunlockput, bind_ok hunlock]
    unfold iput
    simp only [run_get_bind, hx]
    rw [if_neg (by decide), if_neg (by rw [h.root_nlink]; decide)]
    simp only [run_modify]
    unfold put setInode
    simp only [update_idem]
  refine ⟨b, s₂.put s₂.dev a ⟨ROOTINO, 0, true, false, D ROOTINO⟩, ?_, ?_, ?_⟩
  · have hrun₆ : namexFrom false a [f.stripped.take DIRSIZ]
      (s₀.setInode a ⟨ROOTINO, 1, false, false, Dinode.zero⟩) =
        (.ok (some (b, [])), s₂.put s₂.dev a ⟨ROOTINO, 0, true, false, D ROOTINO⟩) := by
      have hlookup : dirlookup a (f.stripped.take DIRSIZ) s₁ = (.ok (some (b, (k + 2) * DIRENT)),
        s₂) := by
        rw [hrun₃, bind_ok hrun₄, hs₂]
        rfl
      rw [namexFrom, bind_ok hrun₂]
      simp only [run_get_bind, ha]
      rw [if_neg (not_not.2 h.root), if_neg (by simp), bind_ok hlookup]
      simp only [bind_ok hrun₅]
      rfl
    have hstart : namexStart p (slash :: f.stripped) s₀ = _ := hrun₁
    have hnamex : namex p (slash :: f.stripped) false s₀ =
        (.ok (some (b, [])), s₂.put s₂.dev a ⟨ROOTINO, 0, true, false, D ROOTINO⟩) := by
      rw [namex, bind_ok hstart, pathElems_slash hne hslash, hrun₆]
    rw [FS.namei, bind_ok hnamex]
    rfl
  · rw [hs₂, hs₁]
    rfl
  · have hb₂ : (s₂.put s₂.dev a ⟨ROOTINO, 0, true, false, D ROOTINO⟩).icache b = ⟨k + 2, 1, false,
      false, Dinode.zero⟩ := by
      rw [put_of_ne hba, hs₂]
      exact update_self ..
    rw [hb₂]
    exact ⟨rfl, rfl, rfl, rfl⟩

/-- The kernel finds every file of an image that `mkfs` writes, with its length and its bytes. -/
theorem mkfs_read_back (files : List File) (hn : files.length < NINODES - 1)
    (hdistinct : (files.map fun f => f.stripped.take DIRSIZ).Nodup)
    (hname : ∀ f ∈ files, f.stripped ≠ [] ∧ f.stripped.take DIRSIZ ≠ dot ∧
    f.stripped.take DIRSIZ ≠ dotdot) (hholds : Holds (contents files)) :
    ((∀ f ∈ files, slash ∉ f.name) → ∃ s, mkfs files = some s) ∧
    ∀ s, mkfs files = some s → ∀ f ∈ files, ∀ {P : Type} (p : P), ∃ ip s₁ s₂,
      FS.namei p (slash :: f.stripped) (boot s.disk) = (.ok (some ip), s₁) ∧
      ilock ip s₁ = (.ok (), s₂) ∧ (s₂.icache ip).d.type = T_FILE ∧
      (s₂.icache ip).d.size = f.content.length ∧ ∀ off n, off + n ≤ f.content.length →
        withInode ip (fun d => readi d off n) s₂ = (.ok (some ((f.content.drop off).take n)),
      s₂) := by
  have hN : NINODES = 200 := rfl
  have hNI : NI = 208 := rfl
  refine ⟨fun hslash => ?_, fun s hs f hf P p => ?_⟩
  · obtain ⟨s, hs, -⟩ := (mkfs_yields (by omega)).exists_some ⟨hslash, hholds⟩
    exact ⟨s, hs⟩
  · obtain ⟨⟨hslash, -⟩, D, h⟩ := (mkfs_yields (by omega)).of_eq_some hs
    obtain ⟨k, hk⟩ := mem_iff_getElem?.1 hf
    have hlt := (List.getElem?_eq_some_iff.1 hk).1
    obtain ⟨hne, hdot, hdotdot⟩ := hname f hf
    have hstripped : slash ∉ f.stripped := fun hc => hslash f hf (mem_of_mem_stripped hc)
    obtain ⟨ip, s₁, hrun₁, hdev, hinum, href, hvalid, hlocked⟩ :=
      h.namei hk hdistinct hdot hdotdot hne hstripped p
    have hcontent : contents files (k + 2) = f.content := by
      rw [contents_add]
      simp [hk]
    have hsize : (D (k + 2)).size = f.content.length := by
      rw [h.file_size _ (show k + 2 ≠ 1 by omega), hcontent]
    have htype := h.file k hlt
    have hd : s₁.dev.disk.dinode s₁.dev.sb (k + 2) = D (k + 2) := by
      rw [hdev]
      exact h.dinode (by omega)
    have hdisk : s₁.dev.disk = s.disk := by rw [hdev]; rfl
    have hrun₂ : ilock ip s₁ = (.ok (), s₁.put s₁.dev ip
        { s₁.icache ip with locked := true, valid := true, d := D (k + 2) }) := by
      unfold ilock
      simp only [href, hlocked, hvalid, hinum, hd]
      rw [if_neg (by decide), if_neg (by decide), if_neg (by decide),
        if_neg (by rw [htype]; decide)]
      rfl
    refine ⟨ip, s₁, _, hrun₁, hrun₂, ?_, ?_, fun off n hle => withInode_same ?_⟩
    · rw [put_self]
      exact htype
    · rw [put_self]
      exact hsize
    · rw [put_self]
      have hM : MAXFILE * BSIZE < 2 ^ 32 := by decide
      have hmax := h.max (k + 2)
      rw [hcontent] at hmax
      have hread : readi (D (k + 2)) off n s₁.dev = _ :=
        readi_mapped (by rw [htype]; decide) (by omega) (by omega)
        fun o _ ho => by
          rw [hdisk]
          exact (h.byteAt (by rw [hcontent, ← hsize]; exact ho)).1
      have hmin : min n ((D (k + 2)).size - off) = n := by omega
      rw [hmin, hdisk, h.bytes (by rw [hcontent]; exact hle), hcontent] at hread
      exact hread

/-- The end of the first file, past the direct blocks, and of the second. -/
theorem mkfs_read_back_two : ∃ s, mkfs [bigFile, smallFile] = some s ∧
    (∃ ip s₁ s₂, FS.namei () [slash, 98] (boot s.disk) = (.ok (some ip), s₁) ∧
      ilock ip s₁ = (.ok (), s₂) ∧ (s₂.icache ip).d.type = T_FILE ∧ (s₂.icache ip).d.size = 7000 ∧
      withInode ip (fun d => readi d 6000 1000) s₂ = (.ok (some (replicate 1000 7)), s₂)) ∧
    ∃ ip s₁ s₂, FS.namei () [slash, 97] (boot s.disk) = (.ok (some ip), s₁) ∧
      ilock ip s₁ = (.ok (), s₂) ∧ (s₂.icache ip).d.size = 3 ∧
      withInode ip (fun d => readi d 1 2) s₂ = (.ok (some [2, 3]), s₂) := by
  obtain ⟨h₁, h₂⟩ := mkfs_read_back [bigFile, smallFile] (by decide) (by decide) (by decide)
    holds_two
  obtain ⟨s, hs⟩ := h₁ (by decide)
  obtain ⟨ip, s₁, s₂, hrun₁, hrun₂, htype, hsize, hread⟩ := h₂ s hs bigFile mem_cons_self ()
  obtain ⟨ip', s₁', s₂', hrun₁', hrun₂', -, hsize', hread'⟩ :=
    h₂ s hs smallFile (mem_cons_of_mem _ mem_cons_self) ()
  rw [bigFile_content] at hsize hread
  have hend := hread 6000 1000 (by rw [length_replicate])
  rw [drop_replicate, take_replicate] at hend
  rw [length_replicate] at hsize
  exact ⟨s, hs, ⟨ip, s₁, s₂, hrun₁, hrun₂, htype, hsize, hend⟩, ip', s₁', s₂', hrun₁', hrun₂',
    hsize', hread' 1 2 (by decide)⟩

end Xv6.Mkfs
