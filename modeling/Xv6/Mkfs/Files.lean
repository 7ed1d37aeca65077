import Xv6.Mkfs.Build

/-!
# The inodes and the files of the image

`Made s D c`: the image is as in `Built`, and the inodes `D` are those in the inode blocks.
`contents files` is what the image holds for a list of files.
-/

namespace Xv6.Mkfs

open LittleEndian Image Function List Fallible

structure Made (s : Image) (D : ℕ → Dinode) (c : ℕ → List UInt8) : Prop where
  built : Built s D c
  table : ∀ j < NI, s.disk.dinode sb j = D j
  size : ∀ j, (D j).size = (c j).length
  zero : ∀ j, j = 0 ∨ s.freeinode ≤ j → D j = Dinode.zero
  super : Superblock.get (s.disk 1) = sb
  le : s.freeinode ≤ NI
  pos : 0 < s.freeinode
  max : ∀ j, (c j).length ≤ MAXFILE * BSIZE

theorem iblock_bounds {j : ℕ} (h : j < NI) : 2 ≤ IBLOCK j sb ∧ IBLOCK j sb < sb.bmapstart := by
  have hN : NI = 208 := rfl
  have hI : IPB = 8 := rfl
  have hs : sb.inodestart = 32 := rfl
  have hb : sb.bmapstart = 58 := rfl
  rw [IBLOCK, hI, hs, hb]
  omega

theorem iblock_lt {j : ℕ} (h : j < NI) : IBLOCK j sb < nmeta :=
  (iblock_bounds h).2.trans (by decide)

/-- Only the blocks behind the meta blocks and the addresses of the inodes count. -/
theorem Built.congr {s s' : Image} {D D' : ℕ → Dinode} {c : ℕ → List UInt8} (h : Built s D c)
    (hdisk : ∀ b, nmeta ≤ b → s'.disk b = s.disk b) (hfree : s'.freeblock = s.freeblock)
    (hsize : s'.size = s.size) (hD : ∀ j, (D' j).addrs = (D j).addrs) : Built s' D' c := by
  have hind : ∀ j, (D' j).indirect = (D j).indirect := fun j => by
    unfold Dinode.indirect
    rw [hD]
  have hsame : ∀ j, (D j).indirect ≠ 0 → s'.disk (D j).indirect = s.disk (D j).indirect :=
    fun j hj =>
    hdisk _ (h.owns.indirect_lt hj).1
  have hblock : ∀ j k, (D' j).block s'.disk k = (D j).block s.disk k := fun j k =>
    (Dinode.block_of_addrs (hD j) k).trans (Dinode.block_congr (hsame j) k)
  refine ⟨⟨?_, ?_, hfree ▸ h.owns.nmeta_le⟩, hsize.trans h.size, ?_, ?_, ?_, hfree.trans h.count,
    hfree ▸ h.le⟩
  · rw [hfree]
    refine h.owns.exact.congr fun a => ?_
    exact (Dinode.ptr_of_addrs (hD a.1) a.2).trans (Dinode.ptr_congr (hsame a.1) a.2)
  · intro b hb
    rw [hfree] at hb
    rw [hdisk b (h.owns.nmeta_le.trans hb), h.owns.fresh b hb]
  · intro j o hb
    rw [hblock] at hb ⊢
    rw [hdisk _ (h.owns.block_lt hb).1]
    exact h.bytes j o hb
  · intro j k hk
    rw [hblock]
    exact h.mapped j k hk
  · intro j
    rw [hind]
    exact h.indirect j

theorem Owns.addrs_lt {s : Image} {D : ℕ → Dinode} (h : Owns s D) (j : ℕ) (i : Fin (NDIRECT + 1)) :
    (D j).addrs i < s.freeblock := by
  have hpos : 0 < s.freeblock := Nat.pos_of_ne_zero h.freeblock_ne_zero
  by_cases hz : (D j).addrs i = 0
  · omega
  · by_cases hi : i.val < NDIRECT
    · have hb : (D j).block s.disk i.val = (D j).addrs i := Dinode.block_direct hi
      rw [← hb] at hz ⊢
      exact (h.block_lt hz).2
    · have hl : i = Fin.last NDIRECT := Fin.ext (by have := i.isLt; rw [Fin.val_last]; omega)
      subst hl
      exact (h.indirect_lt (i := j) hz).2

namespace Made

variable {s : Image} {D : ℕ → Dinode} {c : ℕ → List UInt8} {i : ℕ}

theorem fits (h : Made s D c) (j : ℕ) : (D j).Fits := by
  by_cases hj : j < NI
  · rw [← h.table j hj]
    exact Dinode.fits_get ..
  · rw [h.zero j (.inr (h.le.trans (not_lt.1 hj)))]
    exact Dinode.fits_zero

theorem empty (h : Made s D c) {j : ℕ} (hj : j = 0 ∨ s.freeinode ≤ j) : c j = [] := by
  have := h.size j
  rw [h.zero j hj] at this
  exact eq_nil_of_length_eq_zero this.symm

theorem rsect_iblock (h : Made s D c) (hi : i < NI) :
    s.rsect (IBLOCK i sb) = some (s.disk (IBLOCK i sb)) := by
  refine if_pos ?_
  have hlt := iblock_lt hi
  have hle := h.built.owns.nmeta_le.trans h.built.le
  rw [h.built.size]
  omega

theorem rinode (h : Made s D c) (hi : i < NI) : s.rinode i = some (D i) := by
  rw [Image.rinode, h.rsect_iblock hi, Option.map_some]
  exact congrArg some (h.table i hi)

end Made

theorem winode_eq {s : Image} {i : ℕ} (hsize : s.size = FSSIZE) (hi : i < NI) (d : Dinode) :
    s.winode i d = some { s with disk := s.disk.putDinode sb i d } := by
  have hlt : IBLOCK i sb < FSSIZE := (iblock_lt hi).trans_le (by decide)
  have hr : s.rsect (IBLOCK i sb) = some (s.disk (IBLOCK i sb)) := if_pos (hsize ▸ hlt)
  rw [winode, hr, Option.map_some, Image.wsect]
  have hmax : Max.max s.size (IBLOCK i sb + 1) = s.size := by
    rw [hsize]
    omega
  rw [hmax]
  rfl

theorem Made.store {s s' : Image} {D : ℕ → Dinode} {c c' : ℕ → List UInt8} {i : ℕ} {d d' : Dinode}
    (h : Made s D c) (hi : i < NI) (hb : Built s' (update D i d') c')
    (hlow : ∀ b < nmeta, s'.disk b = s.disk b) (hd : d.Fits) (haddrs : d.addrs = d'.addrs)
    (hsize : d.size = (c' i).length) (hc : ∀ j, j ≠ i → c' j = c j) (hle : s'.freeinode ≤ NI)
    (hi₀ : i ≠ 0) (hin : i < s'.freeinode) (hmono : s.freeinode ≤ s'.freeinode)
    (hmax : (c' i).length ≤ MAXFILE * BSIZE) :
    Made { s' with disk := s'.disk.putDinode sb i d } (update D i d) c' where
  built := by
    refine hb.congr (fun b hb => Disk.putDinode_of_ne d ?_) rfl rfl fun j => ?_
    · have := iblock_lt hi
      omega
    · by_cases hj : j = i
      · rw [hj, update_self, update_self]
        exact haddrs
      · rw [update_of_ne hj, update_of_ne hj]
  table j hj := by
    by_cases hji : j = i
    · rw [hji, update_self]
      exact Disk.dinode_putDinode_self hd
    · rw [update_of_ne hji, ← h.table j hj]
      exact (Disk.dinode_putDinode_of_ne d hji).trans (Disk.dinode_congr (hlow _ (iblock_lt hj)))
  size j := by
    by_cases hji : j = i
    · rw [hji, update_self]
      exact hsize
    · rw [update_of_ne hji, hc j hji]
      exact h.size j
  zero j hj := by
    have hji : j ≠ i := by
      rintro rfl
      rcases hj with rfl | hj
      · exact hi₀ rfl
      · exact absurd hin (not_lt.2 hj)
    rw [update_of_ne hji]
    exact h.zero j (hj.imp_right fun hj => hmono.trans hj)
  super := by
    have hne : (1 : ℕ) ≠ IBLOCK i sb := by
      have := (iblock_bounds hi).1
      omega
    show Superblock.get (s'.disk.putDinode sb i d 1) = sb
    rw [Disk.putDinode_of_ne d hne, hlow 1 (by decide)]
    exact h.super
  le := hle
  pos := Nat.zero_lt_of_lt hin
  max j := by
    by_cases hji : j = i
    · rw [hji]
      exact hmax
    · rw [hc j hji]
      exact h.max j

/-- The image can hold the contents. -/
def Holds (c : ℕ → List UInt8) : Prop :=
  (∀ j, (c j).length ≤ MAXFILE * BSIZE) ∧ nmeta + ∑ j ∈ Finset.range NI, need (c j).length ≤ FSSIZE

theorem Holds.mono {c c' : ℕ → List UInt8} (h : Holds c')
    (hle : ∀ j, (c j).length ≤ (c' j).length) : Holds c := by
  refine ⟨fun j => (hle j).trans (h.1 j), le_trans ?_ h.2⟩
  exact Nat.add_le_add_left (Finset.sum_le_sum fun j _ => need_mono (hle j)) _

namespace Made

variable {s s' : Image} {D : ℕ → Dinode} {c : ℕ → List UInt8} {i : ℕ} {p : List UInt8}

section

variable (h : Made s D c)

include h

theorem holds_append_iff (hi : i < NI) :
    Holds (update c i (c i ++ p)) ↔ (c i).length + p.length ≤ MAXFILE * BSIZE ∧
      s.freeblock + need ((c i).length + p.length) ≤ FSSIZE + need (c i).length := by
  have hsum := sum_need_update (c := c) hi (c i ++ p)
  have hcount := h.built.count
  rw [length_append] at hsum
  constructor
  · rintro ⟨hmax, hle⟩
    have := hmax i
    rw [update_self, length_append] at this
    exact ⟨this, by omega⟩
  · rintro ⟨hmax, hle⟩
    refine ⟨fun j => ?_, by omega⟩
    by_cases hj : j = i
    · rw [hj, update_self, length_append]
      exact hmax
    · rw [update_of_ne hj]
      exact h.max j

theorem holds : Holds c := ⟨h.max, h.built.count ▸ h.built.le⟩

theorem iappend (hi : i < s.freeinode) (hi₀ : i ≠ 0) : Yields (Holds (update c i (c i ++ p)))
      (fun s' => ∃ d, Made s' (update D i d) (update c i (c i ++ p)) ∧ d.type = (D i).type ∧
        d.nlink = (D i).nlink ∧ s'.freeinode = s.freeinode) (s.iappend i p) := by
  have hni : i < NI := hi.trans_le h.le
  rw [Image.iappend, h.rinode hni, Option.bind_some, h.size i]
  refine (h.built.iappendLoop hni (h.max i)).bind (h.holds_append_iff hni).1 ?_
  rintro ⟨d', _, s'⟩ hroom ⟨rfl, hb, hk⟩
  dsimp only at hb hk
  have hMB : MAXFILE * BSIZE = 71680 := rfl
  have hF : FSSIZE = 1000 := rfl
  have hcself : update c i (c i ++ p) i = c i ++ p := update_self ..
  have hlen : (c i ++ p).length = (c i).length + p.length := length_append
  have hfits : ({ d' with size := (c i).length + p.length } : Dinode).Fits := by
    have hf := h.fits i
    rw [hk.fields]
    refine ⟨hf.type, hf.major, hf.minor, hf.nlink, ?_, fun j => ?_⟩
    · show (c i).length + p.length < 2 ^ 32
      omega
    · have := hb.owns.addrs_lt i j
      rw [update_self] at this
      have hle := hb.le
      show d'.addrs j < 2 ^ 32
      omega
  have hm := h.store hni hb hk.low hfits rfl (by rw [hcself, hlen]) (fun j hj => update_of_ne hj ..)
    (hk.freeinode ▸ h.le) hi₀ (by rw [hk.freeinode]; exact hi) hk.freeinode.ge
    (by rw [hcself, hlen]; exact hroom.1)
  show Yields _ _ (s'.winode i _)
  rw [winode_eq hb.size hni]
  refine ⟨hm.holds, _, hm, ?_, ?_, hk.freeinode⟩
  · show d'.type = _
    rw [hk.fields]
  · show d'.nlink = _
    rw [hk.fields]

theorem ialloc (hn : s.freeinode < NI) (type : ℕ) (ht : type < 2 ^ 16) :
    ∃ s', s.ialloc type = some (s.freeinode, s') ∧
      Made s' (update D s.freeinode (newInode type)) c ∧
      s'.freeinode = s.freeinode + 1 ∧ s'.freeblock = s.freeblock := by
  have hempty : c s.freeinode = [] := h.empty (.inr le_rfl)
  have hself : update D s.freeinode Dinode.zero = D := by
    rw [← h.zero s.freeinode (.inr le_rfl), update_eq_self]
  have hb : Built { s with freeinode := s.freeinode + 1 } (update D s.freeinode Dinode.zero) c := by
    rw [hself]
    exact h.built.congr (fun _ _ => rfl) rfl rfl fun _ => rfl
  have hfits : (newInode type).Fits :=
    { Dinode.fits_zero with type := ht, nlink := Nat.one_lt_two_pow (by decide) }
  have hw := winode_eq (s := { s with freeinode := s.freeinode + 1 }) h.built.size hn
    (newInode type)
  refine ⟨_, ?_, h.store hn hb (fun _ _ => rfl) hfits rfl ?_ (fun _ _ => rfl) hn h.pos.ne'
    (Nat.lt_succ_self _) (Nat.le_succ _) (h.max _), rfl, rfl⟩
  · rw [Image.ialloc, hw]
    rfl
  · rw [hempty]
    rfl

theorem reads (hi : i < s.freeinode) (hi₀ : i ≠ 0) (l : List (List UInt8)) :
    Yields (Holds (update c i (c i ++ l.flatten)))
      (fun s' => ∃ d, Made s' (update D i d) (update c i (c i ++ l.flatten)) ∧ d.type = (D i).type ∧
        s'.freeinode = s.freeinode) (l.foldlM (fun s r => s.iappend i r) s) := by
  induction l generalizing s D c with
  | nil =>
    rw [flatten_nil, append_nil, update_eq_self]
    exact ⟨h.holds, D i, (update_eq_self i D).symm ▸ h, rfl, rfl⟩
  | cons r l ih =>
    rw [foldlM_cons, flatten_cons, ← append_assoc]
    refine (h.iappend hi hi₀).bind (fun hholds => hholds.mono fun j => ?_)
      fun s₁ _ ⟨d₁, hm₁, ht₁, _, hf₁⟩ => ?_
    · by_cases hj : j = i
      · rw [hj, update_self, update_self]
        exact (prefix_append ..).length_le
      · rw [update_of_ne hj, update_of_ne hj]
    · have hrest := ih hm₁ (hf₁ ▸ hi)
      simp only [update_self, update_idem] at hrest
      exact hrest.mono Iff.rfl fun s' ⟨d, hm, ht, hf⟩ => ⟨d, hm, ht.trans ht₁, hf.trans hf₁⟩

end

end Made

/-! ## The files -/

def rootEntries (files : List File) : List Dirent :=
  ⟨ROOTINO, dot⟩ :: ⟨ROOTINO, dotdot⟩ :: files.mapIdx fun k f => ⟨k + 2, f.stripped⟩

def contents (files : List File) (i : ℕ) : List UInt8 :=
  if i = ROOTINO then (rootEntries files).flatMap Dirent.bytes
  else if 2 ≤ i then ((files.map File.content)[i - 2]?).getD []
  else []

theorem contents_root (files : List File) :
    contents files ROOTINO = (rootEntries files).flatMap Dirent.bytes := rfl

theorem contents_add (k : ℕ) (files : List File) :
    contents files (k + 2) = ((files.map File.content)[k]?).getD [] := by
  have h : k + 2 ≠ ROOTINO := by
    rw [show ROOTINO = 1 from rfl]
    omega
  rw [contents, if_neg h, if_pos (by omega), Nat.add_sub_cancel]

theorem length_contents_root (files : List File) :
    (contents files ROOTINO).length = (files.length + 2) * DIRENT := by
  have h : ∀ l : List Dirent, (l.flatMap Dirent.bytes).length = l.length * DIRENT := by
    intro l
    induction l with
    | nil => simp
    | cons e l ih =>
      rw [flatMap_cons, length_append, ih, Dirent.length_bytes, length_cons]
      ring
  rw [contents_root, h]
  simp [rootEntries]

theorem contents_append (files : List File) (f : File) : contents (files ++ [f]) = update
        (update (contents files) ROOTINO
          (contents files ROOTINO ++ Dirent.bytes ⟨files.length + 2, f.stripped⟩))
        (files.length + 2) f.content := by
  funext j
  by_cases hj : j = files.length + 2
  · subst hj
    rw [update_self, contents_add]
    simp
  · rw [update_of_ne hj]
    by_cases hr : j = ROOTINO
    · subst hr
      rw [update_self, contents_root, contents_root]
      simp [rootEntries, mapIdx_append]
    · rw [update_of_ne hr]
      unfold contents
      rw [if_neg hr, if_neg hr]
      split_ifs with h2
      · rw [map_append, getElem?_append]
        split_ifs with hlt
        · rfl
        · have hle : files.length ≤ j - 2 := by simpa using hlt
          have hgt : files.length < j - 2 := by omega
          have h₁ : (files.map File.content)[j - 2]? = none := by
            rw [getElem?_eq_none_iff, length_map]
            exact hle
          have h₂ : ([f].map File.content)[j - 2 - (files.map File.content).length]? = none := by
            rw [getElem?_eq_none_iff]
            simp only [map_cons, map_nil, length_cons, length_nil, length_map]
            omega
          rw [h₁, h₂]
      · rfl

/-- The image after some of the files. -/
structure Stage (s : Image) (D : ℕ → Dinode) (files : List File) : Prop where
  made : Made s D (contents files)
  freeinode : s.freeinode = files.length + 2
  root : (D ROOTINO).type = T_DIR
  root_nlink : (D ROOTINO).nlink = 1
  file : ∀ k < files.length, (D (k + 2)).type = T_FILE

theorem Stage.addFile {s : Image} {D : ℕ → Dinode} {files : List File} (h : Stage s D files)
    (hn : files.length + 2 < NI) (f : File) :
    Yields (slash ∉ f.name ∧ Holds (contents (files ++ [f])))
      (fun s' => ∃ D', Stage s' D' (files ++ [f])) (s.addFile f) := by
  by_cases hslash : slash ∈ f.name
  · rw [Image.addFile, if_pos hslash]
    exact fun hc => hc.1 hslash
  have hF : s.freeinode = files.length + 2 := h.freeinode
  have hne : files.length + 2 ≠ ROOTINO := by
    rw [show ROOTINO = 1 from rfl]
    omega
  have hempty : contents files (files.length + 2) = [] := h.made.empty (.inr hF.le)
  obtain ⟨s₁, heq₁, hm₁, hf₁, -⟩ := h.made.ialloc (hF ▸ hn) T_FILE (by decide)
  rw [hF] at heq₁ hm₁ hf₁
  rw [Image.addFile, if_neg hslash, heq₁, Option.bind_some, contents_append]
  refine (hm₁.iappend (i := ROOTINO) (by rw [hf₁, show ROOTINO = 1 from rfl]; omega)
    (by decide)).bind
    (fun hc => hc.2.mono fun j => ?_) fun s₂ _ ⟨d₂, hm₂, ht₂, hl₂, hf₂⟩ => ?_
  · by_cases hj : j = files.length + 2
    · rw [hj, update_of_ne hne, hempty]
      exact Nat.zero_le _
    · rw [update_of_ne hj]
  have hreads := hm₂.reads (i := files.length + 2) (by rw [hf₂, hf₁]; omega) (by omega) f.reads
  rw [update_of_ne hne, hempty, nil_append, show f.reads.flatten = f.content from rfl,
    ← contents_append] at hreads
  rw [← contents_append]
  refine hreads.mono (by simp [hslash]) fun s₃ ⟨d₃, hm₃, ht₃, hf₃⟩ => ⟨_, hm₃, ?_, ?_, ?_, ?_⟩
  · rw [hf₃, hf₂, hf₁, length_append, length_singleton]
  · rw [update_of_ne hne.symm, update_self, ht₂, update_of_ne hne.symm]
    exact h.root
  · rw [update_of_ne hne.symm, update_self, hl₂, update_of_ne hne.symm]
    exact h.root_nlink
  · intro k hk
    rw [length_append, length_singleton] at hk
    have hkr : k + 2 ≠ ROOTINO := by
      rw [show ROOTINO = 1 from rfl]
      omega
    by_cases hkl : k = files.length
    · subst hkl
      rw [update_self, ht₃, update_of_ne hkr, update_self]
      rfl
    · rw [update_of_ne (by omega), update_of_ne hkr, update_of_ne (by omega)]
      exact h.file k (by omega)

theorem length_contents_le (files rest : List File) (j : ℕ) :
    (contents files j).length ≤ (contents (files ++ rest) j).length := by
  by_cases hr : j = ROOTINO
  · rw [hr, length_contents_root, length_contents_root, length_append]
    exact Nat.mul_le_mul_right _ (by omega)
  · unfold contents
    rw [if_neg hr, if_neg hr]
    split_ifs
    · rw [map_append, getElem?_append]
      split_ifs with hlt
      · exact le_rfl
      · rw [getElem?_eq_none_iff.2 (Nat.not_lt.1 hlt)]
        exact Nat.zero_le _
    · exact le_rfl

theorem Stage.addFiles {s : Image} {D : ℕ → Dinode} {files rest : List File} (h : Stage s D files)
    (hn : files.length + rest.length + 2 ≤ NI) :
    Yields ((∀ f ∈ rest, slash ∉ f.name) ∧ Holds (contents (files ++ rest)))
      (fun s' => ∃ D', Stage s' D' (files ++ rest)) (rest.foldlM Image.addFile s) := by
  induction rest generalizing files s D with
  | nil =>
    rw [append_nil]
    exact ⟨⟨nofun, h.made.holds⟩, D, h⟩
  | cons f rest ih =>
    rw [length_cons] at hn
    rw [foldlM_cons, append_cons]
    refine (h.addFile (by omega) f).bind
      (fun hc => ⟨hc.1 f mem_cons_self, hc.2.mono (length_contents_le _ _)⟩) fun s₁ hok ⟨D₁, h₁⟩ =>
      ?_
    exact (ih h₁ (by rw [length_append, length_singleton]; omega)).mono (by simp [hok.1]) fun _
      hr => hr

/-! ## The root directory -/

theorem start_made : Made start (fun _ => Dinode.zero) fun _ => [] where
  built := by
    have hzero : ∀ a, tree start.disk (fun _ => Dinode.zero) a = 0 := fun a => Dinode.ptr_zero
    refine ⟨⟨⟨fun a a' ha => absurd (hzero a) ha, fun b => ?_⟩, fun b hb => ?_, le_rfl⟩, rfl,
      fun i o hb => ?_, fun i k _ => ?_, fun i => ?_, ?_, by decide⟩
    · refine ⟨fun hb => absurd hb.2 (Nat.not_lt.2 hb.1), ?_⟩
      rintro ⟨hb, a, rfl⟩
      exact absurd (hzero a) hb
    · refine update_of_ne ?_ ..
      have hm : start.freeblock = 59 := rfl
      omega
    · exact absurd Dinode.block_zero hb
    · exact ⟨fun hb => absurd Dinode.block_zero hb, fun hk => absurd hk (Nat.not_lt_zero _)⟩
    · exact ⟨fun hb => absurd rfl hb, fun hk => absurd hk (Nat.not_lt_zero _)⟩
    · have hneed : need ([] : List UInt8).length = 0 := rfl
      simp only [hneed, Finset.sum_const_zero]
      rfl
  table j hj := by
    have hne : IBLOCK j sb ≠ 1 := by
      have := (iblock_bounds hj).1
      omega
    have hz : start.disk (IBLOCK j sb) = zeroes := wsect_disk_of_ne _ _ hne
    rw [Disk.dinode, hz, Dinode.get_zeroes]
  size _ := rfl
  zero _ _ := rfl
  super := by
    rw [start, wsect_disk_self]
    exact Superblock.get_put _ _ (by decide)
  le := by decide
  pos := by decide
  max _ := Nat.zero_le _

theorem sum_need : ∀ (cs : List (List UInt8)) {m : ℕ}, cs.length ≤ m →
    ∑ j ∈ Finset.range m, need ((cs[j]?).getD []).length = (cs.map fun c => need c.length).sum := by
  intro cs
  induction cs with
  | nil => exact fun _ => Finset.sum_eq_zero fun j _ => by rw [getElem?_nil]; rfl
  | cons c cs ih =>
    intro m hm
    obtain ⟨m, rfl⟩ := Nat.exists_eq_succ_of_ne_zero (ne_of_gt (lt_of_lt_of_le (Nat.succ_pos _) hm))
    rw [Finset.sum_range_succ', map_cons, sum_cons, add_comm]
    exact congrArg _ (ih (Nat.le_of_succ_le_succ hm))

/-- The blocks of the files and of the root directory. -/
theorem holds_of_sum {files : List File} (hn : files.length + 2 ≤ NI)
    (hmax : ∀ f ∈ files, f.content.length ≤ MAXFILE * BSIZE)
    (hsum : nmeta + (need ((files.length + 2) * DIRENT) +
    (files.map fun f => need f.content.length).sum) ≤ FSSIZE) : Holds (contents files) := by
  have hlen := length_contents_root files
  have hzero : contents files 0 = [] := rfl
  refine ⟨fun j => ?_, ?_⟩
  · rcases j with _ | _ | k
    · exact Nat.zero_le _
    · have hNI : NI * DIRENT ≤ MAXFILE * BSIZE := by decide
      rw [show contents files (0 + 1) = contents files ROOTINO from rfl, hlen]
      exact (Nat.mul_le_mul_right _ hn).trans hNI
    · rw [contents_add, getElem?_map]
      cases hf : files[k]? with
      | none => exact Nat.zero_le _
      | some f => exact hmax f (mem_of_getElem? hf)
  · obtain ⟨m, hm⟩ : ∃ m, NI = m + 2 := ⟨206, rfl⟩
    have hfiles := sum_need (files.map File.content) (m := m) (by rw [length_map]; omega)
    rw [map_map] at hfiles
    have hrest : ∑ j ∈ Finset.range m, need (contents files (j + 1 + 1)).length = _ :=
      (Finset.sum_congr rfl fun j _ => by rw [contents_add]).trans hfiles
    rw [hm, Finset.sum_range_succ', Finset.sum_range_succ', hrest, hzero,
      show contents files (0 + 1) = contents files ROOTINO from rfl, hlen]
    have hneed : need ([] : List UInt8).length = 0 := rfl
    rw [hneed, Nat.add_zero, Nat.add_comm (sum _)]
    exact hsum

theorem holds_of_empty {files : List File} (hn : files.length + 2 ≤ NI)
    (hempty : ∀ f ∈ files, f.content = []) : Holds (contents files) := by
  refine holds_of_sum hn (fun f hf => by rw [hempty f hf]; exact Nat.zero_le _) ?_
  have hneed : (files.map fun f => need f.content.length) = files.map fun _ => 0 :=
    map_congr_left fun f hf => by rw [hempty f hf]; rfl
  have hmono : need ((files.length + 2) * DIRENT) ≤ need (NI * DIRENT) :=
    need_mono (Nat.mul_le_mul_right _ hn)
  have hroom : nmeta + need (NI * DIRENT) ≤ FSSIZE := by decide
  rw [hneed, sum_map_zero]
  omega

theorem root_stage : ∃ D s, Image.root = some s ∧ Stage s D [] := by
  have hc : update (update (fun _ => []) ROOTINO ([] ++ Dirent.bytes ⟨ROOTINO, dot⟩)) ROOTINO
      (Dirent.bytes ⟨ROOTINO, dot⟩ ++ Dirent.bytes ⟨ROOTINO, dotdot⟩) = contents [] := by
    funext j
    rw [update_idem]
    by_cases hj : j = ROOTINO
    · rw [hj, update_self, contents_root]
      simp [rootEntries]
    · rw [update_of_ne hj, contents, if_neg hj]
      split_ifs
      · rfl
      · rfl
  obtain ⟨s₁, heq₁, hm₁, hf₁, -⟩ := start_made.ialloc (by decide) T_DIR (by decide)
  have hfree : start.freeinode = ROOTINO := rfl
  rw [hfree] at heq₁ hm₁ hf₁
  have hlt : ROOTINO < s₁.freeinode := by rw [hf₁]; exact Nat.lt_succ_self _
  have hholds : Holds (contents []) := holds_of_empty (by decide) nofun
  rw [← hc] at hholds
  obtain ⟨s₂, heq₂, d₂, hm₂, ht₂, hl₂, hf₂⟩ := (hm₁.iappend hlt (by decide)
    (p := Dirent.bytes ⟨ROOTINO, dot⟩)).exists_some
    (hholds.mono fun j => by
      by_cases hj : j = ROOTINO
      · rw [hj, update_self, update_self, nil_append, length_append]
        exact Nat.le_add_right _ _
      · rw [update_of_ne hj, update_of_ne hj, update_of_ne hj])
  have hself : update (fun _ => []) ROOTINO ([] ++ Dirent.bytes ⟨ROOTINO, dot⟩) ROOTINO =
      Dirent.bytes ⟨ROOTINO, dot⟩ := update_self ..
  obtain ⟨s₃, heq₃, d₃, hm₃, ht₃, hl₃, hf₃⟩ := (hm₂.iappend (i := ROOTINO) (hf₂ ▸ hlt)
    (by decide) (p := Dirent.bytes ⟨ROOTINO, dotdot⟩)).exists_some (by rw [hself]; exact hholds)
  rw [hself, hc] at hm₃
  refine ⟨_, s₃, ?_, hm₃, ?_, ?_, ?_, nofun⟩
  · rw [Image.root, heq₁]
    show (if ROOTINO = ROOTINO then _ else none) = some s₃
    rw [if_pos rfl, heq₂]
    exact heq₃
  · rw [hf₃, hf₂, hf₁]
    rfl
  · rw [update_self, ht₃, update_self, ht₂, update_self]
    rfl
  · rw [update_self, hl₃, update_self, hl₂, update_self]
    rfl

/-! ## The whole image -/

/-- The image that `mkfs` writes. -/
structure Final (s : Image) (D : ℕ → Dinode) (files : List File) : Prop where
  built : Built s D (contents files)
  table : ∀ j < NI, s.disk.dinode sb j = D j
  super : Superblock.get (s.disk 1) = sb
  zero : ∀ j, j = 0 ∨ files.length + 2 ≤ j → D j = Dinode.zero
  root : (D ROOTINO).type = T_DIR
  root_nlink : (D ROOTINO).nlink = 1
  root_size : (D ROOTINO).size = ((contents files ROOTINO).length / BSIZE + 1) * BSIZE
  file : ∀ k < files.length, (D (k + 2)).type = T_FILE
  file_size : ∀ j, j ≠ ROOTINO → (D j).size = (contents files j).length
  marked : ∀ b < BPB, s.disk.marked sb b = decide (b < s.freeblock)
  max : ∀ j, (contents files j).length ≤ MAXFILE * BSIZE

theorem bit_bits {n : ℕ} (hn : n ≤ BPB) (b : ℕ) : bit (bits n) b = decide (b < n) := by
  induction n with
  | zero => rw [bits, bit_zeroes]; simp
  | succ n ih =>
    rw [bits, bit_setBit (by rw [BPB] at hn; omega), ih (by omega)]
    have : b < n + 1 ↔ b < n ∨ n = b := by omega
    simp only [this, Bool.decide_or]

theorem Stage.finish {s : Image} {D : ℕ → Dinode} {files : List File} (h : Stage s D files) :
    ∃ D' s', s.finish = some s' ∧ Final s' D' files := by
  have hr : ROOTINO < NI := by decide
  have hle := h.made.built.le
  have hF : FSSIZE = 1000 := rfl
  have hBPB : BPB = 4096 := rfl
  have hnm : nmeta = 59 := rfl
  have hbs : sb.bmapstart = 58 := rfl
  have hMB : MAXFILE * BSIZE = 71680 := rfl
  have hB : BSIZE = 512 := rfl
  have hsize := h.made.size ROOTINO
  have hmax := h.made.max ROOTINO
  have hfits : (roundSize (D ROOTINO)).Fits := by
    refine { h.made.fits ROOTINO with size := ?_ }
    show ((D ROOTINO).size / BSIZE + 1) * BSIZE < 2 ^ 32
    rw [hB]
    omega
  refine ⟨update D ROOTINO (roundSize (D ROOTINO)),
    Image.wsect { s with disk := s.disk.putDinode sb ROOTINO (roundSize (D ROOTINO)) } sb.bmapstart
    (bits s.freeblock),
    ?_, ?_, ?_, ?_, ?_, ?_, ?_, ?_, ?_, ?_, ?_, h.made.max⟩
  · rw [Image.finish, h.made.rinode hr, Option.bind_some, winode_eq h.made.built.size hr,
      Option.bind_some, Image.balloc, if_pos (by show s.freeblock < BSIZE * 8; omega)]
  · refine h.made.built.congr (fun b hb => ?_) rfl ?_ fun j => ?_
    · have h₁ : b ≠ sb.bmapstart := by omega
      have h₂ : b ≠ IBLOCK ROOTINO sb := by
        have := iblock_lt hr
        omega
      exact (update_of_ne h₁ ..).trans (Disk.putDinode_of_ne _ h₂)
    · show Max.max s.size (sb.bmapstart + 1) = s.size
      rw [h.made.built.size]
      omega
    · by_cases hj : j = ROOTINO
      · rw [hj, update_self]
        rfl
      · rw [update_of_ne hj]
  · intro j hj
    have hne : IBLOCK j sb ≠ sb.bmapstart := ne_of_lt (iblock_bounds hj).2
    refine (Disk.dinode_congr (update_of_ne hne ..)).trans ?_
    by_cases hjr : j = ROOTINO
    · rw [hjr, update_self]
      exact Disk.dinode_putDinode_self hfits
    · rw [update_of_ne hjr, ← h.made.table j hj]
      exact Disk.dinode_putDinode_of_ne _ hjr
  · have h₁ : (1 : ℕ) ≠ sb.bmapstart := by omega
    have h₂ : (1 : ℕ) ≠ IBLOCK ROOTINO sb := by
      have := (iblock_bounds hr).1
      omega
    have : s.disk.putDinode sb ROOTINO (roundSize (D ROOTINO)) 1 = s.disk 1 :=
      Disk.putDinode_of_ne _ h₂
    rw [wsect_disk_of_ne _ _ h₁]
    exact (congrArg Superblock.get this).trans h.made.super
  · intro j hj
    have hjr : j ≠ ROOTINO := by
      rw [show ROOTINO = 1 from rfl]
      omega
    rw [update_of_ne hjr]
    exact h.made.zero j (h.freeinode ▸ hj)
  · rw [update_self]
    exact h.root
  · rw [update_self]
    exact h.root_nlink
  · rw [update_self, ← hsize]
    rfl
  · intro k hk
    rw [update_of_ne (by rw [show ROOTINO = 1 from rfl]; omega)]
    exact h.file k hk
  · intro j hj
    rw [update_of_ne hj]
    exact h.made.size j
  · intro b hb
    have hbb : BBLOCK b sb = sb.bmapstart := by
      rw [BBLOCK, Nat.div_eq_of_lt hb, zero_add]
    rw [Disk.marked, hbb, wsect_disk_self, Nat.mod_eq_of_lt hb, bit_bits (by omega)]
    rfl

/-- `mkfs` fails exactly if a name has a `/` or the files do not fit. -/
theorem mkfs_yields {files : List File} (hn : files.length + 2 ≤ NI) :
    Yields ((∀ f ∈ files, slash ∉ f.name) ∧ Holds (contents files)) (fun s => ∃ D, Final s D files)
      (mkfs files) := by
  obtain ⟨D₀, s₀, heq₀, h₀⟩ := root_stage
  rw [mkfs, heq₀, Option.bind_some]
  refine (h₀.addFiles (by simpa using hn)).bind id fun s₁ hok ⟨D₁, h₁⟩ => ?_
  obtain ⟨D₂, s₂, heq₂, h₂⟩ := h₁.finish
  rw [heq₂]
  exact ⟨hok, D₂, h₂⟩

end Xv6.Mkfs
