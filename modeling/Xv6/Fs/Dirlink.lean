import Xv6.Fs.Cache

/-!
# Changing a locked inode, and directories as finite maps

With the lock of an inode held, `writei` and `iupdate` change the inode on the disk and its copy
together.  If the names of a directory are distinct it is a finite map from names to inodes, and
`dirlink` and clearing an entry are its updates.
-/

namespace Xv6.FS

open Fallible Overwrite LittleEndian Function State Bool Nat

variable {P : Type}

/-! ## Writing a locked inode -/

section write

variable {s : State P} {ip : Ip} {w : Dev}

theorem Coherent.write (h : Coherent s) (hl : s.locks ip) (hw : w.Sound) (hsb : w.sb = s.dev.sb)
    (hlive : ∀ j, j ≠ (s.icache ip).inum → w.live j = s.dev.live j)
    (htype : (w.live (s.icache ip).inum).type ≠ 0) :
    Becomes s.refs s (setD { s with dev := w } ip (w.live (s.icache ip).inum)) w s.refs
    s.locks := by
  obtain ⟨h₁, h₂, h₃⟩ := h.ok ip
  obtain ⟨hip, hv⟩ := h₃ hl
  show Becomes _ _ (s.put w ip { s.icache ip with d := w.live (s.icache ip).inum }) _ _ _
  refine ⟨h.put hw hsb (.inr rfl) (h.other hip) hlive ⟨fun _ => (Dev.live_eq htype).1,
    fun _ _ => ⟨rfl, htype⟩, h₃⟩ (fun _ hc => ?_) fun _ _ => hip, Kept.put hsb fun _ => ⟨rfl,
    fun hv => hv⟩, rfl, ?_, ?_⟩
  · rw [show (s.icache ip).valid = false from hc] at hv
    cases hv
  · rw [refs_put]
    exact update_eq_self ..
  · rw [locks_put]
    exact update_eq_self ..

theorem Cached.copy_of_locked (h : Cached s) (hl : s.locks ip) :
    (s.icache ip).d = s.dev.live (s.icache ip).inum ∧ (s.dev.live (s.icache ip).inum).type ≠ 0 ∧
      0 < s.refs ip := by
  obtain ⟨hip, hv⟩ := (h.ok ip).locked hl
  exact ⟨((h.ok ip).copy hip hv).1, ((h.ok ip).copy hip hv).2, hip⟩

theorem Coherent.writeInode (h : Coherent s) (hl : s.locks ip) {i off : ℕ} (src : List UInt8)
    (hi : (s.icache ip).inum = i) (hdev : (s.dev.live i).type ≠ T_DEV)
    (hoff : off ≤ (s.dev.live i).size) (hmax : off + src.length ≤ MAXFILE * BSIZE) :
    Sat (fun e _ => e = .balloc ∧
        s.dev.freeBlocks < (s.dev.live i).needs s.dev.disk (off / BSIZE) (endBlock off src.length))
      (fun r s' => r = some src.length ∧ ∃ w, Becomes s.refs s s' w s.refs s.locks ∧
        w.inode = update s.dev.inode i
          { s.dev.inode i with data := overwrite (s.dev.inode i).data off src } ∧
        w.freeBlocks + (s.dev.live i).needs s.dev.disk (off / BSIZE) (endBlock off src.length) =
        s.dev.freeBlocks)
      (writeInode ip src off s) := by
  subst hi
  obtain ⟨hd, htype, -⟩ := h.copy_of_locked hl
  have hspec := h.sound.writei_spec htype hdev hoff hmax
  unfold FS.writeInode
  rw [run_get_bind]
  rcases hrun : writei (s.icache ip).inum (s.dev.live (s.icache ip).inum) src off
    s.dev with ⟨e | ⟨r, d⟩, w⟩
  · have he := hspec.of_eq_error hrun
    rw [← hd] at hrun
    rw [withInode_error (f := fun d => writei (s.icache ip).inum d src off) hrun]
    exact he
  · obtain ⟨hr, hsound, ⟨hsb, hlive⟩, hinode, hcount, -⟩ := hspec.of_eq_ok hrun
    obtain ⟨rfl, rfl⟩ := Prod.mk.inj hr
    rw [← hd] at hrun
    rw [withInode_ok (f := fun d => writei (s.icache ip).inum d src off) hrun]
    have htype' : (w.live (s.icache ip).inum).type = (s.dev.live (s.icache ip).inum).type := by
      have := congrArg Node.type (congrFun hinode (s.icache ip).inum)
      rw [update_self] at this
      exact this
    exact ⟨rfl, w, h.write hl hsound hsb hlive (by rw [htype']; exact htype), hinode, hcount⟩

end write

/-! ## Directories -/

structure DirAt (s : State P) (dp : Ip) (i : ℕ) : Prop where
  held : 0 < s.refs dp
  inum : (s.icache dp).inum = i
  copy : (s.icache dp).d = s.dev.live i
  dir : s.dev.IsDir i

section dirs

variable {s : State P} {dp : Ip} {i : ℕ} {name : Name}

theorem DirAt.dirlookup_eq (h : DirAt s dp i) (name : Name) :
    dirlookup dp name s = (match (s.dev.inode i).find name with
      | none => pure none
      | some j => do
        let ip ← iget ((s.dev.inode i).entry j).inum
        return some (ip, j * DIRENT) : M P (Option (Ip × ℕ))) s := by
  have hloop : withInode dp (fun d => dirlookupLoop name (rounds d 0) d 0) s = _ :=
    withInode_same (by
    rw [h.copy]
    exact h.dir.lookup name)
  unfold dirlookup
  simp only [run_get_bind]
  rw [if_neg (by rw [h.copy]; exact not_not.2 h.dir.type), bind_ok hloop]
  rcases (s.dev.inode i).find name with _ | j
  · rfl
  · rfl

theorem Coherent.dirlookup (h : Coherent s) (hd : DirAt s dp i) (name : Name)
    (hnamed : ∀ j, (s.dev.inode i).find name = some j →
    (s.dev.live ((s.dev.inode i).entry j).inum).type ≠ 0) : Sat (fun e _ => e = .iget ∧
    ∀ ip, 0 < s.refs ip) (fun r s' => match (s.dev.inode i).find name with
        | none => r = none ∧ s' = s
        | some j => ∃ ip, r = some (ip, j * DIRENT) ∧
          Becomes s.refs s s' s.dev (s.refs + Pi.single ip 1) s.locks ∧
          (s'.icache ip).inum = ((s.dev.inode i).entry j).inum)
      (dirlookup dp name s) := by
  rw [hd.dirlookup_eq]
  rcases hf : (s.dev.inode i).find name with _ | j
  · exact ⟨rfl, rfl⟩
  · exact (h.iget (hnamed j hf)).bind fun ip s' hip => ⟨ip, rfl, hip.1, hip.2⟩

/-- The blocks that a new entry takes. -/
def Dev.slotNeeds (w : Dev) (i : ℕ) : ℕ :=
  (w.live i).needs w.disk ((w.inode i).freeSlot * DIRENT / BSIZE)
    (endBlock ((w.inode i).freeSlot * DIRENT) DIRENT)

/-- Without the name, `dirlink` is a write to the first free entry. -/
theorem DirAt.dirlink_eq (h : DirAt s dp i) (inum : ℕ) (hf : (s.dev.inode i).find name = none) :
    dirlink dp name inum s = (do
      let r ← writeInode dp (Dirent.bytes ⟨inum, name⟩) ((s.dev.inode i).freeSlot * DIRENT)
      if r = some DIRENT then return true else throw .dirlink : M P Bool) s := by
  have hlookup : dirlookup dp name s = (.ok none, s) := by
    rw [h.dirlookup_eq, hf]
    rfl
  have hslot : withInode dp (fun d => dirlinkLoop (rounds d 0) d 0) s = _ := withInode_same (by
    rw [h.copy]
    exact h.dir.freeSlot)
  unfold dirlink
  simp only [bind_ok hlookup]
  rw [bind_ok hslot]

theorem DirAt.freeSlot_le (h : DirAt s dp i) :
    (s.dev.inode i).freeSlot * DIRENT ≤ (s.dev.live i).size := by
  rw [h.dir.size]
  exact mul_le_mul_right _ (s.dev.inode i).freeSlot_le

theorem Coherent.dirlink_new (h : Coherent s) (hl : s.locks dp = true) (hd : DirAt s dp i)
    (inum : ℕ) (hf : (s.dev.inode i).find name = none)
    (hmax : ((s.dev.inode i).freeSlot + 1) * DIRENT ≤ MAXFILE * BSIZE) :
    Sat (fun e _ => e = .balloc ∧ s.dev.freeBlocks < s.dev.slotNeeds i) (fun r s' => r = true ∧
      ∃ w, Becomes s.refs s s' w s.refs s.locks ∧
      w.inode = update s.dev.inode i
      ((s.dev.inode i).setEntry (s.dev.inode i).freeSlot ⟨inum, name⟩) ∧
      w.freeBlocks + s.dev.slotNeeds i = s.dev.freeBlocks) (dirlink dp name inum s) := by
  have hlen : (Dirent.bytes ⟨inum, name⟩).length = DIRENT := Dirent.length_bytes _
  have hwrite := h.writeInode hl (Dirent.bytes ⟨inum, name⟩) hd.inum (by rw [hd.dir.type]; decide)
    hd.freeSlot_le
    (by rw [hlen, ← succ_mul]; exact hmax)
  rw [hlen] at hwrite
  rw [hd.dirlink_eq inum hf]
  refine hwrite.bind fun r s' hr => ?_
  obtain ⟨rfl, w, hw⟩ := hr
  rw [if_pos rfl]
  exact ⟨rfl, w, hw⟩

end dirs

/-! ## A directory is a finite map -/

section map

variable {s : State P} {dp : Ip} {i : ℕ} {name : Name}

/-- `dirlookup` returns the inode `o`, unless it needs an entry of the cache and all are in use. -/
def Gives (s : State P) (dp : Ip) (name : Name) (o : Option ℕ) : Prop :=
  Sat (fun e _ => e = .iget ∧ ∀ ip, 0 < s.refs ip)
    (fun r s' => r.map (fun q => (s'.icache q.1).inum) = o)
    (dirlookup dp name s)

theorem iget_spec (s : State P) (k : ℕ) : Sat (fun e _ => e = .iget ∧ ∀ ip, 0 < s.refs ip)
      (fun ip s' => (s'.icache ip).inum = k ∧ s'.dev = s.dev ∧
        ∀ jp, 0 < s.refs jp → 0 < s'.refs jp ∧ (s'.icache jp).inum = (s.icache jp).inum ∧
          (s'.icache jp).d = (s.icache jp).d) (iget k s) := by
  rcases iget_cases s k with ⟨ip, hip, rfl, hrun⟩ | ⟨ip, hmiss, hip, hrun⟩ | ⟨hfull, hrun⟩
  · rw [hrun]
    refine ⟨by rw [put_self], rfl, fun jp hj => ?_⟩
    rw [refs_put]
    by_cases hjp : jp = ip
    · subst hjp
      rw [put_self, update_self]
      exact ⟨succ_pos _, rfl, rfl⟩
    · rw [put_of_ne hjp, update_of_ne hjp]
      exact ⟨hj, rfl, rfl⟩
  · rw [hrun]
    refine ⟨by rw [put_self], rfl, fun jp hj => ?_⟩
    have hjp : jp ≠ ip := by
      rintro rfl
      omega
    rw [refs_put, put_of_ne hjp, update_of_ne hjp]
    exact ⟨hj, rfl, rfl⟩
  · rw [hrun]
    exact ⟨rfl, fun ip => (hfull ip).1⟩

theorem DirAt.gives (h : DirAt s dp i) (name : Name) :
    Gives s dp name ((s.dev.inode i).lookup name) := by
  unfold Gives Node.lookup
  rw [h.dirlookup_eq]
  rcases hf : (s.dev.inode i).find name with _ | j
  · rfl
  · refine (iget_spec s _).bind fun ip s' hip => ?_
    exact congrArg some hip.1

theorem DirAt.of_dirlookup (h : DirAt s dp i) {ip : Ip} {off : ℕ} {s₁ : State P}
    (hrun : dirlookup dp name s = (.ok (some (ip, off)), s₁)) :
    DirAt s₁ dp i ∧ s₁.dev = s.dev ∧ ∃ j, (s.dev.inode i).find name = some j ∧
      off = j * DIRENT := by
  rw [h.dirlookup_eq] at hrun
  rcases hf : (s.dev.inode i).find name with _ | j
  · rw [hf] at hrun
    cases hrun
  · rw [hf] at hrun
    have hspec := iget_spec s ((s.dev.inode i).entry j).inum
    rcases hget : iget ((s.dev.inode i).entry j).inum s with ⟨e | kp, s'⟩
    · simp only [bind_error hget] at hrun
      cases hrun
    · simp only [bind_ok hget] at hrun
      cases hrun
      obtain ⟨-, hdev, hkeep⟩ := hspec.of_eq_ok hget
      obtain ⟨h₁, h₂, h₃⟩ := hkeep dp h.held
      exact ⟨⟨h₁, h₂.trans h.inum, by rw [h₃, h.copy, hdev], hdev ▸ h.dir⟩, hdev, j, rfl, rfl⟩

theorem iget_iput {k : ℕ} (hlock : ∀ ip, s.locks ip → 0 < s.refs ip ∧ (s.icache ip).inum ≠ k)
    (hentry : (∃ ip, s.refs ip = 0) ∨ ∃ ip, 0 < s.refs ip ∧ (s.icache ip).inum = k) :
    ∃ ip s₁ s₂, iget k s = (.ok ip, s₁) ∧ iput ip s₁ = (.ok (), s₂) ∧ s₂.dev = s.dev ∧
      s₂.refs = s.refs := by
  have hput : ∀ ip x, x.locked = false → (x.valid = false ∨ x.ref ≠ 1) →
      iput ip (s.put s.dev ip x) = (.ok (), s.put s.dev ip { x with ref := x.ref - 1 }) := by
    intro ip x hl hx
    unfold iput
    simp only [run_get_bind, put_self]
    rw [if_neg (by rw [hl]; exact false_ne_true), if_neg]
    · show (Except.ok (), setInode (s.put s.dev ip x) ip { x with ref := x.ref - 1 }) = _
      unfold put setInode
      simp only [update_idem]
    · rintro ⟨h₁, -, h₂⟩
      rcases hx with hx | hx
      · rw [hx] at h₁
        cases h₁
      · exact hx h₂
  rcases iget_cases s k with ⟨ip, hip, hk, hrun⟩ | ⟨ip, hmiss, hip, hrun⟩ | ⟨hfull, hrun⟩
  · have hl : (s.icache ip).locked = false := by
      by_contra hc
      exact (hlock ip (eq_true_of_not_eq_false hc)).2 hk
    refine ⟨ip, _, _, hrun, hput ip _ hl (.inr ?_), rfl, ?_⟩
    · show s.refs ip + 1 ≠ 1
      omega
    · rw [refs_put]
      exact update_eq_self ..
  · have hl : (s.icache ip).locked = false := by
      by_contra hc
      have := (hlock ip (eq_true_of_not_eq_false hc)).1
      omega
    refine ⟨ip, _, _, hrun, hput ip _ hl (.inl rfl), rfl, ?_⟩
    rw [refs_put]
    exact update_eq_iff.2 ⟨hip.symm, fun _ _ => rfl⟩
  · rcases hentry with ⟨ip, hip⟩ | ⟨ip, hip, he⟩
    · have := (hfull ip).1
      omega
    · exact absurd he (hfull ip).2

theorem DirAt.writeInode (h : DirAt s dp i) {j : ℕ} (hj : j ≤ (s.dev.inode i).slots) (de : Dirent)
    (hmax : (j + 1) * DIRENT ≤ MAXFILE * BSIZE)
    (hneeds : (s.dev.live i).needs s.dev.disk (j * DIRENT / BSIZE) (endBlock (j * DIRENT) DIRENT) ≤
    s.dev.freeBlocks) : ∃ s', writeInode dp de.bytes (j * DIRENT) s = (.ok (some DIRENT), s') ∧
    DirAt s' dp i ∧ s'.dev.inode = update s.dev.inode i ((s.dev.inode i).setEntry j de) := by
  have hoff : j * DIRENT ≤ (s.dev.live i).size := by
    rw [h.dir.size]
    exact mul_le_mul_right _ hj
  have hend : j * DIRENT + de.bytes.length ≤ MAXFILE * BSIZE := by
    rw [de.length_bytes, ← succ_mul]
    exact hmax
  have hspec := h.dir.sound.writei_spec (by rw [h.dir.type]; decide) (by rw [h.dir.type]; decide)
    hoff hend
  rw [de.length_bytes] at hspec
  have hspec' : Sat (fun _ _ => False) _ _ := hspec.weaken fun e _ he => by
    have := he.2
    omega
  obtain ⟨r, w, hrun, rfl, hsound, -, hinode, -⟩ := hspec'.exists_ok
  refine ⟨setD { s with dev := w } dp (w.live i), ?_, ?_, hinode⟩
  · unfold FS.writeInode
    have hrun' : writei (s.icache dp).inum (s.icache dp).d de.bytes (j * DIRENT) s.dev =
        (.ok (some DIRENT, w.live i), w) := by
      rw [h.copy, h.inum]
      exact hrun
    rw [run_get_bind, withInode_ok hrun']
  · have hself : (w.inode i) = (s.dev.inode i).setEntry j de := by
      rw [hinode, update_self]
      rfl
    have htype : (w.live i).type = T_DIR := (congrArg Node.type hself).trans h.dir.type
    refine ⟨?_, ?_, ?_, hsound, htype, ?_⟩
    · show 0 < (s.put w dp { s.icache dp with d := w.live i }).refs dp
      rw [refs_put, update_self]
      exact h.held
    · show ((s.put w dp { s.icache dp with d := w.live i }).icache dp).inum = i
      rw [put_self]
      exact h.inum
    · show ((s.put w dp { s.icache dp with d := w.live i }).icache dp).d = w.live i
      rw [put_self]
    · show (w.inode i).Whole
      rw [hself]
      exact Node.whole_setEntry h.dir.whole hj de

/-- An entry that names a locked inode, as the directory itself: `dirlink` waits for the lock. -/
theorem DirAt.dirlink_locked (h : DirAt s dp i) (hl : s.locks ip) (hip : 0 < s.refs ip)
    (hinj : ∀ jp, 0 < s.refs jp → (s.icache jp).inum = (s.icache ip).inum → jp = ip)
    (hf : (s.dev.inode i).lookup name = some (s.icache ip).inum) (inum : ℕ) :
    ∃ s', dirlink dp name inum s = (.error .deadlock, s') := by
  obtain ⟨j, hj, he⟩ := Node.lookup_eq_some.1 hf
  rcases iget_cases s (s.icache ip).inum with ⟨jp, hjp, hk, hrun⟩ | ⟨jp, hmiss, -⟩ | ⟨hfull, -⟩
  · obtain rfl := hinj jp hjp hk
    refine ⟨s.put s.dev jp { s.icache jp with ref := s.refs jp + 1 }, ?_⟩
    have hlookup : dirlookup dp name s = (.ok (some (jp, j * DIRENT)),
        s.put s.dev jp { s.icache jp with ref := s.refs jp + 1 }) := by
      rw [h.dirlookup_eq, hj]
      simp only [he]
      exact bind_ok hrun
    unfold dirlink
    rw [bind_ok hlookup]
    refine bind_error ?_
    unfold iput
    simp only [run_get_bind, put_self]
    exact congrFun (if_pos hl) _
  · exact absurd rfl (hmiss ip hip)
  · exact absurd rfl (hfull ip).2

/-- An entry that names an inode for which the cache has no room. -/
theorem DirAt.dirlink_full (h : DirAt s dp i) {k : ℕ}
    (hfull : ∀ ip, 0 < s.refs ip ∧ (s.icache ip).inum ≠ k)
    (hf : (s.dev.inode i).lookup name = some k) (inum : ℕ) :
    ∃ s', dirlink dp name inum s = (.error .iget, s') := by
  obtain ⟨j, hj, he⟩ := Node.lookup_eq_some.1 hf
  rcases iget_cases s k with ⟨ip, -, hk, -⟩ | ⟨ip, -, hip, -⟩ | ⟨-, hrun⟩
  · exact absurd hk (hfull ip).2
  · exact absurd hip (hfull ip).1.ne'
  · refine ⟨s, ?_⟩
    have hlookup : dirlookup dp name s = (.error .iget, s) := by
      rw [h.dirlookup_eq, hj]
      simp only [he]
      exact bind_error hrun
    unfold dirlink
    exact bind_error hlookup

theorem DirAt.enough_of_dirlink (h : DirAt s dp i) {inum : ℕ} {r : Bool} {s' : State P}
    (hf : (s.dev.inode i).find name = none)
    (hmax : ((s.dev.inode i).freeSlot + 1) * DIRENT ≤ MAXFILE * BSIZE)
    (hrun : dirlink dp name inum s = (.ok r, s')) : s.dev.slotNeeds i ≤ s.dev.freeBlocks := by
  have hlen : (Dirent.bytes ⟨inum, name⟩).length = DIRENT := Dirent.length_bytes _
  have hend : (s.dev.inode i).freeSlot * DIRENT + (Dirent.bytes ⟨inum, name⟩).length ≤ MAXFILE *
    BSIZE := by
    rw [hlen, ← succ_mul]
    exact hmax
  have hspec := h.dir.sound.writei_spec (by rw [h.dir.type]; decide) (by rw [h.dir.type]; decide)
    h.freeSlot_le hend
  rw [hlen] at hspec
  rw [h.dirlink_eq inum hf] at hrun
  rcases hw : writei i (s.dev.live i) (Dirent.bytes ⟨inum, name⟩)
    ((s.dev.inode i).freeSlot * DIRENT) s.dev with ⟨e | x, w⟩
  · have hw' : writei (s.icache dp).inum (s.icache dp).d (Dirent.bytes ⟨inum, name⟩)
        ((s.dev.inode i).freeSlot * DIRENT) s.dev = (.error e, w) := by
      rw [h.copy, h.inum]
      exact hw
    have hwrite := withInode_error
      (f := fun d => writei (s.icache dp).inum d (Dirent.bytes ⟨inum, name⟩)
        ((s.dev.inode i).freeSlot * DIRENT)) hw'
    unfold FS.writeInode at hrun
    rw [bind_assoc, run_get_bind, bind_error hwrite] at hrun
    cases hrun
  · obtain ⟨-, -, -, -, hcount, -⟩ := hspec.of_eq_ok hw
    exact le.intro ((add_comm _ _).trans hcount)

/-- `dirlink` adds a name to the map, or returns -1 if it is there, exactly if the inode of the name
is not locked and has or finds an entry of the cache, or there are blocks for the new entry.
Clearing an entry removes a name. -/
theorem directory_is_map (h : DirAt s dp i) (hd : (s.dev.inode i).Distinct) {name : Name}
    (hname : (0 : UInt8) ∉ name) {inum : ℕ} (hpos : 0 < inum) (hlt : inum < 2 ^ 16)
    (hmax : (s.dev.inode i).data.length < MAXFILE * BSIZE)
    (hheld : ∀ ip, s.locks ip → 0 < s.refs ip)
    (hinj : ∀ ip jp, 0 < s.refs ip → 0 < s.refs jp → (s.icache ip).inum = (s.icache jp).inum →
    ip = jp) : (∀ name', Gives s dp name' ((s.dev.inode i).lookup name')) ∧
    ((∃ r s', dirlink dp name inum s = (.ok r, s') ∧
    (r = false ↔ (s.dev.inode i).lookup name ≠ none) ∧ (r = false → s'.dev = s.dev) ∧
    (r → (s'.dev.inode i).Distinct ∧
    (∀ name', Gives s' dp name' (if namecmp name' name then some inum else
    (s.dev.inode i).lookup name')) ∧ (s'.dev.inode i).data.length = (s.dev.inode i).data.length +
    if ∃ j < (s.dev.inode i).slots, ((s.dev.inode i).entry j).inum = 0 then 0 else DIRENT)) ↔
    (∀ k, (s.dev.inode i).lookup name = some k → (∀ ip, s.locks ip → (s.icache ip).inum ≠ k) ∧
    ((∃ ip, s.refs ip = 0) ∨ ∃ ip, 0 < s.refs ip ∧ (s.icache ip).inum = k)) ∧
    ((s.dev.inode i).lookup name = none → s.dev.slotNeeds i ≤ s.dev.freeBlocks)) ∧
    ∀ name' ip off s₁, dirlookup dp name' s = (.ok (some (ip, off)), s₁) → ∃ s₂, FS.writeInode dp
    (List.replicate DIRENT 0) off s₁ = (.ok (some DIRENT), s₂) ∧ (s₂.dev.inode i).Distinct ∧
        ∀ n, Gives s₂ dp n (if namecmp n name' then none else (s.dev.inode i).lookup n) := by
  have hD : DIRENT = 16 := rfl
  have hM : MAXFILE * BSIZE = 4480 * 16 := rfl
  have hslots : (s.dev.inode i).slots < 4480 := by
    have := h.dir.whole
    rw [Node.Whole, hD] at this
    omega
  refine ⟨h.gives, ⟨?_, ?_⟩, fun name' ip off s₁ hrun => ?_⟩
  · rintro ⟨r, s', hrun, -⟩
    refine ⟨fun k hk => ⟨fun ip hl he => ?_, ?_⟩, fun hnone => ?_⟩
    · obtain ⟨s'', hrun'⟩ :=
        h.dirlink_locked hl (hheld ip hl) (fun jp hjp hc => hinj jp ip hjp (hheld ip hl) hc)
        (by rw [he]; exact hk) inum
      rw [hrun] at hrun'
      cases hrun'
    · by_contra hc
      push Not at hc
      obtain ⟨s'', hrun'⟩ := h.dirlink_full (fun ip => ⟨pos_of_ne_zero (hc.1 ip), fun he =>
        hc.2 ip (pos_of_ne_zero (hc.1 ip)) he⟩) hk inum
      rw [hrun] at hrun'
      cases hrun'
    · refine h.enough_of_dirlink (Node.lookup_eq_none.1 hnone) ?_ hrun
      have := (s.dev.inode i).freeSlot_le
      rw [hM, hD]
      omega
  · rintro ⟨hentry, hblocks⟩
    rcases hf : (s.dev.inode i).find name with _ | j
    · have hnone := Node.lookup_eq_none.2 hf
      have hle := (s.dev.inode i).freeSlot_le
      obtain ⟨s', hrun, h', hinode⟩ :=
        h.writeInode hle ⟨inum, name⟩ (by rw [hM, hD]; omega) (hblocks hnone)
      have hself : s'.dev.inode i = _ := (congrFun hinode i).trans (update_self ..)
      obtain ⟨hd', hl⟩ := Node.lookup_link h.dir.whole hd hpos hlt hname hf hle
        (Node.entry_freeSlot h.dir.whole)
      refine ⟨true, s', ?_, ?_, fun hc => absurd hc.symm false_ne_true,
        fun _ => ⟨hself ▸ hd', fun name' => ?_, ?_⟩⟩
      · rw [h.dirlink_eq inum hf, bind_ok hrun, if_pos rfl]
        rfl
      · simp [hnone]
      · have := h'.gives name'
        rwa [hself, hl] at this
      · rw [hself, Node.length_setEntry h.dir.whole hle, h.dir.whole]
        simp only [← Node.freeSlot_lt, hD]
        split_ifs
        · omega
        · omega
    · have hsome : (s.dev.inode i).lookup name = some ((s.dev.inode i).entry j).inum :=
        Node.lookup_eq_some.2 ⟨j, hf, rfl⟩
      obtain ⟨hlock, hroom⟩ := hentry _ hsome
      obtain ⟨ip, s₁, s₂, hget, hput, hdev, -⟩ :=
        iget_iput (s := s) (k := ((s.dev.inode i).entry j).inum)
        (fun ip hl => ⟨hheld ip hl, hlock ip hl⟩) hroom
      have hlookup : dirlookup dp name s = (.ok (some (ip, j * DIRENT)), s₁) := by
        rw [h.dirlookup_eq, hf]
        exact bind_ok hget
      refine ⟨false, s₂, ?_, by simp [hsome], fun _ => hdev, fun hc => absurd hc false_ne_true⟩
      unfold dirlink
      rw [bind_ok hlookup]
      exact bind_ok hput
  · obtain ⟨h₁, hdev, j, hf, rfl⟩ := h.of_dirlookup hrun
    obtain ⟨hj, -⟩ := Node.find_some hf
    have hzero : Dirent.bytes ⟨0, []⟩ = List.replicate DIRENT 0 := by decide
    obtain ⟨s₂, hwrite, h₂, hinode⟩ := h₁.writeInode (j := j) (by rw [hdev]; exact hj.le) ⟨0, []⟩
      (by rw [hM, hD]; omega) (by
        rw [hdev, h.dir.sound.needs_inside (by rw [h.dir.type]; decide)]
        · exact zero_le _
        · rw [← succ_mul, h.dir.size]
          exact mul_le_mul_right _ hj)
    rw [hdev] at hinode
    have hself : s₂.dev.inode i = _ := (congrFun hinode i).trans (update_self ..)
    obtain ⟨hd', hl⟩ := Node.lookup_clear h.dir.whole hd hf
    refine ⟨s₂, hzero ▸ hwrite, hself ▸ hd', fun n => ?_⟩
    have := h₂.gives n
    rwa [hself, hl] at this

end map

/-! ### An empty directory -/

def ip₀ : Ip := ⟨0, NINODE_pos⟩

/-- The inode `i` is cached, with one reference, and nothing else. -/
def oneEntry (w : Dev) (i : ℕ) (locked : Bool) : State P where
  dev := w
  outstanding := 0
  icache ip := if ip = ip₀ then ⟨i, 1, true, locked, w.live i⟩ else
    ⟨0, 0, false, false, Dinode.zero⟩
  ftable _ := ⟨.none, 0, false, false, 0, ip₀, 0⟩
  pipes _ := none
  ofile _ _ := none
  cwd _ := none

section oneEntry

variable {w : Dev} {i : ℕ} {locked : Bool}

theorem oneEntry_refs (ip : Ip) : (oneEntry w i locked : State P).refs ip = if ip = ip₀ then 1 else
    0 := by
  show Inode.ref (if ip = ip₀ then _ else _) = _
  split_ifs
  · rfl
  · rfl

theorem oneEntry_coherent (hw : w.Sound) (hi : (w.live i).type ≠ 0)
    (hlink : ∀ j, j ≠ i → (w.live j).type ≠ 0 → (w.live j).nlink ≠ 0) :
    Coherent (oneEntry w i locked : State P) := by
  have hheld : ∀ ip, 0 < (oneEntry w i locked : State P).refs ip → ip = ip₀ := by
    intro ip hip
    rw [oneEntry_refs] at hip
    by_contra hc
    rw [if_neg hc] at hip
    omega
  refine ⟨⟨hw, fun ip => ?_, fun ip jp hip hjp _ => (hheld ip hip).trans (hheld jp hjp).symm⟩,
    fun ip hip hv => ?_, fun j hj hn => ?_⟩
  · by_cases hip : ip = ip₀
    · subst hip
      have hx : (oneEntry w i locked : State P).icache ip₀ = ⟨i, 1, true, locked, w.live i⟩ := rfl
      rw [hx]
      exact ⟨fun _ => (Dev.live_eq hi).1, fun _ _ => ⟨rfl, hi⟩, fun _ => ⟨one_pos, rfl⟩⟩
    · have hx : (oneEntry w i locked : State P).icache ip = ⟨0, 0, false, false, Dinode.zero⟩ :=
        if_neg hip
      rw [hx]
      exact ⟨fun hc => absurd hc (lt_irrefl 0), fun hc => absurd hc (lt_irrefl 0),
        fun hc => absurd hc false_ne_true⟩
  · obtain rfl := hheld ip hip
    cases hv
  · by_cases hji : j = i
    · subst hji
      exact ⟨ip₀, one_pos, rfl⟩
    · exact absurd hn (hlink j hji hj)

end oneEntry

/-- A file system with an empty directory, the inode 1. -/
def emptyDir (n : ℕ) : Dev := (emptyFile n metadataBits).iupdate 1 { Dinode.zero with type := T_DIR, nlink := 1 }

def lockedDir (n : ℕ) : State P := oneEntry (emptyDir n) 1 true

section emptyDir

variable {n : ℕ}

theorem emptyFile_live_of_ne {bits : Block} {i : ℕ} (hi : i ≠ 1) :
    (emptyFile n bits).live i = Dinode.zero := by
  have hall : ∀ i : Fin 8, i ≠ 1 →
      (Dinode.get (Dinode.put zeroes 1 { Dinode.zero with type := T_FILE, nlink := 1 }) i).type =
      0 := by
    decide +kernel
  refine if_neg ?_
  rintro ⟨h₁, h₂⟩
  have hd : (emptyFile n bits).dinode i = _ := emptyFile_dinode ⟨i, h₁⟩
  refine h₂ ?_
  rw [hd]
  exact hall ⟨i, h₁⟩ fun hc => hi (congrArg Fin.val hc)

theorem emptyDir_sound (hn : n < 59) : (emptyDir n).Sound ∧
    (emptyDir n).live = update (fun _ => Dinode.zero) 1 { Dinode.zero with type := T_DIR, nlink := 1 } ∧
    (emptyDir n).inode 1 = ⟨T_DIR, 0, 0, 1, []⟩ := by
  have hempty : ((emptyFile n metadataBits).live 1).addrs = Dinode.zero.addrs ∧
      ((emptyFile n metadataBits).live 1).size = 0 := emptyFile_live 1
  obtain ⟨h₁, h₂⟩ := hempty
  have hfits : Dinode.Fits { Dinode.zero with type := T_DIR, nlink := 1 } :=
    ⟨by decide, by decide, by decide, by decide, by decide, fun _ => Nat.two_pow_pos 32⟩
  obtain ⟨h₃, h₄, h₅, -⟩ := (emptyFile_sound hn).iupdate_spec (i := 1) (show 1 < 8 by decide) hfits (by decide)
    h₁.symm h₂.symm fun hc => absurd (emptyFile_type.symm.trans hc) (by decide)
  refine ⟨h₃, h₄.trans (funext fun i => ?_), ?_⟩
  · by_cases hi : i = 1
    · subst hi
      rw [update_self, update_self]
    · rw [update_of_ne hi, update_of_ne hi, emptyFile_live_of_ne hi]
  · rw [emptyDir, h₅, update_self, emptyFile_data]
    rfl

theorem lockedDir_dirAt (hn : n < 59) : DirAt (lockedDir n : State P) ip₀ 1 := by
  obtain ⟨h₁, -, h₃⟩ := emptyDir_sound hn
  refine ⟨one_pos, rfl, rfl, h₁, congrArg Node.type h₃, ?_⟩
  show ((emptyDir n).inode 1).Whole
  rw [h₃]
  decide

theorem lockedDir_coherent (hn : n < 59) : Coherent (lockedDir n : State P) := by
  obtain ⟨h₁, h₂, h₃⟩ := emptyDir_sound hn
  refine oneEntry_coherent h₁ ?_ fun j hj ht => ?_
  · rw [h₂, update_self]
    decide
  · rw [h₂, update_of_ne hj] at ht
    exact absurd rfl ht

end emptyDir

theorem slotNeeds_le (w : Dev) (i : ℕ) : w.slotNeeds i ≤ 2 := by
  have hB : BSIZE = 512 := rfl
  have hD : DIRENT = 16 := rfl
  have hone : endBlock ((w.inode i).freeSlot * DIRENT) DIRENT ≤ (w.inode i).freeSlot * DIRENT /
    BSIZE + 1 := by
    rw [endBlock, hB, hD]
    split_ifs <;> omega
  have hcard := Finset.card_filter_le (Finset.Ico ((w.inode i).freeSlot * DIRENT / BSIZE)
    (endBlock ((w.inode i).freeSlot * DIRENT) DIRENT)) fun k => (w.live i).block w.disk k = 0
  rw [card_Ico] at hcard
  rw [Dev.slotNeeds, Dinode.needs]
  split_ifs <;> omega

theorem exists_linked (name : Name) (inum : ℕ) : ∃ s : State Unit, dirlink ip₀ name inum (lockedDir 40) = (.ok true, s) ∧
    Coherent s ∧ DirAt s ip₀ 1 ∧ s.dev.inode 1 = ⟨T_DIR, 0, 0, 1, Dirent.bytes ⟨inum, name⟩⟩ ∧
    s.refs = (lockedDir 40 : State Unit).refs ∧ s.locks = (lockedDir 40 : State Unit).locks ∧ 2 ≤ s.dev.freeBlocks := by
  have hd := lockedDir_dirAt (P := Unit) (n := 40) (by decide)
  have hnode : (lockedDir 40 : State Unit).dev.inode 1 = ⟨T_DIR, 0, 0, 1, []⟩ := (emptyDir_sound (by decide)).2.2
  have hblocks : (lockedDir 40 : State Unit).dev.slotNeeds 1 + 2 ≤ (lockedDir 40 : State Unit).dev.freeBlocks := by
    decide +kernel
  have hspec : Sat (fun _ _ => False) _ (dirlink ip₀ name inum (lockedDir 40 : State Unit)) :=
    ((lockedDir_coherent (by decide)).dirlink_new rfl hd inum (by rw [hnode]; rfl) (by rw [hnode]; decide)).weaken
      fun e _ he => by
        have := he.2
        omega
  obtain ⟨r, s, hrun, rfl, w, hb, hinode, hcount⟩ := hspec.exists_ok
  have hself : s.dev.inode 1 = ⟨T_DIR, 0, 0, 1, Dirent.bytes ⟨inum, name⟩⟩ := by
    rw [hb.dev, hinode, update_self, hnode]
    exact congrArg (Node.mk _ _ _ _) (List.append_nil _)
  have hl : s.locks ip₀ = true := by rw [hb.locks]; rfl
  have hinum : (s.icache ip₀).inum = 1 := hb.kept.inum ip₀ one_pos
  obtain ⟨hcopy, -, hheld⟩ := hb.coherent.copy_of_locked hl
  rw [hinum] at hcopy
  have hwhole : (s.dev.inode 1).Whole := by
    rw [hself]
    exact (Dirent.length_bytes _).trans (by rw [Node.slots, Dirent.length_bytes]; rfl)
  exact ⟨s, hrun, hb.coherent, ⟨hheld, hinum, hcopy, hb.coherent.sound, congrArg Node.type hself, hwhole⟩, hself, hb.refs,
    hb.locks, by rw [hb.dev]; omega⟩

/-- With the name `a` in the directory: `a` again, and `b`. -/
theorem directory_is_map_two : ∃ s s₁ s₂ :
    State Unit, dirlink ip₀ [97] 2 (lockedDir 40) = (.ok true, s) ∧
      dirlink ip₀ [97] 3 s = (.ok false, s₁) ∧ s₁.dev = s.dev ∧
      dirlink ip₀ [98] 3 s = (.ok true, s₂) ∧ Gives s₂ ip₀ [97] (some 2) ∧
      Gives s₂ ip₀ [98] (some 3) ∧ (s₂.dev.inode 1).data.length = 32 := by
  obtain ⟨s, hlink, hcoh, hd, hself, hrefs, hlocks, hblocks⟩ := exists_linked [97] 2
  have hheld : ∀ ip, s.locks ip → 0 < s.refs ip := fun ip hl => (hcoh.copy_of_locked hl).2.2
  have hlock : ∀ ip, s.locks ip → (s.icache ip).inum ≠ 2 := fun ip hl => by
    have hip := hheld ip hl
    rw [hrefs, lockedDir, oneEntry_refs] at hip
    split_ifs at hip with h₀
    · rw [h₀, hd.inum]
      decide
    · exact absurd hip (lt_irrefl 0)
  have hfree : ∃ ip, s.refs ip = 0 := ⟨⟨1, by decide⟩, by rw [hrefs]; rfl⟩
  have hdist : (s.dev.inode 1).Distinct := by rw [hself]; decide
  have hmax : (s.dev.inode 1).data.length < MAXFILE * BSIZE := by rw [hself]; decide
  have ha : (s.dev.inode 1).lookup [97] = some 2 := by rw [hself]; decide
  have hb : (s.dev.inode 1).lookup [98] = none := by rw [hself]; decide
  have hpos : 0 < 3 ∧ 3 < 2 ^ 16 := by decide
  obtain ⟨-, hold, -⟩ := directory_is_map hd hdist (show (0 : UInt8) ∉ [97] by decide) hpos.1 hpos.2
    hmax hheld hcoh.inj
  obtain ⟨-, hnew, -⟩ := directory_is_map hd hdist (show (0 : UInt8) ∉ [98] by decide) hpos.1 hpos.2
    hmax hheld hcoh.inj
  obtain ⟨r₁, s₁, hrun₁, hr₁, hdev₁, -⟩ := hold.2 ⟨fun k hk => by
    obtain rfl : 2 = k := Option.some.inj (ha.symm.trans hk)
    exact ⟨hlock, .inl hfree⟩, fun hnone => absurd (ha.symm.trans hnone) nofun⟩
  obtain ⟨r₂, s₂, hrun₂, hr₂, -, hmap⟩ := hnew.2
    ⟨fun k hk => absurd (hb.symm.trans hk) nofun, fun _ => (slotNeeds_le _ 1).trans hblocks⟩
  obtain rfl : r₁ = false := hr₁.2 (by rw [ha]; exact nofun)
  obtain rfl : r₂ := eq_true_of_not_eq_false fun hc => hr₂.1 hc hb
  obtain ⟨-, hgives, hlen⟩ := hmap rfl
  refine ⟨s, s₁, s₂, hlink, hrun₁, hdev₁ rfl, hrun₂, ?_, hgives [98], ?_⟩
  · have := hgives [97]
    rwa [if_neg (by decide), ha] at this
  · rw [hlen, hself]
    decide

/-- `dirlink` of the name `.`, which names the directory. -/
theorem dirlink_dot_deadlock : ∃ s : State Unit, Coherent s ∧ DirAt s ip₀ 1 ∧
    (s.dev.inode 1).Distinct ∧ (s.dev.inode 1).data.length < MAXFILE * BSIZE ∧
      (∃ ip, s.refs ip = 0) ∧ (s.dev.inode 1).lookup dot = some 1 ∧
      ∃ s', dirlink ip₀ dot 2 s = (.error .deadlock, s') := by
  obtain ⟨s, -, hcoh, hd, hself, hrefs, hlocks, -⟩ := exists_linked dot 1
  have hl : s.locks ip₀ := by rw [hlocks]; rfl
  have hlookup : (s.dev.inode 1).lookup dot = some 1 := by
    rw [hself]
    decide
  refine ⟨s, hcoh, hd, by rw [hself]; decide, by rw [hself]; decide,
    ⟨⟨1, by decide⟩, by rw [hrefs]; rfl⟩, hlookup,
    hd.dirlink_locked hl hd.held (fun ip hip he => hcoh.inj ip ip₀ hip hd.held he)
    (by rw [hd.inum]; exact hlookup) 2⟩

end Xv6.FS
