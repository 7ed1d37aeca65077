import Xv6.Fs.Freeing
import Xv6.Fs.Directory
import Mathlib.Algebra.Group.Pi.Basic

/-!
# The inode cache

`Cached s`: an entry that is in use is the only one for its inode, and once it is read it is the
inode on the disk.  `Coherent s` says more: an inode without names is in use, and its entry is read.

The functions of the inode layer keep a cache coherent.  `Becomes b s s' w r l` says what they do:
the disk is `w`, the references are `r` and the locks `l`; the entries that `b` counts references to
are still those inodes; and nothing else of the state changes.
-/

namespace Xv6.FS

open Fallible Function State Nat

variable {P : Type}

def State.refs (s : State P) : Ip → ℕ := fun ip => (s.icache ip).ref

def State.locks (s : State P) : Ip → Bool := fun ip => (s.icache ip).locked

def State.put (s : State P) (w : Dev) (ip : Ip) (x : Inode) :
    State P := setInode { s with dev := w } ip x

/-- An entry in use is an inode of the disk, and a copy of it if it is valid; only such an entry is
locked. -/
structure Inode.Ok (w : Dev) (x : Inode) : Prop where
  inum : 0 < x.ref → x.inum < w.sb.ninodes
  copy : 0 < x.ref → x.valid → x.d = w.live x.inum ∧ (w.live x.inum).type ≠ 0
  locked : x.locked → 0 < x.ref ∧ x.valid

structure Cached (s : State P) : Prop where
  sound : s.dev.Sound
  ok : ∀ ip, (s.icache ip).Ok s.dev
  inj : ∀ ip jp, 0 < s.refs ip → 0 < s.refs jp → (s.icache ip).inum = (s.icache jp).inum → ip = jp

/-- There are references to every inode without names. -/
def Holds (b : Ip → ℕ) (s : State P) : Prop :=
  ∀ i, (s.dev.live i).type ≠ 0 → (s.dev.live i).nlink = 0 → ∃ ip, 0 < b ip ∧ (s.icache ip).inum = i

structure Coherent (s : State P) : Prop extends Cached s where
  fresh : ∀ ip, 0 < s.refs ip → (s.icache ip).valid = false →
    (s.dev.live (s.icache ip).inum).nlink ≠ 0
  held : Holds s.refs s

/-- The entries that `b` counts are still the same inodes, and the rest of the state is the same. -/
structure Kept (b : Ip → ℕ) (s s' : State P) : Prop where
  rest : s' = { s with dev := s'.dev, icache := s'.icache }
  sb : s'.dev.sb = s.dev.sb
  inum : ∀ ip, 0 < b ip → (s'.icache ip).inum = (s.icache ip).inum
  valid : ∀ ip, 0 < b ip → (s.icache ip).valid → (s'.icache ip).valid

structure Becomes (b : Ip → ℕ) (s s' : State P) (w : Dev) (r : Ip → ℕ) (l : Ip → Bool) : Prop where
  coherent : Coherent s'
  kept : Kept b s s'
  dev : s'.dev = w
  refs : s'.refs = r
  locks : s'.locks = l

section basic

variable {s s' s'' : State P} {b b' : Ip → ℕ} {ip : Ip} {x : Inode} {w : Dev}

theorem Kept.refl (b : Ip → ℕ) (s : State P) : Kept b s s :=
  ⟨rfl, rfl, fun _ _ => rfl, fun _ _ h => h⟩

theorem Kept.trans (h : Kept b s s') (h' : Kept b s' s'') : Kept b s s'' where
  rest := by
    have := h'.rest
    rw [h.rest] at this
    exact this
  sb := h'.sb.trans h.sb
  inum ip hip := (h'.inum ip hip).trans (h.inum ip hip)
  valid ip hip hv := h'.valid ip hip (h.valid ip hip hv)

theorem Kept.mono (h : Kept b s s') (hb : ∀ ip, b' ip ≤ b ip) : Kept b' s s' :=
  ⟨h.rest, h.sb, fun ip hip => h.inum ip (hip.trans_le (hb ip)),
    fun ip hip => h.valid ip (hip.trans_le (hb ip))⟩

theorem refs_put : (s.put w ip x).refs = update s.refs ip x.ref := by
  funext jp
  by_cases hj : jp = ip
  · subst hj
    simp [refs, put, setInode]
  · simp [refs, put, setInode, hj]

theorem locks_put : (s.put w ip x).locks = update s.locks ip x.locked := by
  funext jp
  by_cases hj : jp = ip
  · subst hj
    simp [locks, put, setInode]
  · simp [locks, put, setInode, hj]

theorem put_self : (s.put w ip x).icache ip = x := update_self ..

theorem put_of_ne {jp : Ip} (h : jp ≠ ip) : (s.put w ip x).icache jp = s.icache jp :=
  update_of_ne h ..

theorem Cached.put (h : Cached s) (hw : w.Sound) (hsb : w.sb = s.dev.sb)
    (hother : ∀ jp, jp ≠ ip → 0 < s.refs jp → (s.icache jp).inum ≠ x.inum)
    (hlive : ∀ j, j ≠ x.inum → w.live j = s.dev.live j) (hok : x.Ok w) : Cached (s.put w ip x) where
  sound := hw
  ok jp := by
    by_cases hj : jp = ip
    · subst hj
      rw [put_self]
      exact hok
    · rw [put_of_ne hj]
      obtain ⟨h₁, h₂, h₃⟩ := h.ok jp
      refine ⟨fun hr => (congrArg Superblock.ninodes hsb).symm ▸ h₁ hr, fun hr hv => ?_, h₃⟩
      have hsame : (s.put w ip x).dev.live (s.icache jp).inum = s.dev.live (s.icache jp).inum :=
        hlive _ (hother jp hj hr)
      rw [hsame]
      exact h₂ hr hv
  inj jp kp hj hk he := by
    rw [refs_put] at hj hk
    by_cases hjp : jp = ip
    · by_cases hkp : kp = ip
      · exact hjp.trans hkp.symm
      · subst hjp
        rw [put_self, put_of_ne hkp] at he
        rw [update_of_ne hkp] at hk
        exact absurd he.symm (hother kp hkp hk)
    · rw [update_of_ne hjp] at hj
      rw [put_of_ne hjp] at he
      by_cases hkp : kp = ip
      · subst hkp
        rw [put_self] at he
        exact absurd he (hother jp hjp hj)
      · rw [put_of_ne hkp] at he
        rw [update_of_ne hkp] at hk
        exact h.inj jp kp hj hk he

theorem Coherent.put (h : Coherent s) (hw : w.Sound) (hsb : w.sb = s.dev.sb)
    (hold : s.refs ip = 0 ∨ (s.icache ip).inum = x.inum)
    (hother : ∀ jp, jp ≠ ip → 0 < s.refs jp → (s.icache jp).inum ≠ x.inum)
    (hlive : ∀ j, j ≠ x.inum → w.live j = s.dev.live j) (hok : x.Ok w)
    (hfresh : 0 < x.ref → x.valid = false → (w.live x.inum).nlink ≠ 0)
    (hheld : (w.live x.inum).type ≠ 0 → (w.live x.inum).nlink = 0 → 0 < x.ref) :
    Coherent (s.put w ip x) where
  toCached := h.toCached.put hw hsb hother hlive hok
  fresh jp hj hv := by
    rw [refs_put] at hj
    by_cases hjp : jp = ip
    · subst hjp
      rw [put_self] at hv ⊢
      rw [update_self] at hj
      exact hfresh hj hv
    · rw [put_of_ne hjp] at hv ⊢
      rw [update_of_ne hjp] at hj
      have hsame : (s.put w ip x).dev.live (s.icache jp).inum = s.dev.live (s.icache jp).inum :=
        hlive _ (hother jp hjp hj)
      rw [hsame]
      exact h.fresh jp hj hv
  held i hi hn := by
    by_cases hix : i = x.inum
    · subst hix
      refine ⟨ip, ?_, by rw [put_self]⟩
      rw [refs_put, update_self]
      exact hheld hi hn
    · have hsame : (s.put w ip x).dev.live i = s.dev.live i := hlive i hix
      rw [hsame] at hi hn
      obtain ⟨jp, hj, rfl⟩ := h.held i hi hn
      have hjp : jp ≠ ip := by
        rintro rfl
        rcases hold with h₀ | h₀
        · omega
        · exact hix h₀
      refine ⟨jp, ?_, by rw [put_of_ne hjp]⟩
      rwa [refs_put, update_of_ne hjp]

theorem Cached.other (h : Cached s) (hip : 0 < s.refs ip) (jp : Ip) (hjp : jp ≠ ip)
    (hj : 0 < s.refs jp) : (s.icache jp).inum ≠ (s.icache ip).inum :=
  fun he => hjp (h.inj jp ip hj hip he)

theorem Kept.put (hsb : w.sb = s.dev.sb) (hx : 0 < b ip → x.inum = (s.icache ip).inum ∧
    ((s.icache ip).valid → x.valid)) : Kept b s (s.put w ip x) where
  rest := rfl
  sb := hsb
  inum jp hj := by
    by_cases hjp : jp = ip
    · subst hjp
      rw [put_self]
      exact (hx hj).1
    · rw [put_of_ne hjp]
  valid jp hj hv := by
    by_cases hjp : jp = ip
    · subst hjp
      rw [put_self]
      exact (hx hj).2 hv
    · rwa [put_of_ne hjp]

theorem Kept.holds (h : Kept b s s') (hb : Holds b s) (hdev : s'.dev = s.dev) : Holds b s' := by
  intro i hi hn
  rw [hdev] at hi hn
  obtain ⟨ip, hip, rfl⟩ := hb i hi hn
  exact ⟨ip, hip, h.inum ip hip⟩

theorem Becomes.trans {r r' : Ip → ℕ} {l l' : Ip → Bool} {w' : Dev} (h : Becomes b s s' w r l)
    (h' : Becomes b s' s'' w' r' l') : Becomes b s s'' w' r' l' :=
  ⟨h'.coherent, h.kept.trans h'.kept, h'.dev, h'.refs, h'.locks⟩

theorem Becomes.mono {r : Ip → ℕ} {l : Ip → Bool} (h : Becomes b s s' w r l)
    (hb : ∀ ip, b' ip ≤ b ip) : Becomes b' s s' w r l :=
  ⟨h.coherent, h.kept.mono hb, h.dev, h.refs, h.locks⟩

end basic

/-! ## References -/

section refs

variable {s : State P} {b : Ip → ℕ} {ip : Ip} {i : ℕ}

theorem iget_cases (s : State P) (i : ℕ) : (∃ ip, 0 < s.refs ip ∧ (s.icache ip).inum = i ∧
      iget i s = (.ok ip, s.put s.dev ip { s.icache ip with ref := s.refs ip + 1 })) ∨
    (∃ ip, (∀ jp, 0 < s.refs jp → (s.icache jp).inum ≠ i) ∧ s.refs ip = 0 ∧
      iget i s = (.ok ip, s.put s.dev ip { s.icache ip with inum := i, ref := 1, valid :=
        false })) ∨
    (∀ ip, 0 < s.refs ip ∧ (s.icache ip).inum ≠ i) ∧ iget i s = (.error .iget, s) := by
  unfold iget
  rcases hf : s.find i with _ | ip
  · have hmiss : ∀ jp, 0 < s.refs jp → (s.icache jp).inum ≠ i := by
      intro jp hj he
      have := List.find?_eq_none.1 hf jp (List.mem_finRange jp)
      exact this (decide_eq_true ⟨hj, he⟩)
    rcases he : s.empty with _ | ip
    · have hpos : ∀ ip, 0 < s.refs ip := fun ip => pos_of_ne_zero fun h0 =>
        List.find?_eq_none.1 he ip (List.mem_finRange ip) (decide_eq_true h0)
      exact .inr (.inr ⟨fun ip => ⟨hpos ip, hmiss ip (hpos ip)⟩, rfl⟩)
    · have := List.find?_some (p := fun ip => decide ((s.icache ip).ref = 0)) he
      exact .inr (.inl ⟨ip, hmiss, of_decide_eq_true this, rfl⟩)
  · have := List.find?_some (p := fun ip => decide (0 < (s.icache ip).ref ∧ (s.icache ip).inum = i))
      hf
    exact .inl ⟨ip, (of_decide_eq_true this).1, (of_decide_eq_true this).2, rfl⟩

theorem refs_add_one (s : State P) (ip : Ip) :
    update s.refs ip (s.refs ip + 1) = s.refs + Pi.single ip 1 := by
  funext jp
  by_cases hj : jp = ip
  · subst hj
    simp
  · simp [hj]

theorem Coherent.addRef (h : Coherent s) (hip : 0 < s.refs ip) :
    Becomes s.refs s (s.put s.dev ip { s.icache ip with ref := s.refs ip + 1 }) s.dev
    (s.refs + Pi.single ip 1)
      s.locks where
  coherent := by
    obtain ⟨h₁, h₂, h₃⟩ := h.ok ip
    exact h.put h.sound rfl (.inr rfl) (h.other hip) (fun _ _ => rfl)
      ⟨fun _ => h₁ hip, fun _ => h₂ hip, fun hl => ⟨succ_pos _, (h₃ hl).2⟩⟩
      (fun _ => h.fresh ip hip)
      fun _ _ => succ_pos _
  kept := Kept.put rfl fun _ => ⟨rfl, fun hv => hv⟩
  dev := rfl
  refs := by rw [refs_put, refs_add_one]
  locks := by
    rw [locks_put]
    exact update_eq_self ..

theorem Coherent.iget (h : Coherent s) (hi : (s.dev.live i).type ≠ 0) :
    Sat (fun e _ => e = .iget ∧ ∀ ip, 0 < s.refs ip)
      (fun ip s' => Becomes s.refs s s' s.dev (s.refs + Pi.single ip 1) s.locks ∧
      (s'.icache ip).inum = i) (iget i s) := by
  rcases iget_cases s i with ⟨ip, hip, rfl, hrun⟩ | ⟨ip, hmiss, hip, hrun⟩ | ⟨hfull, hrun⟩
  · rw [hrun]
    exact ⟨h.addRef hip, by rw [put_self]⟩
  · rw [hrun]
    -- the entry is not read yet, so the inode must have a name: otherwise it would have an entry
    have hlink : (s.dev.live i).nlink ≠ 0 := by
      intro hc
      obtain ⟨jp, hj, he⟩ := h.held i hi hc
      exact hmiss jp hj he
    have hunlocked : (s.icache ip).locked = false := by
      by_contra hc
      have := ((h.ok ip).locked (by simpa using hc)).1
      have h0 : (s.icache ip).ref = 0 := hip
      omega
    refine ⟨⟨h.put h.sound rfl (.inl hip) (fun jp _ hj => hmiss jp hj) (fun _ _ => rfl) ⟨?_, ?_, ?_⟩
      (fun _ _ => hlink) fun _ _ => one_pos, Kept.put rfl fun hc => ?_, rfl, ?_,
      ?_⟩, by rw [put_self]⟩
    · exact fun _ => (Dev.live_eq hi).1
    · exact fun _ hv => absurd hv Bool.false_ne_true
    · intro hl
      rw [show (s.icache ip).locked = true from hl] at hunlocked
      cases hunlocked
    · omega
    · rw [refs_put, ← refs_add_one, hip]
    · rw [locks_put]
      exact update_eq_self ..
  · rw [hrun]
    exact ⟨rfl, fun ip => (hfull ip).1⟩

theorem Coherent.idup (h : Coherent s) (hip : 0 < s.refs ip) :
    ∃ s', idup ip s = (.ok ip, s') ∧ Becomes s.refs s s' s.dev (s.refs + Pi.single ip 1) s.locks :=
  ⟨_, rfl, h.addRef hip⟩

end refs

/-! ## Locks -/

section locks

variable {s : State P} {b : Ip → ℕ} {ip : Ip}

theorem Dev.type_of_nlink {w : Dev} {i : ℕ} (h : (w.live i).nlink ≠ 0) : (w.live i).type ≠ 0 := by
  unfold Dev.live at h ⊢
  split_ifs at h ⊢ with hi
  · exact hi.2
  · exact absurd rfl h

section

variable (h : Coherent s)

include h

theorem Coherent.type_ne_zero (hip : 0 < s.refs ip) : (s.dev.live (s.icache ip).inum).type ≠ 0 := by
  rcases hv : (s.icache ip).valid with _ | _
  · exact Dev.type_of_nlink (h.fresh ip hip hv)
  · exact ((h.ok ip).copy hip hv).2

theorem Coherent.ilock (hip : 0 < s.refs ip) (hl : s.locks ip = false) :
    ∃ s', ilock ip s = (.ok (), s') ∧ Becomes s.refs s s' s.dev s.refs (update s.locks ip true) ∧
      (s'.icache ip).d = s.dev.live (s.icache ip).inum := by
  obtain ⟨h₁, h₂, h₃⟩ := h.ok ip
  have htype := h.type_ne_zero hip
  obtain ⟨hlt, hlive⟩ := Dev.live_eq htype
  have hrun : FS.ilock ip s =
      (.ok (), s.put s.dev ip { s.icache ip with locked := true, valid := true, d := s.dev.live (s.icache ip).inum }) := by
    have hge : ¬ (s.icache ip).ref < 1 := not_lt.2 hip
    have hl' : (s.icache ip).locked = false := hl
    unfold FS.ilock
    rcases hv : (s.icache ip).valid with _ | _
    · rw [hlive] at htype ⊢
      simp only [hge, if_false, hl', Bool.false_eq_true, hv]
      exact if_neg htype
    · rw [← (h₂ hip hv).1]
      simp only [hge, if_false, hl', Bool.false_eq_true, hv, if_true]
      rfl
  refine ⟨_, hrun, ⟨h.put h.sound rfl (.inr rfl) (h.other hip) (fun _ _ => rfl)
    ⟨fun _ => h₁ hip, fun _ _ => ⟨rfl, htype⟩, fun _ => ⟨hip, rfl⟩⟩ (fun _ hv => absurd hv.symm Bool.false_ne_true)
    fun _ _ => hip, Kept.put rfl fun _ => ⟨rfl, fun _ => rfl⟩, rfl, ?_, by rw [locks_put]⟩, by rw [put_self]⟩
  rw [refs_put]
  exact update_eq_self ..

theorem Coherent.iunlock (hl : s.locks ip) :
    ∃ s', iunlock ip s = (.ok (), s') ∧
      Becomes s.refs s s' s.dev s.refs (update s.locks ip false) := by
  obtain ⟨h₁, h₂, h₃⟩ := h.ok ip
  obtain ⟨hip, hv⟩ := h₃ hl
  have hrun : FS.iunlock ip s = (.ok (), s.put s.dev ip { s.icache ip with locked := false }) := by
    have hl' : (s.icache ip).locked := hl
    have hcond : ¬ ((s.icache ip).locked = false ∨ (s.icache ip).ref < 1) := by
      rw [hl']
      simp only [Bool.true_eq_false, false_or]
      omega
    exact if_neg hcond
  refine ⟨_, hrun, h.put h.sound rfl (.inr rfl) (h.other hip) (fun _ _ => rfl)
    ⟨fun _ => h₁ hip, fun _ => h₂ hip, fun hc => absurd hc Bool.false_ne_true⟩
    (fun _ => h.fresh ip hip) fun _ _ => hip, Kept.put rfl fun _ => ⟨rfl, fun hv => hv⟩, rfl,
    ?_, by rw [locks_put]⟩
  rw [refs_put]
  exact update_eq_self ..

theorem Coherent.iput (hb : s.refs = b + Pi.single ip 1) (hl : s.locks ip = false) :
    ∃ s' w, iput ip s = (.ok (), s') ∧ Becomes b s s' w b s.locks ∧
      (((s.dev.live (s.icache ip).inum).nlink ≠ 0 ∨ 0 < b ip) ∧ w = s.dev ∨
        (s.dev.live (s.icache ip).inum).nlink = 0 ∧ b ip = 0 ∧ w.Sound ∧
          w.live = update s.dev.live (s.icache ip).inum Dinode.zero ∧
          w.inode = update s.dev.inode (s.icache ip).inum Node.free ∧
      s.dev.freeBlocks ≤ w.freeBlocks) := by
  obtain ⟨h₁, h₂, h₃⟩ := h.ok ip
  have href : s.refs ip = b ip + 1 := by
    rw [hb]
    simp
  have hip : 0 < s.refs ip := by omega
  have hl' : (s.icache ip).locked = false := hl
  have hupd : update s.refs ip (s.refs ip - 1) = b := by
    funext jp
    by_cases hj : jp = ip
    · subst hj
      rw [update_self, href, Nat.add_sub_cancel]
    · rw [update_of_ne hj, hb]
      simp [hj]
  have hunlocked : ¬ (s.icache ip).locked := by
    rw [hl']
    exact Bool.false_ne_true
  unfold FS.iput
  simp only [run_get_bind]
  rw [if_neg hunlocked]
  by_cases hfree : (s.icache ip).valid ∧ (s.icache ip).d.nlink = 0 ∧ (s.icache ip).ref = 1
  · obtain ⟨hv, hn, hr⟩ := hfree
    obtain ⟨hd, htype⟩ := h₂ hip hv
    rw [hd] at hn
    have hr' : s.refs ip = 1 := hr
    obtain ⟨w, hrun, hw, hsb, hlive, hinode, hcount⟩ := h.sound.ifree_spec htype
    rw [← hd] at hrun
    have hdev : (onDev (ifree (s.icache ip).inum (s.icache ip).d) : M P Dinode) s = _ :=
      onDev_ok hrun
    rw [if_pos ⟨hv, by rw [hd]; exact hn, hr⟩, bind_ok hdev]
    refine ⟨s.put w ip { s.icache ip with
        d := { (s.icache ip).d with addrs := fun _ => 0, size := 0, type := 0 }, valid := false,
        ref := s.refs ip - 1 }, w, rfl, ⟨?_, Kept.put hsb ?_, rfl, by rw [refs_put, hupd], ?_⟩,
      .inr ⟨hn, by omega, hw, hlive, hinode, hcount⟩⟩
    · have hzero : (w.live (s.icache ip).inum) = Dinode.zero := by rw [hlive, update_self]
      refine h.put hw hsb (.inr rfl) (h.other hip) (fun j hj => ?_) ⟨fun hc => ?_, fun hc => ?_, ?_⟩
        (fun hc => ?_)
        fun hc => ?_
      · rw [hlive, update_of_ne hj]
      · exact absurd hc (by simp only [hr']; omega)
      · exact absurd hc (by simp only [hr']; omega)
      · exact fun hc => (hunlocked hc).elim
      · exact absurd hc (by simp only [hr']; omega)
      · exact absurd (congrArg Dinode.type hzero) hc
    · intro hc
      omega
    · rw [locks_put]
      exact update_eq_self ..
  · rw [if_neg hfree]
    have hkeep : (s.dev.live (s.icache ip).inum).nlink ≠ 0 ∨ 0 < b ip := by
      by_contra hc
      simp only [ne_eq, not_or, not_not, not_lt, Nat.le_zero] at hc
      have hv : (s.icache ip).valid := by
        by_contra hv
        exact h.fresh ip hip (by simpa using hv) hc.1
      refine hfree ⟨hv, by rw [(h₂ hip hv).1]; exact hc.1, ?_⟩
      have : (s.icache ip).ref = b ip + 1 := href
      omega
    refine ⟨s.put s.dev ip { s.icache ip with ref := s.refs ip - 1 }, s.dev, rfl,
      ⟨?_, Kept.put rfl fun _ => ⟨rfl, fun hv => hv⟩, rfl, by rw [refs_put, hupd], ?_⟩,
      .inl ⟨hkeep, rfl⟩⟩
    · refine h.put h.sound rfl (.inr rfl) (h.other hip) (fun _ _ => rfl)
        ⟨fun _ => h₁ hip, fun _ => h₂ hip, fun hc => (hunlocked hc).elim⟩ (fun _ => h.fresh ip hip)
        fun _ hn => ?_
      have := hkeep.resolve_left (not_not.2 hn)
      show 0 < s.refs ip - 1
      omega
    · rw [locks_put]
      exact update_eq_self ..

theorem Coherent.iput_same (hb : s.refs = b + Pi.single ip 1) (hheld : Holds b s)
    (hl : s.locks ip = false) : ∃ s', FS.iput ip s = (.ok (), s') ∧
    Becomes b s s' s.dev b s.locks := by
  obtain ⟨s', w, hrun, hbecomes, ⟨-, rfl⟩ | ⟨hn, hb₀, -⟩⟩ := h.iput hb hl
  · exact ⟨s', hrun, hbecomes⟩
  · have hip : 0 < s.refs ip := by
      rw [hb]
      simp
    obtain ⟨jp, hj, he⟩ := hheld _ (h.type_ne_zero hip) hn
    have hj' : 0 < s.refs jp := by
      rw [hb]
      exact lt_of_lt_of_le hj (Nat.le_add_right ..)
    obtain rfl : jp = ip := h.inj jp ip hj' hip he
    omega

theorem Coherent.iunlockput_same (hb : s.refs = b + Pi.single ip 1) (hheld : Holds b s)
    (hl : s.locks ip) :
    ∃ s', iunlockput ip s = (.ok (), s') ∧ Becomes b s s' s.dev b (update s.locks ip false) := by
  obtain ⟨s₁, hrun₁, h₁⟩ := h.iunlock hl
  have hle : ∀ jp, b jp ≤ s.refs jp := fun jp => by
    rw [hb]
    exact Nat.le_add_right ..
  have h₁' := h₁.mono hle
  have hunlocked : s₁.locks ip = false := by rw [h₁.locks, update_self]
  obtain ⟨s₂, hrun₂, h₂⟩ := h₁.coherent.iput_same (h₁.refs.trans hb) (h₁'.kept.holds hheld h₁.dev)
    hunlocked
  rw [h₁.dev, h₁.locks] at h₂
  exact ⟨s₂, by rw [iunlockput, bind_ok hrun₁, hrun₂], h₁'.trans h₂⟩

end

end locks

end Xv6.FS
