import Xv6.Ilock.Paths

/-!
# `create` and `unlink` keep the order

The two calls that lock an inode with its directory locked.  A new inode stands above every
directory; while `create` writes `.` and `..` into it, an entry that it finds there is not yet one
of the two.
-/

namespace Xv6.Ilock

open LockProg

variable {P T : Type} {R : ℕ → ℕ → Prop} {name : Name}

/-- The token of a thread that has locked `x` after the directory `dp`. -/
def Tok.both (g : Tok P) (dp x : Ip) : Tok P := (((g.addRef dp).take dp).addRef x).take x

namespace Tok

variable {g : Tok P} {dp x : Ip}

theorem held_both (hfree : ∀ y, g.held y = false) {y : Ip} :
    (g.both dp x).held y ↔ y = dp ∨ y = x := by
  by_cases hy : y = x
  · simp [both, take, hy]
  · simp [both, take, addRef, Function.update_apply, hy, hfree]

theorem refs_both_dir : 0 < (g.both dp x).refs dp := by
  simp only [both, take, addRef_refs]
  simp

theorem refs_both : 0 < (g.both dp x).refs x := by
  simp only [both, take, addRef_refs]
  simp

theorem le_both : g.Le (g.both dp x) :=
  (((le_addRef dp).trans (le_take dp)).trans (le_addRef x)).trans (le_take x)

theorem le_setFresh {o : Option ℕ} : g.Le (g.setFresh o) := ⟨rfl, rfl, fun _ h => h, fun _ h => h⟩

theorem both_le_setFresh {o : Option ℕ} : (g.both dp x).Le ((g.setFresh o).both dp x) :=
  ⟨rfl, rfl, fun _ h => h, fun _ h => h⟩

theorem both_put_dir (hfree : ∀ y, g.held y = false) (hne : dp ≠ x) :
    ((g.both dp x).give dp).dropRef dp = (g.addRef x).take x := by
  refine Tok.ext rfl rfl (funext fun z => ?_) (funext fun z => ?_) rfl rfl
  · by_cases hz : z = dp
    · simp [both, give, take, addRef, dropRef, hz, hne, hfree]
    · simp [both, give, take, addRef, dropRef, Function.update_apply, hz]
  · have := dropRef_refs ((g.both dp x).give dp) (x := dp) refs_both_dir z
    simp only [both, give, take, addRef_refs] at this ⊢
    omega

theorem both_put (hfree : ∀ y, g.held y = false) (hne : dp ≠ x) :
    ((g.both dp x).give x).dropRef x = (g.addRef dp).take dp := by
  refine Tok.ext rfl rfl (funext fun z => ?_) (funext fun z => ?_) rfl rfl
  · by_cases hz : z = x
    · simp [both, give, take, addRef, dropRef, hz, Ne.symm hne, hfree]
    · simp [both, give, take, addRef, dropRef, hz]
  · have := dropRef_refs ((g.both dp x).give x) (x := x) refs_both z
    simp only [both, give, take, addRef_refs] at this ⊢
    omega

end Tok

theorem World.Named.lt {e : World P} {dp : Ip} {y : Ip}
    (hdir : (e.dinode dp).type = some .dir) (h : e.Named R dp name y)
    (hdot : namecmp name dot → e.dots (e.icache dp).inum < 1)
    (hdotdot : namecmp name dotdot → e.dots (e.icache dp).inum < 2) : e.Lt R dp y := by
  refine ⟨hdir, ?_⟩
  rcases h with h | ⟨h, hd⟩ | ⟨h, hd⟩
  · exact h
  · exact absurd (hdot h) (by omega)
  · exact absurd (hdotdot h) (by omega)

section Rules

variable [Fintype T] [Fintype P] [DecidableEq P] {proc : T → P} {g : Tok P} {e : World P}

/-! ## The new inode -/

/-- What `create` knows of the directory `dp` and the new inode `x`, both locked. -/
structure Creating (R : ℕ → ℕ → Prop) (dp x : Ip) (name : Name) (e : World P) : Prop where
  good : e.Good R
  lt : e.Lt R dp x
  find : direntFind (e.dinode dp).entries name = none

omit [Fintype P] [DecidableEq P] in
theorem Creating.mono {dp x : Ip} {g' : Tok P} {e' : World P}
    (h : Creating R dp x name e) (hdp : g'.held dp) (hx : 0 < g'.refs x) (hk : Keeps R g' e e') :
    Creating R dp x name e' where
  good := hk.good
  lt := hk.lt h.good hdp hx h.lt
  find := by
    rw [((hk.held dp hdp).2 (by simp [h.lt.1])).2.1]
    exact h.find

theorem runs_createLink [IsStrictOrder ℕ R] {dp x : Ip} {k : Option Ip → Code P}
    (hfree : ∀ y, g.held y = false) (hc : Creating R dp x name e)
    (hk : ∀ e', Keeps R g e e' → Runs R proc (k (some x)) ((g.addRef x).take x) e') :
    Runs R proc (createLink dp x name k) (g.both dp x) e := by
  have hne : dp ≠ x := fun h => World.Lt.irrefl (h ▸ hc.lt)
  have hdp : (g.both dp x).held dp := (Tok.held_both hfree).2 (.inl rfl)
  refine runs_read fun e₁ hr₁ => ?_
  have h₁ := Keeps.of_rely hr₁
  have hc₁ := hc.mono hdp Tok.refs_both h₁
  refine runs_dirlink (fun e' => e'.dots (e'.icache dp).inum) hdp
    (fun y e₂ h₂ _ hfind => absurd (hc₁.mono hdp Tok.refs_both h₂).find hfind) (fun e₂ h₂ _ _ => ?_)
    (fun _ _ => runs_stop) fun e₂ i e₃ h₂ _ hw => ?_
  · refine ⟨le_rfl, fun _ => rfl, .inr (.inl ?_)⟩
    have := (hc₁.mono hdp Tok.refs_both h₂).lt.2
    rwa [h₂.inum x Tok.refs_both] at this
  · have h₃ := ((h₁.trans h₂).mono Tok.le_both).trans
      (hw.keeps.mono ⟨rfl, rfl, fun y hy => by simp [hfree] at hy, Tok.le_both.refs⟩)
    refine runs_iunlockput Tok.refs_both_dir hdp (fun h => nomatch h) fun e₄ h₄ => ?_
    rw [Tok.both_put_dir hfree hne] at h₄ ⊢
    exact hk e₄ (h₃.trans (h₄.mono ((Tok.le_addRef x).trans (Tok.le_take x))))

/-- One of the two entries of a new directory `x`: `d` of them have been written. -/
theorem runs_dot [IsStrictOrder ℕ R] {dp x : Ip}
    {name entry : Name} {n d : ℕ} {k : Bool → Code P} (hfree : ∀ y, g.held y = false)
    (hentry : (namecmp dot (entry.take DIRSIZ) ∧ d = 0) ∨
      (namecmp dotdot (entry.take DIRSIZ) ∧ d = 1))
    (hdot : namecmp entry dot → d < 1) (hdotdot : namecmp entry dotdot → d < 2)
    (hc : Creating R dp x name e) (hx : (e.dinode x).type ≠ none)
    (hd : e.dots (e.icache x).inum = d) (hfresh : e.fresh (e.icache x).inum = false)
    (hfalse : k false = .stop)
    (htrue : ∀ e', Keeps R g e e' → Creating R dp x name e' → (e'.dinode x).type ≠ none →
    e'.dots (e'.icache x).inum = d + 1 → e'.fresh (e'.icache x).inum = false → Runs R proc (k true)
    (g.both dp x) e') : Runs R proc (dirlink x entry n k) (g.both dp x) e := by
  have hne : dp ≠ x := fun h => World.Lt.irrefl (h ▸ hc.lt)
  have hdp : (g.both dp x).held dp := (Tok.held_both hfree).2 (.inl rfl)
  have hxh : (g.both dp x).held x := (Tok.held_both hfree).2 (.inr rfl)
  -- what is known of `x` stays, since it is locked
  have hstay : ∀ {e' : World P}, Keeps R (g.both dp x) e e' →
      e'.dots (e'.icache x).inum = d ∧ e'.fresh (e'.icache x).inum = false := by
    intro e' h'
    obtain ⟨hinum, hsame⟩ := h'.held x hxh
    obtain ⟨-, -, -, hdots, hfr⟩ := hsame hx
    rw [hinum]
    exact ⟨hdots.trans hd, hfr hfresh⟩
  refine runs_dirlink (fun _ => d + 1) hxh (fun y e₁ h₁ hdir _ hnamed z hz => ?_)
    (fun e₁ h₁ _ _ => ?_) (fun _ _ => hfalse ▸ runs_stop) fun e₁ i e₂ h₁ hi hw => ?_
  · have hlt : e₁.Lt R x y := hnamed.lt hdir (by rw [(hstay h₁).1]; exact hdot)
      (by rw [(hstay h₁).1]; exact hdotdot)
    rcases (Tok.held_both hfree).1 hz with rfl | rfl
    · exact (hc.mono hdp Tok.refs_both h₁).lt.trans hlt
    · exact hlt
  · obtain ⟨hdots, hfr⟩ := hstay h₁
    refine ⟨by omega, fun h => by simp [hfr] at h, .inr (.inr ?_)⟩
    rcases hentry with ⟨h, hd0⟩ | ⟨h, hd1⟩
    · exact .inl ⟨h, by omega⟩
    · exact .inr ⟨h, by omega⟩
  · have hc₁ := hc.mono hdp Tok.refs_both h₁
    have hdp' : ((g.both dp x).give x).held dp := by simpa [Tok.give, hne] using hdp
    refine htrue e₂ ((h₁.mono Tok.le_both).trans
      (hw.keeps.mono ⟨rfl, rfl, fun y hy => by simp [hfree] at hy, Tok.le_both.refs⟩))
      (hc₁.mono hdp' Tok.refs_both hw.keeps) (by rw [hw.dinode, hi]; simp)
      (by rw [hw.inum, hw.dots]) ?_
    rw [hw.inum, hw.fresh]
    exact (hstay h₁).2

theorem runs_createDots [IsStrictOrder ℕ R] {dp x : Ip} {k : Code P} (hfree : ∀ y, g.held y = false)
    (hc : Creating R dp x name e) (hx : (e.dinode x).type ≠ none)
    (hd : e.dots (e.icache x).inum = 0) (hfresh : e.fresh (e.icache x).inum = false)
    (hk : ∀ e', Keeps R g e e' → Creating R dp x name e' → Runs R proc k (g.both dp x) e') :
    Runs R proc (createDots dp x k) (g.both dp x) e := by
  have hdp : (g.both dp x).held dp := (Tok.held_both hfree).2 (.inl rfl)
  have hxh : (g.both dp x).held x := (Tok.held_both hfree).2 (.inr rfl)
  unfold createDots
  refine runs_nlink (· + 1) hdp fun e₁ e₂ hr₁ h₂ => ?_
  have h₂ := (Keeps.of_rely hr₁).trans h₂
  obtain ⟨hinum, hsame⟩ := h₂.held x hxh
  obtain ⟨htype, -, -, hdots, hfr⟩ := hsame hx
  refine runs_dot hfree (.inl ⟨by decide, rfl⟩) (fun _ => by omega) (fun _ => by omega)
    (hc.mono hdp Tok.refs_both h₂) (htype ▸ hx) (by rw [hinum, hdots, hd])
    (by rw [hinum]; exact hfr hfresh) rfl fun e₃ h₃ hc₃ hx₃ hd₃ hf₃ => ?_
  refine runs_dot hfree (.inr ⟨by decide, rfl⟩) (fun h => absurd h (by decide))
    (fun _ => by omega) hc₃ hx₃ hd₃ hf₃ rfl fun e₄ h₄ hc₄ _ _ _ => ?_
  exact hk e₄ (((h₂.mono Tok.le_both).trans h₃).trans h₄) hc₄

theorem runs_settle {dp x : Ip} {k : Code P} (hfree : ∀ y, g.held y = false)
    (hnew : g.fresh = none) (hc : Creating R dp x name e)
    (hk : ∀ e', Keeps R g e e' → Creating R dp x name e' → (e'.dinode x).type ≠ none →
      e'.dots (e'.icache x).inum = 0 → e'.fresh (e'.icache x).inum = false →
      Runs R proc k (g.both dp x) e') :
    Runs R proc (ilock x <| .act (fun s => s.settle x) fun _ => k)
      (((((g.setFresh (some (e.icache x).inum)).addRef dp).take dp).addRef x)) e := by
  have hdp : (g.both dp x).held dp := (Tok.held_both hfree).2 (.inl rfl)
  have hx : (g.both dp x).held x := (Tok.held_both hfree).2 (.inr rfl)
  have hxr : 0 < ((((g.setFresh (some (e.icache x).inum)).addRef dp).take dp).addRef x).refs x := by
    rw [Tok.addRef_refs]
    simp
  have hdp' : ((((g.setFresh (some (e.icache x).inum)).addRef dp).take dp).addRef x).held dp := by
    simp [Tok.take, Tok.addRef]
  refine runs_ilock hxr (fun e₁ h₁ y hy => ?_) fun e₁ h₁ hx₁ => ?_
  · have hy : y = dp := by
      by_contra hyd
      simp [Tok.addRef, Tok.take, Tok.setFresh, hfree, hyd] at hy
    exact hy ▸ (hc.mono hdp' hxr h₁).lt
  change Runs R proc _ ((g.setFresh (some (e.icache x).inum)).both dp x) e₁
  refine runs_act fun e₂ hr₂ => ?_
  have h₂ : Keeps R (g.both dp x) e₁ e₂ := (Keeps.of_rely hr₂).mono Tok.both_le_setFresh
  have h₁₂ : Keeps R g e e₂ := (h₁.mono (Tok.le_setFresh.trans
    ((Tok.le_addRef dp).trans ((Tok.le_take dp).trans (Tok.le_addRef x))))).trans (h₂.mono
    Tok.le_both)
  have hinum : (e₂.icache x).inum = (e.icache x).inum :=
    (h₂.inum x Tok.refs_both).trans (h₁.inum x hxr)
  have hx₂ : (e₂.dinode x).type ≠ none := (h₂.type_eq hx hx₁) ▸ hx₁
  have hc₂ := (hc.mono hdp' hxr h₁).mono hdp Tok.refs_both h₂
  obtain ⟨-, hdots⟩ := hr₂.fresh _ rfl
  have hm := Move.settle (R := R) (g := (g.setFresh (some (e.icache x).inum)).both dp x) (e := e₂) x
    (by rw [hinum]; rfl)
  have htok : ((g.setFresh (some (e.icache x).inum)).both dp x).setFresh none = g.both dp x :=
    Tok.ext rfl rfl rfl rfl rfl hnew.symm
  rw [htok] at hm
  have h₃ : Keeps R (g.both dp x) e₂ { e₂ with toFs := e₂.settle x } :=
    .of_eq (hm.good hr₂.good) (fun _ _ => rfl) rfl rfl rfl rfl
      (fun n hn => by by_cases hnx : n = (e₂.icache x).inum <;> simp [Fs.settle, hnx, hn])
      ⟨rfl, rfl⟩
  have hdots₂ : e₂.dots (e₂.icache x).inum = 0 := hinum ▸ hdots
  refine ⟨g.both dp x, { e₂ with toFs := e₂.settle x }, rfl, hm, ?_⟩
  exact hk _ (h₁₂.trans (h₃.mono Tok.le_both)) (hc₂.mono hdp Tok.refs_both h₃) hx₂ hdots₂
    (by simp [Fs.settle])

/-- `create` after `ialloc`: the new inode is locked and gets its link, its dots and its entry. -/
theorem runs_createNew [IsStrictOrder ℕ R] {dp x : Ip} {type : FileType} {k : Option Ip → Code P}
    (hfree : ∀ y, g.held y = false) (hnew : g.fresh = none) (hc : Creating R dp x name e)
    (hsome : ∀ e', Keeps R g e e' → Runs R proc (k (some x)) ((g.addRef x).take x) e') : Runs R proc
      (ilock x <| .act (fun s => s.settle x) fun _ =>
        .act (fun s => s.modify x fun i => { i with nlink := 1 }) fun _ =>
          if type = .dir then createDots dp x (createLink dp x name k) else createLink dp x name k)
      (((((g.setFresh (some (e.icache x).inum)).addRef dp).take dp).addRef x)) e := by
  have hdp : (g.both dp x).held dp := (Tok.held_both hfree).2 (.inl rfl)
  have hx : (g.both dp x).held x := (Tok.held_both hfree).2 (.inr rfl)
  refine runs_settle hfree hnew hc fun e₁ h₁ hc₁ hx₁ hdots hfresh => ?_
  refine runs_nlink (fun _ => 1) hx fun e₂ e₃ hr₂ h₃ => ?_
  have h₃ := (Keeps.of_rely hr₂).trans h₃
  have hc₃ := hc₁.mono hdp Tok.refs_both h₃
  have hkeep := h₁.trans (h₃.mono Tok.le_both)
  obtain ⟨hinum, hsame⟩ := h₃.held x hx
  obtain ⟨htype, -, -, hdots₃, hfresh₃⟩ := hsame hx₁
  split_ifs with hdir
  · refine runs_createDots hfree hc₃ (htype ▸ hx₁) ?_ ?_ fun e' h' hc' =>
      runs_createLink hfree hc' fun e'' h'' => hsome e'' ((hkeep.trans h').trans h'')
    · rw [hinum, hdots₃, hdots]
    · rw [hinum]
      exact hfresh₃ hfresh
  · exact runs_createLink hfree hc₃ fun e'' h'' => hsome e'' (hkeep.trans h'')

theorem runs_create [IsStrictOrder ℕ R] {path : Name}
    {type : FileType} {k : Option Ip → Code P} (hfree : ∀ y, g.held y = false)
    (hnew : g.fresh = none) (hmode : g.mode ≠ .idle) (howned : e.owned g.p)
    (hnone : ∀ e', Keeps R g e e' → Runs R proc (k none) g e')
    (hsome : ∀ x e', Keeps R g e e' → Runs R proc (k (some x)) ((g.addRef x).take x) e') :
    Runs R proc (create g.p path type k) g e := by
  refine runs_namex hfree hmode howned hnone fun dp name e₁ h₁ _ => ?_
  refine runs_enter hfree fun e₂ h₂ _ => ?_
  have h₂ := h₁.trans (h₂.mono (Tok.le_addRef dp))
  have hle : g.Le ((g.addRef dp).take dp) := (Tok.le_addRef dp).trans (Tok.le_take dp)
  have hdp : ((g.addRef dp).take dp).held dp := by simp [Tok.take]
  refine runs_dirlookup hdp (fun e₃ h₃ hdir hfind => ?_) fun x off e₃ h₃ _ _ _ => ?_
  · have h₃' := h₂.trans (h₃.mono hle)
    refine runs_ialloc hnew fun x e₄ h₄ hgen => ?_
    -- the new inode stands above the directory
    have hc₄ : Creating R dp x name e₄ := by
      obtain ⟨hinum, hsame⟩ := h₄.held dp hdp
      obtain ⟨htype, hentries, hgendp, -, -⟩ := hsame (by simp [hdir])
      refine ⟨h₄.good, ⟨htype.trans hdir, ?_⟩, by rw [hentries, hfind]⟩
      by_cases hx : (e₄.dinode x).type = some .dir
      · have := h₃.good.gen (e₃.icache dp).inum
        have := hgen hx
        exact .inr (.inl (by rw [hinum, hgendp]; omega))
      · exact .inl hx
    exact runs_createNew hfree hnew hc₄ fun e₅ h₅ =>
      hsome x e₅ ((h₃'.trans (h₄.mono hle)).trans h₅)
  · have h₃ := h₂.trans (h₃.mono hle)
    refine runs_leave_with hfree fun e₄ h₄ => ?_
    have h₄ := h₃.trans (h₄.mono (Tok.le_addRef x))
    refine runs_enter hfree fun e₅ h₅ _ => runs_read fun e₆ hr₆ => ?_
    have h₆ := (h₄.trans (h₅.mono (Tok.le_addRef x))).trans
      ((Keeps.of_rely hr₆).mono ((Tok.le_addRef x).trans (Tok.le_take x)))
    split_ifs
    · exact hsome x e₆ h₆
    · exact runs_leave hfree fun e₇ h₇ => hnone e₇ (h₆.trans h₇)

end Rules

end Xv6.Ilock
