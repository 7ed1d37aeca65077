import Xv6.Ilock.Rules

/-!
# Rules for directories and paths

`dirlookup`, `dirlink` and `namex`.  An inode that is found under a name stands above the directory
in the order of the locks, unless the name is `.` or `..` (`World.Named`).
-/

namespace Xv6.Ilock

open LockProg

variable {P T : Type} {R : ℕ → ℕ → Prop}

attribute [local simp] Tok.addRef Tok.take

/-- What the order says of an inode found under a name. -/
def World.Named (R : ℕ → ℕ → Prop) (e : World P) (dp : Ip) (name : Name) (x : Ip) : Prop :=
  e.Below R (e.icache dp).inum (e.icache x).inum ∨
    (namecmp name dot ∧ 1 ≤ e.dots (e.icache dp).inum) ∨
    (namecmp name dotdot ∧ 2 ≤ e.dots (e.icache dp).inum)

theorem direntFind_some {d : List Dirent} {name : Name} {off : ℕ}
    (h : direntFind d name = some off) : ∃ de ∈ d, d.getD off ⟨0, []⟩ = de ∧ de.inum ≠ 0 ∧
    namecmp name de.name := by
  obtain ⟨hlt, hde, -⟩ := List.findIdx?_eq_some_iff_getElem.1 h
  refine ⟨d[off], List.getElem_mem hlt, by simp [hlt], ?_⟩
  simpa using hde

theorem mem_direntAdd {d : List Dirent} {de de' : Dirent} (h : de' ∈ direntAdd d de) :
    de' ∈ d ∨ de' = de := by
  unfold direntAdd at h
  split at h
  · rcases List.mem_or_eq_of_mem_set h with h | h
    · exact .inl h
    · exact .inr h
  · simpa using h

section Rules

variable [Fintype T] [Fintype P] [DecidableEq P] {proc : T → P} {g : Tok P} {e : World P}

theorem runs_dirlookup {dp : Ip} {name : Name} {k : Option (Ip × ℕ) → Code P} (hheld : g.held dp)
    (hnone : ∀ e', Keeps R g e e' → (e'.dinode dp).type = some .dir →
      direntFind (e'.dinode dp).entries name = none → Runs R proc (k none) g e')
    (hsome : ∀ x off e', Keeps R g e e' → (e'.dinode dp).type = some .dir →
      direntFind (e'.dinode dp).entries name = some off → e'.Named R dp name x →
      Runs R proc (k (some (x, off))) (g.addRef x) e') : Runs R proc (dirlookup dp name k) g e := by
  refine runs_read fun e₁ hr₁ => ?_
  have h₁ := Keeps.of_rely hr₁
  split_ifs with hdir
  · exact runs_stop
  rw [ne_eq, not_not] at hdir
  cases hfind : direntFind (e₁.dinode dp).entries name with
  | none => exact hnone e₁ h₁ hdir hfind
  | some off =>
    obtain ⟨de, hmem, hde, hinum, hname⟩ := direntFind_some hfind
    refine runs_iget fun x e₂ h₂ hx => ?_
    obtain ⟨hdp, hsame⟩ := h₂.held dp hheld
    obtain ⟨htype, hentries, hgen, hdots, -⟩ := hsame (by simp [hdir])
    refine hsome x off e₂ (h₁.trans h₂) (htype.trans hdir) (by rw [hentries, hfind]) ?_
    rw [hde] at hx
    rw [World.Named, hdp, hx, hdots]
    rw [namecmp_iff] at hname
    rcases hr₁.good.ranked _ hdir de hmem with h | h | ⟨h, hd⟩ | ⟨h, hd⟩
    · exact absurd h hinum
    · exact .inl (h.mono hgen (hr₁.good.gen _) (h₂.gen _))
    · exact .inr (.inl ⟨by rw [namecmp_iff] at h ⊢; rw [hname, h], hd⟩)
    · exact .inr (.inr ⟨by rw [namecmp_iff] at h ⊢; rw [hname, h], hd⟩)

theorem runs_dirlink [IsStrictOrder ℕ R] {dp : Ip} {name : Name} {n : ℕ} {k : Bool → Code P}
    (d : World P → ℕ) (hheld : g.held dp)
    (hfound : ∀ x e', Keeps R g e e' → (e'.dinode dp).type = some .dir →
      direntFind (e'.dinode dp).entries name ≠ none → e'.Named R dp name x →
      ∀ y, g.held y → e'.Lt R y x) (hadd : ∀ e', Keeps R g e e' → (e'.dinode dp).type = some .dir →
      direntFind (e'.dinode dp).entries name = none → e'.dots (e'.icache dp).inum ≤ d e' ∧
      (e'.fresh (e'.icache dp).inum → d e' = e'.dots (e'.icache dp).inum) ∧
      e'.EntryOk R (e'.icache dp).inum (d e') ⟨n, name.take DIRSIZ⟩)
    (hfalse : ∀ e', Keeps R g e e' → Runs R proc (k false) g e')
    (htrue : ∀ e' i e'', Keeps R g e e' → i.type = some .dir → Wrote R g dp i (d e') e' e'' →
      Runs R proc (k true) g e'') : Runs R proc (dirlink dp name n k) g e := by
  refine runs_dirlookup hheld (fun e₁ h₁ hdir hfind => ?_) fun x off e₁ h₁ hdir hfind hnamed => ?_
  · refine runs_act fun e₂ hr₂ => ?_
    obtain ⟨hdp, hsame⟩ := (Keeps.of_rely hr₂).held dp hheld
    obtain ⟨htype, hentries, -, -, -⟩ := hsame (by simp [hdir])
    have h₂ := h₁.trans (.of_rely hr₂)
    have hdir₂ := htype.trans hdir
    obtain ⟨hdots, hfresh, hnew⟩ := hadd e₂ h₂ hdir₂ (by rw [hentries, hfind])
    by_cases hfits : direntFits (e₂.dinode dp).entries
    · simp only [if_pos hfits]
      obtain ⟨e₃, hfs, hm, hw⟩ := exists_modify hr₂ hheld
        (fun i => { i with entries := direntAdd i.entries ⟨n, name.take DIRSIZ⟩ }) (d e₂) rfl hfresh
        fun _ de hde => by
          rcases mem_direntAdd hde with hold | rfl
          · exact (hr₂.good.ranked _ hdir₂ de hold).mono_dots hdots
          · exact hnew
      exact ⟨g, e₃, hfs, hm, htrue e₂ _ e₃ h₂ (by exact hdir₂) hw⟩
    · simp only [if_neg hfits]
      exact ⟨g, e₂, rfl, .look, runs_stop⟩
  · have hlt := hfound x e₁ h₁ hdir (by simp [hfind]) hnamed
    have hnot : g.held x = false := by
      by_contra hx
      exact World.Lt.irrefl (hlt x (by simpa using hx))
    refine runs_iput (by rw [Tok.addRef_refs]; simp) hnot (fun e₂ h₂ y hy => ?_) fun e₂ h₂ => ?_
    · exact h₂.lt h₁.good hy (by rw [Tok.addRef_refs]; simp) (hlt y hy)
    · rw [Tok.dropRef_addRef] at h₂ ⊢
      exact hfalse e₂ (h₁.trans h₂)

/-! ## One lock at a time -/

theorem runs_enter {x : Ip} {k : Code P} (hfree : ∀ y, g.held y = false)
    (hk : ∀ e', Keeps R (g.addRef x) e e' → (e'.dinode x).type ≠ none →
      Runs R proc k ((g.addRef x).take x) e') : Runs R proc (ilock x k) (g.addRef x) e :=
  runs_ilock (by rw [Tok.addRef_refs]; simp)
    (fun _ _ y hy => absurd hy (by simp [hfree])) hk

theorem runs_leave_with {x y : Ip} {k : Code P} (hfree : ∀ z, g.held z = false)
    (hk : ∀ e', Keeps R (g.addRef y) e e' → Runs R proc k (g.addRef y) e') :
    Runs R proc (iunlockput false x k) (((g.addRef x).take x).addRef y) e := by
  have htok : ((((g.addRef x).take x).addRef y).give x).dropRef x = g.addRef y := by
    refine Tok.ext rfl rfl ?_ (funext fun z => ?_) rfl rfl
    · simpa [Tok.give, Tok.dropRef] using (hfree x).symm
    · have := Tok.dropRef_refs (((g.addRef x).take x).addRef y |>.give x) (x := x) ?_ z
      · simp only [Tok.give, Tok.take, Tok.addRef_refs] at this ⊢
        omega
      · simp only [Tok.give, Tok.take, Tok.addRef_refs]
        simp
  have hgive : ∀ z, ((((g.addRef x).take x).addRef y).give x).held z = false := fun z => by
    by_cases hz : z = x <;> simp [Tok.give, hz, hfree]
  refine runs_iunlockput ?_ (by simp) (fun _ _ _ z hz => ?_) fun e₁ h₁ => ?_
  · simp only [Tok.addRef_refs, Tok.take]
    simp
  · rw [hgive] at hz
    cases hz
  · rw [htok] at h₁ ⊢
    exact hk e₁ h₁

theorem runs_leave {x : Ip} {k : Code P} (hfree : ∀ y, g.held y = false)
    (hk : ∀ e', Keeps R g e e' → Runs R proc k g e') :
    Runs R proc (iunlockput false x k) ((g.addRef x).take x) e := by
  have hgive : ((g.addRef x).take x).give x = g.addRef x := Tok.give_take (hfree x)
  refine runs_iunlockput (by simp) (by simp) (fun _ _ _ y hy => ?_)
    fun e₁ h₁ => ?_
  · rw [hgive] at hy
    exact absurd hy (by simp [hfree])
  · rw [hgive, Tok.dropRef_addRef] at h₁ ⊢
    exact hk e₁ h₁

theorem runs_unlock {x : Ip} {k : Code P} (hfree : ∀ y, g.held y = false)
    (hback : k.takesBack = none)
    (hk : ∀ e', Keeps R (g.addRef x) e e' → Runs R proc k (g.addRef x) e') :
    Runs R proc (iunlock x k) ((g.addRef x).take x) e := by
  refine runs_iunlock (by simp) (.inl hback) fun e₁ h₁ => ?_
  have hgive : ((g.addRef x).take x).give x = g.addRef x := Tok.give_take (hfree x)
  rw [hgive]
  exact (hk e₁ (h₁.mono (Tok.le_take x))).2

/-! ## Paths -/

theorem runs_namexFrom {parent : Bool} {k : Option (Ip × Name) → Code P} (path : List Name) (x : Ip)
    (name : Name) {e : World P} (hfree : ∀ y, g.held y = false)
    (hnone : ∀ e', Keeps R g e e' → Runs R proc (k none) g e')
    (hsome : ∀ y name' e', Keeps R g e e' → (parent → path.getLast? = some name') →
      Runs R proc (k (some (y, name'))) (g.addRef y) e')
    (he : e.Good R) : Runs R proc (namexFrom parent k path x name) (g.addRef x) e := by
  induction path generalizing x name e with
  | nil =>
    have hrefl : Keeps R g e e :=
      .of_eq he (fun _ _ => rfl) rfl rfl rfl rfl (fun _ h => h) ⟨rfl, rfl⟩
    rw [namexFrom]
    split_ifs with hp
    · refine runs_iput (by rw [Tok.addRef_refs]; simp) (hfree x) (fun _ _ y hy => ?_) fun e₁ h₁ =>
        ?_
      · exact absurd hy (by simp [hfree])
      · rw [Tok.dropRef_addRef] at h₁ ⊢
        exact hnone e₁ h₁
    · exact hsome x name e hrefl fun h => absurd h hp
  | cons next path ih =>
    have hlock : ((g.addRef x).take x).held x := by simp
    rw [namexFrom]
    refine runs_enter hfree fun e₁ h₁ _ => ?_
    refine runs_read fun e₂ hr₂ => ?_
    have h₁' := h₁.mono (Tok.le_addRef x)
    have h₂ := h₁'.trans ((Keeps.of_rely hr₂).mono ((Tok.le_addRef x).trans (Tok.le_take x)))
    split_ifs with hdir hlast
    · exact runs_leave hfree fun e₃ h₃ => hnone e₃ (h₂.trans h₃)
    · have hk : ∀ e', Keeps R g e e' → Runs R proc (k (some (x, next))) (g.addRef x) e' :=
        fun e' h' =>
        hsome x next e' h' fun _ => by rw [hlast.2]; rfl
      exact runs_unlock hfree (hk e₂ h₂).1 fun e₃ h₃ => hk e₃ (h₂.trans (h₃.mono (Tok.le_addRef x)))
    · refine runs_dirlookup hlock (fun e₃ h₃ _ _ => ?_) fun y off e₃ h₃ _ _ _ => ?_
      · have h₃ := h₃.mono ((Tok.le_addRef x).trans (Tok.le_take x))
        exact runs_leave hfree fun e₄ h₄ => hnone e₄ ((h₂.trans h₃).trans h₄)
      · have h₃ := h₂.trans (h₃.mono ((Tok.le_addRef x).trans (Tok.le_take x)))
        refine runs_leave_with hfree fun e₄ h₄ => ?_
        have h₄ := h₃.trans (h₄.mono (Tok.le_addRef y))
        refine ih y next (fun e' h' => hnone e' (h₄.trans h')) (fun z name' e' h' hn => ?_) h₄.good
        refine hsome z name' e' (h₄.trans h') fun hp => ?_
        rw [List.getLast?_cons, hn hp]
        rfl

theorem runs_namex {parent : Bool} {path : Name} {k : Option (Ip × Name) → Code P}
    (hfree : ∀ y, g.held y = false) (hmode : g.mode ≠ .idle) (howned : e.owned g.p)
    (hnone : ∀ e', Keeps R g e e' → Runs R proc (k none) g e')
    (hsome : ∀ y name e', Keeps R g e e' → (parent → (pathElems path).getLast? = some name) →
      Runs R proc (k (some (y, name))) (g.addRef y) e') :
    Runs R proc (namex g.p path parent k) g e := by
  unfold namex
  split_ifs
  · exact runs_iget fun x e₁ h₁ _ =>
      runs_namexFrom _ x [] hfree (fun e₂ h₂ => hnone e₂ (h₁.trans h₂))
      (fun y name e₂ h₂ => hsome y name e₂ (h₁.trans h₂)) h₁.good
  · exact runs_idup_cwd (k := fun x => namexFrom parent k (pathElems path) x []) hmode howned
      fun x e₁ h₁ => runs_namexFrom _ x [] hfree (fun e₂ h₂ => hnone e₂ (h₁.trans h₂))
        (fun y name e₂ h₂ => hsome y name e₂ (h₁.trans h₂)) h₁.good

end Rules

end Xv6.Ilock
