import Xv6.Ilock.Create

/-!
# Rules for the system calls

Every call keeps the discipline from its first step to its return, for a thread that enters it with
nothing of its own (`Call.runs`).  Three conditions are met by the caller: the last name of the
second path of `link` is not `.` or `..`, and `chdir` and `close` are made by the only thread of
their process that is in a call.
-/

namespace Xv6.Ilock

open LockProg

variable {P T : Type} {R : ℕ → ℕ → Prop}

attribute [local simp] Tok.take Tok.addRef

section Rules

variable [Fintype T] [Fintype P] [DecidableEq P] {proc : T → P} {g : Tok P} {e : World P} {p : P}
    {m : Mode}

theorem runs_ret (hm : m ≠ .idle) (howned : e.owned p) : Runs R proc ret (.start p m) e :=
  runs_act fun e' hr => ⟨.start p .idle, e', rfl, .ret rfl (((hr.cwd hm).2).trans howned), rfl, rfl⟩

theorem Keeps.runs_ret {e' : World P} (h : Keeps R (.start p m) e e') (hm : m ≠ .idle)
    (howned : e.owned p) : Runs R proc ret (.start p m) e' :=
  Ilock.runs_ret hm ((h.cwd hm).2.trans howned)

/-! ## Files -/

theorem runs_files {f : Fs P → Fs P} {k : Fs P → Code P}
    (hf : ∀ s, (f s).icache = s.icache ∧ (f s).inode = s.inode ∧ (f s).fresh = s.fresh ∧
    (f s).cwd = s.cwd) (h : ∀ e', Rely R g e e' →
    ∃ g', Move R g g' e' { e' with toFs := f e'.toFs } ∧
      ∀ e'', Keeps R g e e'' → Runs R proc (k e'.toFs) g' e'') : Runs R proc (.act f k) g e := by
  refine runs_act fun e' hr => ?_
  obtain ⟨g', hm, hk⟩ := h e' hr
  obtain ⟨hicache, hinode, hfresh, hcwd⟩ := hf e'.toFs
  exact ⟨g', _, rfl, hm, hk _ ((Keeps.of_rely hr).trans (.of_eq (hm.good hr.good)
    (fun x _ => by rw [hicache]) hinode rfl rfl rfl (fun n hn => by rw [hfresh]; exact hn)
    ⟨by rw [hcwd], rfl⟩))⟩

theorem runs_filealloc {k : Option (Fin NFILE) → Code P} (hclaim : g.claim = .none)
    (hmode : g.mode ≠ .idle) (hnone : ∀ e', Keeps R g e e' → Runs R proc (k none) g e')
    (hsome : ∀ f e', Keeps R g e e' → Runs R proc (k (some f)) { g with claim := .opening f } e') :
    Runs R proc (filealloc k) g e := by
  refine runs_files (fun s => ?_) fun e' hr => ?_
  · dsimp only
    split <;> exact ⟨rfl, rfl, rfl, rfl⟩
  · cases hfind : fileFind e'.toFs with
    | none => exact ⟨g, .look, hnone⟩
    | some f =>
      have hf : (e'.ftable f).ref = 0 := by simpa using List.find?_some hfind
      exact ⟨_, .filealloc f hf hclaim hmode, hsome f⟩

theorem runs_fdalloc {f : Fin NFILE} {k : Option (Fin NOFILE) → Code P}
    (hclaim : g.claim = .opening f) (hmode : g.mode ≠ .idle)
    (hnone : ∀ e', Keeps R g e e' → Runs R proc (k none) g e')
    (hsome : ∀ fd e', Keeps R g e e' → Runs R proc (k (some fd)) { g with claim := .pending f }
    e') :
    Runs R proc (fdalloc g.p f k) g e := by
  refine runs_read fun e₁ hr₁ => ?_
  have h₁ := Keeps.of_rely hr₁
  split
  · next fd _ =>
    exact runs_files (fun _ => ⟨rfl, rfl, rfl, rfl⟩) fun e₂ _ =>
      ⟨_, .setOfile fd f hclaim hmode, fun e₃ h₃ => hsome fd e₃ (h₁.trans h₃)⟩
  · exact hnone e₁ h₁

theorem runs_fileclose {f : Fin NFILE} {k : Code P} (hclaim : g.claim.Counts f)
    (hput : (∀ x, g.held x = false) ∨ g.claim = .opening f)
    (hk : ∀ e', Keeps R { g with claim := .none } e e' →
    Runs R proc k { g with claim := .none } e') :
    Runs R proc (fileclose f k) g e := by
  have hle : Tok.Le { g with claim := .none } g := ⟨rfl, rfl, fun _ h => h, fun _ h => h⟩
  refine runs_files (fun s => ?_) fun e₁ hr₁ => ?_
  · dsimp only
    split_ifs <;> exact ⟨rfl, rfl, rfl, rfl⟩
  by_cases hlow : (e₁.ftable f).ref < 1
  · simp only [if_pos hlow]
    exact ⟨g, .look, fun _ _ => runs_stop⟩
  by_cases hmore : (e₁.ftable f).ref - 1 > 0
  · simp only [if_neg hlow, if_pos hmore]
    exact ⟨_, .closeOne f hclaim (by omega), fun e₂ h₂ => hk e₂ (h₂.mono hle)⟩
  simp only [if_neg hlow, if_neg hmore]
  refine ⟨_, .closeLast f hclaim (by omega), fun e₂ h₂ => ?_⟩
  cases hip : (e₁.ftable f).ip with
  | none => exact hk e₂ (h₂.mono hle)
  | some x =>
    have hfree : ∀ y, g.held y = false := hput.resolve_right fun ho => by
      simp [hr₁.builds f (.inl ho)] at hip
    show Runs R proc (iput false x k) (Tok.addRef { g with claim := .none } x) e₂
    refine runs_iput (by rw [Tok.addRef_refs]; simp) (hfree x) (fun e₃ h₃ y hy => ?_) fun e₃ h₃ =>
      ?_
    · exact absurd hy (by simp [hfree])
    · rw [Tok.dropRef_addRef] at h₃ ⊢
      exact hk e₃ ((h₂.mono hle).trans h₃)

theorem runs_openFile {x : Ip} (hm : m ≠ .idle) (howned : e.owned p) :
    Runs R proc (openFile p x) (((Tok.start p m).addRef x).take x) e := by
  have hle : (Tok.start p m).Le (((Tok.start p m).addRef x).take x) :=
    (Tok.le_addRef x).trans (Tok.le_take x)
  have hleave : ∀ {e' : World P}, Keeps R (.start p m) e e' →
      Runs R proc (iunlockput false x ret) (((Tok.start p m).addRef x).take x) e' := fun h' =>
    runs_leave (fun _ => rfl) fun e₂ h₂ => (h'.trans h₂).runs_ret hm howned
  refine runs_filealloc rfl hm (fun e₁ h₁ => hleave (h₁.mono hle)) fun f e₁ h₁ => ?_
  have h₁ := h₁.mono hle
  refine runs_fdalloc (g := { ((Tok.start p m).addRef x).take x with claim := .opening f }) rfl hm
    (fun e₂ h₂ => ?_) fun fd e₂ h₂ => ?_
  · refine runs_fileclose (.inl rfl) (.inr rfl) fun e₃ h₃ => hleave ?_
    exact (h₁.trans (h₂.mono ⟨rfl, rfl, hle.held, hle.refs⟩)).trans (h₃.mono hle)
  · have h₂ := h₁.trans (h₂.mono ⟨rfl, rfl, hle.held, hle.refs⟩)
    -- the reference of the thread goes to the file
    refine runs_unlock (g := { Tok.start p m with claim := .pending f }) (fun _ => rfl) rfl fun e₃
      h₃ => ?_
    have h₃ := h₂.trans (h₃.mono ⟨rfl, rfl, fun _ h => h, (Tok.le_addRef x).refs⟩)
    refine runs_files (fun _ => ⟨rfl, rfl, rfl, rfl⟩) fun e₄ _ =>
      ⟨_, .publish f x rfl ?_ rfl, fun e₅ h₅ => ?_⟩
    · rw [Tok.addRef_refs]
      simp
    · have htok : { ((Tok.addRef { Tok.start p m with claim := .pending f } x).dropRef x) with
          claim := .none } = Tok.start p m := by
        rw [Tok.dropRef_addRef]
        rfl
      rw [htok]
      exact (h₃.trans (h₅.mono ⟨rfl, rfl, fun _ h => h, (Tok.le_addRef x).refs⟩)).runs_ret hm howned

/-! ## Calls that lock one inode at a time -/

theorem runs_sysOpen [IsStrictOrder ℕ R] {path : Name}
    {omode : UInt32} (hm : m ≠ .idle) (howned : e.owned p) :
    Runs R proc (sysOpen p path omode) (.start p m) e := by
  unfold sysOpen
  split_ifs
  · exact runs_create (g := .start p m) (fun _ => rfl) rfl hm howned
      (fun e₁ h₁ => h₁.runs_ret hm howned)
      fun x e₁ h₁ => runs_openFile hm ((h₁.cwd hm).2.trans howned)
  · refine runs_namex (g := .start p m) (fun _ => rfl) hm howned
      (fun e₁ h₁ => h₁.runs_ret hm howned)
      fun x _ e₁ h₁ _ => ?_
    refine runs_enter (fun _ => rfl) fun e₂ h₂ _ => runs_read fun e₃ hr₃ => ?_
    have h₃ := (h₁.trans (h₂.mono (Tok.le_addRef x))).trans
      ((Keeps.of_rely hr₃).mono ((Tok.le_addRef x).trans (Tok.le_take x)))
    split_ifs
    · exact runs_leave (fun _ => rfl) fun e₄ h₄ => (h₃.trans h₄).runs_ret hm howned
    · exact runs_openFile hm ((h₃.cwd hm).2.trans howned)

theorem runs_sysCreate [IsStrictOrder ℕ R] {path : Name}
    {type : FileType} (hm : m ≠ .idle) (howned : e.owned p) :
    Runs R proc (sysCreate p path type) (.start p m) e :=
  runs_create (g := .start p m) (fun _ => rfl) rfl hm howned
    (fun _ h₁ => h₁.runs_ret hm howned)
    fun _ _ h₁ => runs_leave (fun _ => rfl) fun _ h₂ => (h₁.trans h₂).runs_ret hm howned

theorem runs_exec {path : Name} (hm : m ≠ .idle) (howned : e.owned p) :
    Runs R proc (exec p path) (.start p m) e := by
  refine runs_namex (g := .start p m) (fun _ => rfl) hm howned (fun e₁ h₁ => h₁.runs_ret hm howned)
    fun x _ e₁ h₁ _ => ?_
  refine runs_enter (fun _ => rfl) fun e₂ h₂ _ => runs_leave (fun _ => rfl) fun e₃ h₃ => ?_
  exact ((h₁.trans (h₂.mono (Tok.le_addRef x))).trans h₃).runs_ret hm howned

theorem runs_sysClose {fd : Fin NOFILE} (howned : e.owned p) :
    Runs R proc (sysClose p fd) (.start p .sole) e := by
  have hm : Mode.sole ≠ .idle := by decide
  refine runs_read fun e₁ hr₁ => ?_
  have h₁ := Keeps.of_rely hr₁
  cases hf : e₁.ofile p fd with
  | none => exact h₁.runs_ret hm howned
  | some f =>
    refine runs_files (fun _ => ⟨rfl, rfl, rfl, rfl⟩) fun e₂ hr₂ => ?_
    have hf₂ : e₂.ofile p fd = some f := (congrFun (hr₂.ofile rfl) fd).trans hf
    refine ⟨_, .clearOfile fd f rfl rfl hf₂, fun e₃ h₃ => ?_⟩
    refine runs_fileclose (.inr rfl) (.inl fun _ => rfl) fun e₄ h₄ => ?_
    exact ((h₁.trans h₃).trans h₄).runs_ret hm howned

theorem runs_sysChdir {path : Name} (howned : e.owned p) :
    Runs R proc (sysChdir p path) (.start p .sole) e := by
  have hm : Mode.sole ≠ .idle := by decide
  refine runs_namex (g := .start p .sole) (fun _ => rfl) hm howned
    (fun e₁ h₁ => h₁.runs_ret hm howned)
    fun x _ e₁ h₁ _ => ?_
  refine runs_enter (fun _ => rfl) fun e₂ h₂ _ => runs_read fun e₃ hr₃ => ?_
  have h₃ := (h₁.trans (h₂.mono (Tok.le_addRef x))).trans
    ((Keeps.of_rely hr₃).mono ((Tok.le_addRef x).trans (Tok.le_take x)))
  split_ifs
  · exact runs_leave (fun _ => rfl) fun e₄ h₄ => (h₃.trans h₄).runs_ret hm howned
  refine runs_unlock (fun _ => rfl) rfl fun e₄ h₄ => runs_act fun e₅ hr₅ => ?_
  have h₅ := (h₃.trans (h₄.mono (Tok.le_addRef x))).trans
    ((Keeps.of_rely hr₅).mono (Tok.le_addRef x))
  -- the reference of the current directory becomes one of the thread, and is put
  refine ⟨((Tok.start p .sole).addRef x).addRef (e₅.cwd p),
    { e₅ with owned := Function.update e₅.owned p false }, rfl,
    Move.takeCwd (g := (Tok.start p .sole).addRef x) rfl ((h₅.cwd hm).2.trans howned), ?_⟩
  refine runs_iput (by rw [Tok.addRef_refs]; simp) rfl (fun _ _ y hy => by cases hy) fun e₆ h₆ => ?_
  rw [Tok.dropRef_addRef] at h₆ ⊢
  refine runs_act fun e₇ hr₇ => ?_
  have hnot : e₇.owned p = false :=
    ((hr₇.cwd hm).2.trans (h₆.cwd hm).2).trans (Function.update_self ..)
  refine ⟨_, _, rfl, .setCwd x rfl hnot (by rw [Tok.addRef_refs]; simp) rfl, ?_⟩
  rw [Tok.dropRef_addRef]
  exact runs_ret hm (Function.update_self ..)

/-! ## `link` and `unlink` -/

theorem runs_linkBad {x : Ip} (hm : m ≠ .idle) (howned : e.owned p) :
    Runs R proc (linkBad x) ((Tok.start p m).addRef x) e := by
  have hle : (Tok.start p m).Le (((Tok.start p m).addRef x).take x) :=
    (Tok.le_addRef x).trans (Tok.le_take x)
  refine runs_enter (fun _ => rfl) fun e₁ h₁ _ => runs_nlink (· - 1) (by simp)
    fun e₂ e₃ hr₂ h₃ => ?_
  refine runs_leave (fun _ => rfl) fun e₄ h₄ => ?_
  exact (((h₁.mono (Tok.le_addRef x)).trans (((Keeps.of_rely hr₂).trans h₃).mono hle)).trans
    h₄).runs_ret hm
    howned

section

variable [IsStrictOrder ℕ R]

theorem runs_linkEntry {dp x : Ip} {name : Name} (hm : m ≠ .idle)
    (howned : e.owned p) (hname : namecmp name dot = false ∧ namecmp name dotdot = false)
    (htype : (e.dinode x).type ≠ none ∧ (e.dinode x).type ≠ some .dir) : Runs R proc (.read fun s =>
        dirlink dp name (s.icache x).inum fun
          | false => iunlockput false dp (linkBad x)
          | true => iunlockput false dp (iput false x ret))
      ((((Tok.start p m).addRef x).addRef dp).take dp) e := by
  have hle : (Tok.start p m).Le ((((Tok.start p m).addRef x).addRef dp).take dp) :=
    (Tok.le_addRef x).trans ((Tok.le_addRef dp).trans (Tok.le_take dp))
  have hheld : ((((Tok.start p m).addRef x).addRef dp).take dp).held dp := by simp
  have hx : 0 < ((((Tok.start p m).addRef x).addRef dp).take dp).refs x := by
    simp only [Tok.take, Tok.addRef_refs, if_true]
    omega
  refine runs_read fun e₁ hr₁ => ?_
  have h₁ := Keeps.of_rely hr₁
  refine runs_dirlink (fun e' => e'.dots (e'.icache dp).inum) hheld
    (fun y e₂ _ hdir _ hnamed z hz => ?_) (fun e₂ h₂ _ _ => ⟨le_rfl, fun _ => rfl, ?_⟩)
    (fun e₂ h₂ => ?_)
    fun e₂ i e₃ h₂ _ hw => ?_
  · obtain rfl : z = dp := by
      by_contra hzd
      simp [Tok.start, hzd] at hz
    exact hnamed.lt hdir (fun h => by simp [hname.1] at h) fun h => by simp [hname.2] at h
  · refine .inr (.inl (.inl ?_))
    have hinum := h₂.inum x hx
    have ht := (h₁.trans h₂).type x hx htype.1
    rw [Fs.dinode, hinum] at ht
    rw [ht]
    exact htype.2
  · refine runs_leave (fun _ => rfl) fun e₃ h₃ => runs_linkBad hm ?_
    exact ((h₃.cwd hm).2.trans ((h₁.trans h₂).cwd hm).2).trans howned
  · refine runs_leave (fun _ => rfl) fun e₄ h₄ => ?_
    refine runs_iput (by rw [Tok.addRef_refs]; simp) rfl (fun _ _ y hy => by cases hy) fun e₅ h₅ =>
      ?_
    rw [Tok.dropRef_addRef] at h₅ ⊢
    refine runs_ret hm ?_
    exact ((h₅.cwd hm).2.trans ((h₄.cwd hm).2.trans ((hw.keeps.cwd hm).2.trans
      ((h₁.trans h₂).cwd hm).2))).trans howned

theorem runs_linkNew {x : Ip} {new : Name} (hm : m ≠ .idle) (howned : e.owned p)
    (hnew : ∀ name, (pathElems new).getLast? = some name →
      namecmp name dot = false ∧ namecmp name dotdot = false)
    (htype : (e.dinode x).type ≠ none ∧ (e.dinode x).type ≠ some .dir) : Runs R proc
      (nameiparent p new fun
        | none => linkBad x
        | some (dp, name) =>
          ilock dp <|
          .read fun s =>
          dirlink dp name (s.icache x).inum fun
            | false => iunlockput false dp (linkBad x)
            | true => iunlockput false dp (iput false x ret))
      ((Tok.start p m).addRef x) e := by
  have hx : 0 < ((Tok.start p m).addRef x).refs x := by rw [Tok.addRef_refs]; simp
  refine runs_namex (g := (Tok.start p m).addRef x) (fun _ => rfl) hm howned
    (fun e₁ h₁ => runs_linkBad hm ((h₁.cwd hm).2.trans howned)) fun dp name e₁ h₁ hlast => ?_
  refine runs_enter (fun _ => rfl) fun e₂ h₂ _ => ?_
  have h₂ := h₁.trans (h₂.mono (Tok.le_addRef dp))
  refine runs_linkEntry hm ((h₂.cwd hm).2.trans howned) (hnew name (hlast rfl)) ?_
  rw [h₂.type x hx htype.1]
  exact htype

theorem runs_sysLink {old new : Name} (hm : m ≠ .idle) (howned : e.owned p)
    (hnew : ∀ name, (pathElems new).getLast? = some name →
      namecmp name dot = false ∧ namecmp name dotdot = false) :
    Runs R proc (sysLink p old new) (.start p m) e := by
  refine runs_namex (g := .start p m) (fun _ => rfl) hm howned (fun e₁ h₁ => h₁.runs_ret hm howned)
    fun x _ e₁ h₁ _ => ?_
  have hle : (Tok.start p m).Le (((Tok.start p m).addRef x).take x) :=
    (Tok.le_addRef x).trans (Tok.le_take x)
  have hheld : (((Tok.start p m).addRef x).take x).held x := by simp
  have hx : 0 < ((Tok.start p m).addRef x).refs x := by rw [Tok.addRef_refs]; simp
  refine runs_enter (fun _ => rfl) fun e₂ h₂ ht₂ => runs_read fun e₃ hr₃ => ?_
  have h₃ := (h₁.trans (h₂.mono (Tok.le_addRef x))).trans ((Keeps.of_rely hr₃).mono hle)
  have ht₃ := (Keeps.of_rely hr₃).type_eq hheld ht₂
  split_ifs with hdir
  · exact runs_leave (fun _ => rfl) fun e₄ h₄ => (h₃.trans h₄).runs_ret hm howned
  refine runs_nlink (· + 1) hheld fun e₄ e₅ hr₄ h₅ => ?_
  have h₅ := (Keeps.of_rely hr₄).trans h₅
  have ht₅ := h₅.type_eq hheld (ht₃ ▸ ht₂)
  have htype : (e₅.dinode x).type ≠ none ∧ (e₅.dinode x).type ≠ some .dir :=
    ht₅ ▸ ⟨ht₃ ▸ ht₂, hdir⟩
  have h₅ := h₃.trans (h₅.mono hle)
  -- the second path, with a reference to the inode
  have hpath : ∀ e₆, Keeps R ((Tok.start p m).addRef x) e₅ e₆ →
      Runs R proc _ ((Tok.start p m).addRef x) e₆ := fun e₆ h₆ =>
    runs_linkNew hm ((h₆.cwd hm).2.trans ((h₅.cwd hm).2.trans howned)) hnew
      (h₆.type x hx htype.1 ▸ htype)
  exact runs_unlock (fun _ => rfl) (hpath e₅ (.of_eq h₅.good (fun _ _ => rfl) rfl rfl rfl rfl
    (fun _ h => h) ⟨rfl, rfl⟩)).1 hpath

theorem runs_unlinkEntry {dp x : Ip} {off : ℕ} (hm : m ≠ .idle)
    (howned : e.owned p) (hlt : e.Lt R dp x) :
    Runs R proc (unlinkEntry dp x off) ((Tok.start p m).both dp x) e := by
  have hfree : ∀ y, (Tok.start p m).held y = false := fun _ => rfl
  have hne : dp ≠ x := fun h => World.Lt.irrefl (h ▸ hlt)
  have hdp : ((Tok.start p m).both dp x).held dp := (Tok.held_both hfree).2 (.inl rfl)
  have hstart : (Tok.start p m).Le (((Tok.start p m).addRef x).take x) :=
    (Tok.le_addRef x).trans (Tok.le_take x)
  unfold unlinkEntry
  refine runs_act fun e₁ hr₁ => ?_
  obtain ⟨e₂, hfs, hmv, hw⟩ := exists_modify hr₁ hdp
    (fun i => { i with entries := i.entries.set off ⟨0, []⟩ }) (e₁.dots (e₁.icache dp).inum) rfl
    (fun _ => rfl) fun hdir de hde => by
      rcases List.mem_or_eq_of_mem_set hde with hold | rfl
      · exact hr₁.good.ranked _ hdir de hold
      · exact .inl rfl
  refine ⟨_, e₂, hfs, hmv, ?_⟩
  have h₂ : Keeps R (.start p m) e e₂ := ((Keeps.of_rely hr₁).mono Tok.le_both).trans
    (hw.keeps.mono ⟨rfl, rfl, fun y hy => by simp [hfree] at hy, Tok.le_both.refs⟩)
  -- from here on the directory is put and the link count of the inode drops
  have hend : ∀ e₃, Keeps R ((Tok.start p m).both dp x) e₂ e₃ → Runs R proc
      (iunlockput true dp <| .act (fun s => s.modify x fun i => { i with nlink := i.nlink - 1 })
        fun _ =>
        iunlockput false x ret) ((Tok.start p m).both dp x) e₃ := by
    intro e₃ h₃
    refine runs_iunlockput Tok.refs_both_dir hdp (fun h => nomatch h) fun e₄ h₄ => ?_
    rw [Tok.both_put_dir hfree hne] at h₄ ⊢
    refine runs_nlink (· - 1) (by simp) fun e₅ e₆ hr₅ h₆ => ?_
    refine runs_leave hfree fun e₇ h₇ => ?_
    exact ((((h₂.trans (h₃.mono Tok.le_both)).trans (h₄.mono hstart)).trans
      (((Keeps.of_rely hr₅).trans h₆).mono hstart)).trans h₇).runs_ret hm howned
  by_cases hdir : (e₁.dinode x).type = some .dir
  · simp only [if_pos hdir]
    exact runs_nlink (· - 1) hdp fun e₃ e₄ hr₃ h₄ => hend e₄ ((Keeps.of_rely hr₃).trans h₄)
  · simp only [if_neg hdir]
    exact runs_read fun e₃ hr₃ => hend e₃ (.of_rely hr₃)

theorem runs_sysUnlink {path : Name} (hm : m ≠ .idle) (howned : e.owned p) :
    Runs R proc (sysUnlink p path) (.start p m) e := by
  have hfree : ∀ y, (Tok.start p m).held y = false := fun _ => rfl
  refine runs_namex (g := .start p m) hfree hm howned (fun e₁ h₁ => h₁.runs_ret hm howned)
    fun dp name e₁ h₁ _ => ?_
  have hle : (Tok.start p m).Le (((Tok.start p m).addRef dp).take dp) :=
    (Tok.le_addRef dp).trans (Tok.le_take dp)
  have hheld : (((Tok.start p m).addRef dp).take dp).held dp := by simp
  refine runs_enter hfree fun e₂ h₂ _ => ?_
  have h₂ := h₁.trans (h₂.mono (Tok.le_addRef dp))
  split_ifs with hname
  · exact runs_leave hfree fun e₃ h₃ => (h₂.trans h₃).runs_ret hm howned
  rw [not_or] at hname
  refine runs_dirlookup hheld (fun e₃ h₃ _ _ => runs_leave hfree fun e₄ h₄ =>
    ((h₂.trans (h₃.mono hle)).trans h₄).runs_ret hm howned) fun x off e₃ h₃ hdir _ hnamed => ?_
  have hlt := hnamed.lt hdir (absurd · hname.1) (absurd · hname.2)
  have h₃' := h₂.trans (h₃.mono hle)
  have hx : 0 < ((((Tok.start p m).addRef dp).take dp).addRef x).refs
    x := by rw [Tok.addRef_refs]; simp
  have hheld' : ((((Tok.start p m).addRef dp).take dp).addRef x).held dp := hheld
  refine runs_ilock hx (fun e₄ h₄ z hz => ?_) fun e₄ h₄ _ => ?_
  · obtain rfl : z = dp := by
      by_contra hzd
      simp [Tok.start, hzd] at hz
    exact h₄.lt h₃.good hheld hx hlt
  change Runs R proc _ ((Tok.start p m).both dp x) e₄
  have hdp : ((Tok.start p m).both dp x).held dp := (Tok.held_both hfree).2 (.inl rfl)
  have hxh : ((Tok.start p m).both dp x).held x := (Tok.held_both hfree).2 (.inr rfl)
  have hlt₄ := h₄.lt h₃.good hheld' hx hlt
  have h₄' := h₃'.trans (h₄.mono (hle.trans (Tok.le_addRef x)))
  refine runs_read fun e₅ hr₅ => ?_
  have hlt₅ := (Keeps.of_rely hr₅).lt h₄.good hdp Tok.refs_both hlt₄
  have h₅ := h₄'.trans ((Keeps.of_rely hr₅).mono Tok.le_both)
  have hne : dp ≠ x := fun h => World.Lt.irrefl (h ▸ hlt₅)
  split_ifs
  · exact runs_stop
  · -- a directory that is not empty: both are put, the inode first
    refine runs_iunlockput Tok.refs_both hxh (fun _ e₆ h₆ z hz => ?_) fun e₆ h₆ => ?_
    · have hzdp : z = dp := by
        rcases (Tok.held_both hfree).1 ((Tok.give_le x).held z hz) with h | h
        · exact h
        · simp [h, Tok.give] at hz
      subst hzdp
      exact h₆.lt hr₅.good hz Tok.refs_both hlt₅
    · rw [Tok.both_put hfree hne] at h₆ ⊢
      exact runs_leave hfree fun e₇ h₇ => ((h₅.trans (h₆.mono hle)).trans h₇).runs_ret hm howned
  · exact runs_unlinkEntry hm ((h₅.cwd hm).2.trans howned) hlt₅

end

/-! ## All calls -/

/-- `chdir` and `close` drop what belongs to the process. -/
def Call.sole : Call → Bool
  | .chdir _ | .close _ => true
  | _ => false

/-- The second path of a `link` does not end in `.` or `..`. -/
def Call.linkOk : Call → Bool
  | .link _ new => (pathElems new).getLast?.all fun name => !namecmp name dot &&
    !namecmp name dotdot
  | _ => true

def Call.mode (c : Call) : Mode := if c.sole then .sole else .shared

theorem Call.mode_ne_idle (c : Call) : c.mode ≠ .idle := by
  unfold Call.mode
  split_ifs <;> decide

theorem Call.runs [IsStrictOrder ℕ R] (c : Call) (hlink : c.linkOk) (howned : e.owned p) :
    Runs R proc (c.code p) (.start p c.mode) e := by
  have hm := c.mode_ne_idle
  cases c with
  | «open» path omode => exact runs_sysOpen hm howned
  | link old new =>
    refine runs_sysLink hm howned fun name hname => ?_
    simpa [Call.linkOk, hname] using hlink
  | unlink path => exact runs_sysUnlink hm howned
  | mkdir path => exact runs_sysCreate hm howned
  | mknod path => exact runs_sysCreate hm howned
  | chdir path => exact runs_sysChdir howned
  | close fd => exact runs_sysClose howned
  | exec path => exact runs_exec hm howned

end Rules

end Xv6.Ilock
