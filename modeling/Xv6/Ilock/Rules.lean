import Xv6.Ilock.Logic

/-!
# Rules for the functions of `fs.c`

What a thread must own to call a function, and what holds where it goes on.  `Keeps g` says that
between two moments nothing changed that a thread with token `g` relies on, by the other threads or
by its own moves.
-/

namespace Xv6.Ilock

open LockProg Function

variable {P T : Type} {R : ℕ → ℕ → Prop}

attribute [local simp] Fs.setCached Fs.modify Fs.addRef

/-! ## What stays the same -/

/-- Nothing has changed that a thread with token `g` relies on. -/
structure Keeps (R : ℕ → ℕ → Prop) (g : Tok P) (e e' : World P) : Prop where
  good : e'.Good R
  inum : ∀ x, 0 < g.refs x → (e'.icache x).inum = (e.icache x).inum
  type : ∀ x, 0 < g.refs x → (e.dinode x).type ≠ none → (e'.dinode x).type = (e.dinode x).type
  held : ∀ x, g.held x → (e'.icache x).inum = (e.icache x).inum ∧
    ((e.dinode x).type ≠ none → (e'.dinode x).type = (e.dinode x).type ∧
      (e'.dinode x).entries = (e.dinode x).entries ∧
      e'.gen (e.icache x).inum = e.gen (e.icache x).inum ∧
      e'.dots (e.icache x).inum = e.dots (e.icache x).inum ∧
      (e.fresh (e.icache x).inum = false → e'.fresh (e.icache x).inum = false))
  gen : ∀ i, (e'.inode i).type = some .dir →
    ((e.inode i).type = some .dir ∧ e'.gen i = e.gen i) ∨ e.clock ≤ e'.gen i
  clock : e.clock ≤ e'.clock
  cwd : g.mode ≠ .idle → e'.cwd g.p = e.cwd g.p ∧ e'.owned g.p = e.owned g.p

/-- A thread with token `g'` owns what one with token `g` does. -/
structure Tok.Le (g g' : Tok P) : Prop where
  p : g'.p = g.p
  mode : g'.mode = g.mode
  held : ∀ x, g.held x → g'.held x
  refs : ∀ x, 0 < g.refs x → 0 < g'.refs x

namespace Tok

variable {g : Tok P} {x : Ip}

theorem le_addRef (x : Ip) : g.Le (g.addRef x) :=
  ⟨rfl, rfl, fun _ h => h, fun y h => by rw [addRef_refs]; omega⟩

theorem le_take (x : Ip) : g.Le (g.take x) :=
  ⟨rfl, rfl, fun y h => by by_cases hy : y = x <;> simp [take, hy, h], fun _ h => h⟩

theorem give_le (x : Ip) : (g.give x).Le g :=
  ⟨rfl, rfl, fun y h => by by_cases hy : y = x <;> simp_all [give], fun _ h => h⟩

theorem dropRef_le (x : Ip) : (g.dropRef x).Le g :=
  ⟨rfl, rfl, fun _ h => h, fun y h => by
    by_cases hy : y = x
    · subst hy
      simp only [dropRef, update_self] at h
      omega
    · simpa [dropRef, hy] using h⟩

theorem Le.trans {g g' g'' : Tok P} (h : g.Le g') (h' : g'.Le g'') : g.Le g'' :=
  ⟨h'.p.trans h.p, h'.mode.trans h.mode, fun x hx => h'.held x (h.held x hx),
    fun x hx => h'.refs x (h.refs x hx)⟩

theorem give_take (h : g.held x = false) : (g.take x).give x = g := by
  simp [take, give, ← h]

theorem dropRef_addRef (x : Ip) : (g.addRef x).dropRef x = g := by
  simp [addRef, dropRef]

end Tok

theorem Rely.ref_pos {g : Tok P} {e e' : World P} (h : Rely R g e e')
    (hx : 0 < g.refs x ∨ g.held x) : 0 < (e'.icache x).ref := by
  rcases hx with hx | hx
  · have := (h.refs x hx).2.1
    omega
  · exact h.heldRef x hx

namespace Keeps

variable {g g' : Tok P} {e e' e'' : World P}

theorem mono (h : Keeps R g e e') (hle : g'.Le g) : Keeps R g' e e' :=
  ⟨h.good, fun x hx => h.inum x (hle.refs x hx), fun x hx => h.type x (hle.refs x hx),
    fun x hx => h.held x (hle.held x hx), h.gen, h.clock, fun hm => by
      rw [← hle.p]
      exact h.cwd (by rw [hle.mode]; exact hm)⟩

theorem trans (h : Keeps R g e e') (h' : Keeps R g e' e'') : Keeps R g e e'' := by
  refine ⟨h'.good, fun x hx => (h'.inum x hx).trans (h.inum x hx), fun x hx htype => ?_,
    fun x hx => ?_, fun i hi => ?_, h.clock.trans h'.clock,
    fun hm => ⟨(h'.cwd hm).1.trans (h.cwd hm).1, (h'.cwd hm).2.trans (h.cwd hm).2⟩⟩
  · have ht := h.type x hx htype
    rw [h'.type x hx (ht ▸ htype), ht]
  · obtain ⟨hinum, hsame⟩ := h.held x hx
    obtain ⟨hinum', hsame'⟩ := h'.held x hx
    refine ⟨hinum'.trans hinum, fun htype => ?_⟩
    obtain ⟨ht, hd, hg, hs, hf⟩ := hsame htype
    obtain ⟨ht', hd', hg', hs', hf'⟩ := hsame' (ht ▸ htype)
    rw [hinum] at hg' hs' hf'
    exact ⟨ht'.trans ht, hd'.trans hd, hg'.trans hg, hs'.trans hs, fun h => hf' (hf h)⟩
  · rcases h'.gen i hi with ⟨hd, hg⟩ | hc
    · rcases h.gen i hd with ⟨hd', hg'⟩ | hc'
      · exact .inl ⟨hd', hg.trans hg'⟩
      · exact .inr (hg ▸ hc')
    · exact .inr (h.clock.trans hc)

theorem of_rely (h : Rely R g e e') : Keeps R g e e' :=
  ⟨h.good, fun x hx => (h.refs x hx).1, fun x hx => (h.refs x hx).2.2,
    fun x hx => ⟨(h.held x hx).1.1, fun htype => by
      obtain ⟨hi, hg, hd⟩ := (h.held x hx).2 htype
      exact ⟨by rw [hi], by rw [hi], hg, hd⟩⟩, h.gen, h.clock, h.cwd⟩

theorem of_eq (hgood : e'.Good R)
    (hinum : ∀ x, 0 < g.refs x ∨ g.held x → (e'.icache x).inum = (e.icache x).inum)
    (hinode : e'.inode = e.inode) (hgen : e'.gen = e.gen) (hdots : e'.dots = e.dots)
    (hclock : e'.clock = e.clock) (hfresh : ∀ n, e.fresh n = false → e'.fresh n = false)
    (hcwd : e'.cwd g.p = e.cwd g.p ∧ e'.owned g.p = e.owned g.p) : Keeps R g e e' := by
  refine ⟨hgood, fun x hx => hinum x (.inl hx), fun x hx _ => ?_,
    fun x hx => ⟨hinum x (.inr hx), fun _ => ?_⟩, fun i hi => .inl ?_, hclock.ge, fun _ => hcwd⟩
  · rw [Fs.dinode, hinum x (.inl hx), hinode]
    rfl
  · rw [Fs.dinode, hinum x (.inr hx), hinode, hgen, hdots]
    exact ⟨rfl, rfl, rfl, rfl, hfresh _⟩
  · rw [hinode] at hi
    rw [hgen]
    exact ⟨hi, rfl⟩

theorem type_eq (h : Keeps R g e e') (hx : g.held x) (htype : (e.dinode x).type ≠ none) :
    (e'.dinode x).type = (e.dinode x).type :=
  ((h.held x hx).2 htype).1

theorem lt (h : Keeps R g e e') (he : e.Good R) {x y : Ip} (hx : g.held x) (hy : 0 < g.refs y)
    (hlt : e.Lt R x y) : e'.Lt R x y := by
  obtain ⟨hinum, hsame⟩ := h.held x hx
  obtain ⟨htype, -, hgen, -, -⟩ := hsame (by simp [hlt.1])
  refine ⟨htype.trans hlt.1, ?_⟩
  rw [hinum, h.inum y hy]
  exact hlt.2.mono hgen (he.gen _) (h.gen _)

theorem write {i : Inode} {v : Bool} {d : ℕ} (he : e.Good R)
    (hpos : ∀ y, 0 < g.refs y ∨ g.held y → 0 < (e.icache y).ref) (hx : 0 < (e.icache x).ref)
    (hheld : g.held x = false) (htype : i.type = (e.dinode x).type ∨ (i.type = none ∧ g.refs x = 0))
    (hinode : e'.inode = update e.inode (e.icache x).inum i)
    (hicache : e'.icache = update e.icache x { e.icache x with valid := v })
    (hdots : e'.dots = update e.dots (e.icache x).inum d) (hgen : e'.gen = e.gen)
    (hclock : e'.clock = e.clock) (hfresh : e'.fresh = e.fresh) (hcwd : e'.cwd = e.cwd)
    (howned : e'.owned = e.owned) (hgood : e'.Good R) : Keeps R g e e' := by
  have hinum : ∀ y, (e'.icache y).inum = (e.icache y).inum := fun y => by
    by_cases hyx : y = x <;> simp [hicache, hyx]
  refine ⟨hgood, fun y _ => hinum y, fun y hy _ => ?_, fun y hy => ⟨hinum y, fun _ => ?_⟩,
    fun j hj => .inl ?_, hclock.ge, fun _ => by rw [hcwd, howned]; exact ⟨rfl, rfl⟩⟩
  · rw [Fs.dinode, hinum, hinode]
    by_cases heq : (e.icache y).inum = (e.icache x).inum
    · obtain rfl := he.unique y x (hpos y (.inl hy)) hx heq
      rw [update_self]
      exact htype.resolve_right fun h => by omega
    · rw [update_of_ne heq]
      rfl
  · have hne : (e.icache y).inum ≠ (e.icache x).inum := fun heq => by
      rw [he.unique y x (hpos y (.inr hy)) hx heq, hheld] at hy
      cases hy
    simp only [Fs.dinode, hinum, hinode, hgen, hdots, hfresh, update_of_ne hne, imp_self, and_self]
  · rw [hgen]
    rw [hinode] at hj
    by_cases hjx : j = (e.icache x).inum
    · subst hjx
      rw [update_self] at hj
      rcases htype with ht | ⟨ht, -⟩
      · exact ⟨ht ▸ hj, rfl⟩
      · simp [ht] at hj
    · rw [update_of_ne hjx] at hj
      exact ⟨hj, rfl⟩

theorem of_give (h : Keeps R (g.give x) e e') (hinum : (e'.icache x).inum = (e.icache x).inum)
    (hsame : (e.dinode x).type ≠ none → (e'.dinode x).type = (e.dinode x).type ∧
    (e'.dinode x).entries = (e.dinode x).entries ∧ e'.gen (e.icache x).inum = e.gen
    (e.icache x).inum ∧ e'.dots (e.icache x).inum = e.dots (e.icache x).inum ∧
      (e.fresh (e.icache x).inum = false → e'.fresh (e.icache x).inum = false)) : Keeps R g e
      e' := by
  refine ⟨h.good, h.inum, h.type, fun y hy => ?_, h.gen, h.clock, h.cwd⟩
  by_cases hyx : y = x
  · exact hyx ▸ ⟨hinum, hsame⟩
  · exact h.held y (by simpa [Tok.give, hyx] using hy)

theorem alloc {n : ℕ} {type : FileType} (hn : (e.inode n).type = none)
    (hgood : World.Good R { e with
      inode := update e.inode n ⟨some type, 0, []⟩
      fresh := update e.fresh n true
      gen := update e.gen n e.clock
      clock := e.clock + 1
      dots := update e.dots n 0 }) : Keeps R g e { e with
    inode := update e.inode n ⟨some type, 0, []⟩
    fresh := update e.fresh n true
    gen := update e.gen n e.clock
    clock := e.clock + 1
    dots := update e.dots n 0 } := by
  refine ⟨hgood, fun _ _ => rfl, fun x _ htype => ?_, fun x _ => ⟨rfl, fun htype => ?_⟩, fun i hi => ?_,
    Nat.le_succ _, fun _ => ⟨rfl, rfl⟩⟩
  · have hne : (e.icache x).inum ≠ n := fun h => htype (by rw [Fs.dinode, h, hn])
    simp [Fs.dinode, hne]
  · have hne : (e.icache x).inum ≠ n := fun h => htype (by rw [Fs.dinode, h, hn])
    simp [Fs.dinode, hne]
  · by_cases hin : i = n
    · subst hin
      exact .inr (by simp)
    · simp only [update_of_ne hin] at hi ⊢
      exact .inl ⟨hi, trivial⟩

end Keeps

theorem icacheFind_some {s : Fs P} {n : ℕ} (h : icacheFind s n = some x) :
    0 < (s.icache x).ref ∧ (s.icache x).inum = n := by
  simpa using List.find?_some h

theorem icacheFind_none {s : Fs P} {n : ℕ} (h : icacheFind s n = none) (y : Ip)
    (hy : 0 < (s.icache y).ref) : (s.icache y).inum ≠ n := by
  have := List.find?_eq_none.1 h y (List.mem_finRange y)
  simp only [decide_eq_true_eq, not_and] at this
  exact this hy

theorem icacheEmpty_some {s : Fs P} (h : icacheEmpty s = some x) : (s.icache x).ref = 0 := by
  simpa using List.find?_some h

/-! ## Actions -/

section Rules

variable [Fintype T] [Fintype P] [DecidableEq P] {proc : T → P} {g : Tok P} {e : World P}

/-- The code keeps the discipline and does not begin by taking a lock back. -/
abbrev Runs (R : ℕ → ℕ → Prop) (proc : T → P) (k : Code P) (g : Tok P) (e : World P) : Prop :=
  (discipline R proc).Runs k g e

theorem runs_stop : Runs R proc .stop g e := ⟨rfl, trivial⟩

theorem runs_act {f : Fs P → Fs P} {k : Fs P → Code P}
    (h : ∀ e', Rely R g e e' → ∃ g' e'', e''.toFs = f e'.toFs ∧ Move R g g' e' e'' ∧
      Runs R proc (k e'.toFs) g' e'') : Runs R proc (.act f k) g e := by
  refine ⟨rfl, fun e' he => ?_⟩
  obtain ⟨g', e'', hf, hm, hk⟩ := h e' he
  exact ⟨hk.1, g', e'', hf, hm, hk.2⟩

theorem runs_read {k : Fs P → Code P} (h : ∀ e', Rely R g e e' → Runs R proc (k e'.toFs) g e') :
    Runs R proc (.read k) g e :=
  runs_act fun e' he => ⟨g, e', rfl, .look, h e' he⟩

/-- The thread has changed the inode of a locked entry to `i`. -/
structure Wrote (R : ℕ → ℕ → Prop) (g : Tok P) (x : Ip) (i : Inode) (d : ℕ) (e e' : World P) :
Prop where
  keeps : Keeps R (g.give x) e e'
  inum : (e'.icache x).inum = (e.icache x).inum
  dinode : e'.dinode x = i
  gen : e'.gen (e.icache x).inum = e.gen (e.icache x).inum
  dots : e'.dots (e.icache x).inum = d
  fresh : ∀ n, e'.fresh n = e.fresh n

omit [Fintype P] in
theorem exists_modify {e' : World P} (hr : Rely R g e e') (hheld : g.held x)
    (φ : Inode → Inode) (d : ℕ) (htype : (φ (e'.dinode x)).type = (e'.dinode x).type)
    (hfresh : e'.fresh (e'.icache x).inum → d = e'.dots (e'.icache x).inum)
    (hentries : (e'.dinode x).type = some .dir →
      ∀ de ∈ (φ (e'.dinode x)).entries, e'.EntryOk R (e'.icache x).inum d de) :
    ∃ e'' : World P, e''.toFs = e'.modify x φ ∧ Move R g g e' e'' ∧
      Wrote R g x (φ (e'.dinode x)) d e' e'' := by
  have hx := hr.heldRef x hheld
  have hm : Move R g g e' { e' with
      toFs := (e'.modify x fun _ => φ (e'.dinode x)).setCached x { e'.icache x with valid :=
        (e'.icache x).valid }
      dots := update e'.dots (e'.icache x).inum d } :=
    .write x (φ (e'.dinode x)) (e'.icache x).valid d hheld hx
      (fun hv => by rw [htype]; exact hr.good.valid x hx hv) (fun h => ⟨htype, hfresh h⟩)
      (.inl htype)
      fun hdir => hentries (htype ▸ hdir)
  refine ⟨_, ?_, hm, ?_, ?_, ?_, rfl, ?_, fun _ => rfl⟩
  · simp
  · exact .write hr.good (fun y hy => hr.ref_pos (hy.imp_right ((Tok.give_le x).held y))) hx
      (by simp [Tok.give])
      (.inl htype) rfl rfl rfl rfl rfl rfl rfl rfl (hm.good hr.good)
  · simp
  · simp [Fs.dinode]
  · simp

theorem runs_nlink (φ : Int16 → Int16) {k : Fs P → Code P} (hheld : g.held x)
    (hk : ∀ e' e'', Rely R g e e' → Keeps R g e' e'' → Runs R proc (k e'.toFs) g e'') :
    Runs R proc (.act (fun s => s.modify x fun i => { i with nlink := φ i.nlink }) k) g e := by
  refine runs_act fun e' hr => ?_
  obtain ⟨e'', hfs, hm, hw⟩ := exists_modify hr hheld (fun i => { i with nlink := φ i.nlink })
    (e'.dots (e'.icache x).inum) rfl (fun _ => rfl) fun hdir => hr.good.ranked _ hdir
  exact ⟨g, e'', hfs, hm, hk e' e'' hr (hw.keeps.of_give hw.inum fun _ =>
    ⟨by rw [hw.dinode], by rw [hw.dinode], hw.gen, hw.dots, by rw [hw.fresh]; exact id⟩)⟩

/-! ## Locks -/

theorem runs_ilock {k : Code P} (hx : 0 < g.refs x)
    (hlt : ∀ e', Keeps R g e e' → ∀ y, g.held y → e'.Lt R y x)
    (hk : ∀ e', Keeps R g e e' → (e'.dinode x).type ≠ none → Runs R proc k (g.take x) e') :
    Runs R proc (ilock x k) g e := by
  refine runs_read fun e₁ hr₁ => ?_
  split_ifs
  · exact runs_stop
  refine ⟨rfl, hx, rfl, fun e₂ hr₂ => ?_⟩
  have h₂ := (Keeps.of_rely hr₁).trans (.of_rely hr₂)
  refine ⟨fun _ => hlt e₂ h₂, fun _ => (runs_act fun e₃ hr₃ => ?_).2⟩
  have h₃ := h₂.trans ((Keeps.of_rely hr₃).mono (Tok.le_take x))
  have hheld : (g.take x).held x := by simp [Tok.take]
  have hpos := hr₃.heldRef x hheld
  by_cases hno : (e₃.icache x).valid = false ∧ (e₃.dinode x).type = none
  · simp only [if_pos hno]
    exact ⟨_, e₃, rfl, .look, runs_stop⟩
  · simp only [if_neg hno]
    have htype : (e₃.dinode x).type ≠ none := fun ht => by
      refine hno ⟨?_, ht⟩
      by_contra hv
      exact hr₃.good.valid x hpos (by simpa using hv) ht
    have hm : Move R (g.take x) (g.take x) e₃ { e₃ with
        toFs := (e₃.modify x fun _ => e₃.dinode x).setCached x { e₃.icache x with valid := true }
        dots := update e₃.dots (e₃.icache x).inum (e₃.dots (e₃.icache x).inum) } :=
      .write x _ true _ hheld hpos (fun _ => htype) (fun _ => ⟨rfl, rfl⟩) (.inl rfl) fun hdir =>
        hr₃.good.ranked _ hdir
    have hfs : (e₃.modify x fun _ => e₃.dinode x).setCached x { e₃.icache x with valid := true } =
        e₃.setCached x { e₃.icache x with valid := true } := by
      simp [Fs.dinode]
    refine ⟨_, _, hfs, hm, hk _ (h₃.trans (.of_eq (hm.good hr₃.good) (fun y _ => ?_) ?_ rfl ?_ rfl
      (fun _ h => h) ⟨rfl, rfl⟩)) ?_⟩
    · by_cases hyx : y = x <;> simp [hyx]
    · simp [Fs.dinode]
    · simp
    · simpa [Fs.dinode] using htype

theorem runs_iunlock {k : Code P} (hx : g.held x)
    (hback : k.takesBack = none ∨ k.takesBack = some x)
    (hk : ∀ e', Keeps R g e e' → (discipline R proc).Safe k (g.give x) e') :
    Runs R proc (iunlock x k) g e := by
  refine runs_read fun e₁ hr₁ => ?_
  split_ifs
  · exact runs_stop
  · exact ⟨rfl, hx, hback, fun e₂ hr₂ => hk e₂ ((Keeps.of_rely hr₁).trans (.of_rely hr₂))⟩

theorem runs_drop {k : Code P} (hx : 0 < g.refs x) (hnot : g.held x = false)
    (hk : ∀ e', Keeps R (g.dropRef x) e e' → Runs R proc k (g.dropRef x) e') :
    Runs R proc (.release x <| .act (fun s => s.addRef x (-1)) fun _ => k) (g.take x) e := by
  refine ⟨rfl, by simp [discipline, Tok.take], .inl rfl, fun e₁ hr₁ => ?_⟩
  have hg : (discipline R proc).give (g.take x) x = g := Tok.give_take hnot
  rw [hg]
  refine (runs_act fun e₂ hr₂ => ?_).2
  have hm : Move R g (g.dropRef x) e₂ { e₂ with toFs := e₂.addRef x (-1) } := .drop x hx hnot
  refine ⟨_, _, rfl, hm, hk _ ?_⟩
  have h₁ := (Keeps.of_rely hr₁).mono (Tok.le_take x)
  refine ((h₁.trans (.of_rely hr₂)).mono (Tok.dropRef_le x)).trans
    (.of_eq (hm.good hr₂.good) (fun y _ => ?_) rfl rfl rfl rfl (fun _ h => h) ⟨rfl, rfl⟩)
  by_cases hyx : y = x <;> simp [hyx]

theorem safe_iput {now : Bool} {k : Code P} (hx : 0 < g.refs x) (hnot : g.held x = false)
    (hlt : now = false → ∀ e', Keeps R g e e' → ∀ y, g.held y → e'.Lt R y x)
    (hk : ∀ e', Keeps R (g.dropRef x) e e' → Runs R proc k (g.dropRef x) e') :
    (discipline R proc).Safe (iput now x k) g e := by
  refine ⟨hx, rfl, fun e₁ hr₁ => ⟨fun hn => hlt hn e₁ (.of_rely hr₁), fun hguard => ?_⟩⟩
  have h₁ := (Keeps.of_rely hr₁).mono (Tok.dropRef_le x)
  refine (runs_act fun e₂ hr₂ => ?_).2
  have h₂ := h₁.trans ((Keeps.of_rely hr₂).mono ((Tok.dropRef_le x).trans (Tok.le_take x)))
  have hheld : (g.take x).held x := by simp [Tok.take]
  by_cases hlast : (e₂.icache x).valid ∧ (e₂.dinode x).nlink = 0 ∧ (e₂.icache x).ref = 1
  · simp only [if_pos hlast]
    have hpos := hr₂.heldRef x hheld
    -- the inode was there when the lock was taken, and so not new
    obtain ⟨⟨hinum₂, hvalid₂⟩, hsame₂⟩ := hr₂.held x hheld
    have htype₁ := hr₁.good.valid x (hr₁.ref_pos (.inl hx)) (hvalid₂ ▸ hlast.1)
    obtain ⟨-, -, -, hfresh₂⟩ := hsame₂ htype₁
    have hnew : e₂.fresh (e₂.icache x).inum = false := by
      rw [hinum₂]
      exact hfresh₂ (by simpa [discipline] using hguard)
    have hm : Move R (g.take x) (g.take x) e₂ { e₂ with
        toFs := (e₂.modify x fun _ => { e₂.dinode x with type := none, entries := [] }).setCached x
          { e₂.icache x with valid := false }
        dots := update e₂.dots (e₂.icache x).inum (e₂.dots (e₂.icache x).inum) } :=
      .write x _ false _ hheld hpos (fun h => by cases h) (fun h => by simp [hnew] at h)
        (.inr ⟨rfl, hlast.2.2⟩) fun h => by cases h
    -- the reference was the last one, and it goes
    have hnone : (g.dropRef x).refs x = 0 := by
      have hle : (g.refs x : ℤ) ≤ (e₂.icache x).ref := (hr₂.refs x hx).2.1
      have hdrop := g.dropRef_refs hx x
      rw [if_pos rfl] at hdrop
      omega
    refine ⟨_, _, rfl, hm, runs_drop hx hnot fun e' he' => hk e' (h₂.trans (.trans ?_ he'))⟩
    exact .write hr₂.good
      (fun y hy => hr₂.ref_pos (hy.imp ((Tok.dropRef_le x).refs y) ((Tok.le_take x).held y))) hpos
      hnot
      (.inr ⟨rfl, hnone⟩) rfl rfl rfl rfl rfl rfl rfl rfl (hm.good hr₂.good)
  · simp only [if_neg hlast]
    exact ⟨_, e₂, rfl, .look, runs_drop hx hnot fun e' he' => hk e' (h₂.trans he')⟩

theorem runs_iput {k : Code P} (hx : 0 < g.refs x) (hnot : g.held x = false)
    (hlt : ∀ e', Keeps R g e e' → ∀ y, g.held y → e'.Lt R y x)
    (hk : ∀ e', Keeps R (g.dropRef x) e e' → Runs R proc k (g.dropRef x) e') :
    Runs R proc (iput false x k) g e :=
  ⟨rfl, safe_iput hx hnot (fun _ => hlt) hk⟩

theorem runs_iunlockput {now : Bool} {k : Code P} (hx : 0 < g.refs x) (hheld : g.held x)
    (hlt : now = false → ∀ e', Keeps R (g.give x) e e' → ∀ y, (g.give x).held y → e'.Lt R y x)
    (hk : ∀ e', Keeps R ((g.give x).dropRef x) e e' → Runs R proc k ((g.give x).dropRef x) e') :
    Runs R proc (iunlockput now x k) g e := by
  refine runs_iunlock hheld ?_ fun e₁ h₁ => ?_
  · cases now
    · exact .inl rfl
    · exact .inr rfl
  · have h₁ := h₁.mono (Tok.give_le x)
    exact safe_iput hx (by simp [Tok.give]) (fun hn e₂ h₂ => hlt hn e₂ (h₁.trans h₂))
      fun e₂ h₂ => hk e₂ ((h₁.mono (Tok.dropRef_le x)).trans h₂)

/-! ## References -/

theorem runs_iget {n : ℕ} {k : Ip → Code P}
    (hk : ∀ x e', Keeps R g e e' → (e'.icache x).inum = n → Runs R proc (k x) (g.addRef x) e') :
    Runs R proc (iget n k) g e := by
  refine runs_act fun e' hr => ?_
  cases hfind : icacheFind e'.toFs n with
  | some x =>
    obtain ⟨hx, hn⟩ := icacheFind_some hfind
    have hm : Move R g (g.addRef x) e' { e' with toFs := e'.addRef x 1 } := .gain x hx
    refine ⟨_, _, rfl, hm, hk x _ ((Keeps.of_rely hr).trans
      (.of_eq (hm.good hr.good) (fun y _ => ?_) rfl rfl rfl rfl (fun _ h => h) ⟨rfl, rfl⟩)) ?_⟩
    · by_cases hyx : y = x <;> simp [hyx]
    · simpa using hn
  | none =>
    cases hempty : icacheEmpty e'.toFs with
    | some x =>
      have hx := icacheEmpty_some hempty
      have hm : Move R g (g.addRef x) e' { e' with toFs := e'.setCached x ⟨n, 1, false⟩ } :=
        .load x n hx (icacheFind_none hfind)
      refine ⟨_, _, rfl, hm, hk x _ ((Keeps.of_rely hr).trans
        (.of_eq (hm.good hr.good) (fun y hy => ?_) rfl rfl rfl rfl (fun _ h => h) ⟨rfl, rfl⟩)) ?_⟩
      · have hyx : y ≠ x := fun hyx => by
          have := hr.ref_pos hy
          rw [hyx] at this
          omega
        simp [hyx]
      · simp
    | none => exact ⟨_, _, rfl, .look, runs_stop⟩

theorem runs_idup_cwd {k : Ip → Code P} (hmode : g.mode ≠ .idle) (howned : e.owned g.p)
    (hk : ∀ x e', Keeps R g e e' → Runs R proc (k x) (g.addRef x) e') :
    Runs R proc (.read fun s => idup (s.cwd g.p) (k (s.cwd g.p))) g e := by
  refine runs_read fun e₁ hr₁ => runs_act fun e₂ hr₂ => ?_
  have hcwd := (hr₂.cwd hmode).1
  have hx : 0 < (e₂.icache (e₁.cwd g.p)).ref := by
    rw [← hcwd]
    exact hr₂.cwdRef hmode (by rw [(hr₂.cwd hmode).2, (hr₁.cwd hmode).2, howned])
  have hm : Move R g (g.addRef (e₁.cwd g.p)) e₂ { e₂ with toFs := e₂.addRef (e₁.cwd g.p) 1 } :=
    .gain _ hx
  refine ⟨_, _, rfl, hm, hk _ _ (((Keeps.of_rely hr₁).trans (.of_rely hr₂)).trans
    (.of_eq (hm.good hr₂.good) (fun y _ => ?_) rfl rfl rfl rfl (fun _ h => h) ⟨rfl, rfl⟩))⟩
  by_cases hyx : y = e₁.cwd g.p <;> simp [hyx]

theorem runs_iallocFrom {type : FileType} {k : Ip → Code P} (n inum : ℕ) {e : World P}
    (hfresh : g.fresh = none)
    (hk : ∀ x e', Keeps R g e e' →
      ((e'.dinode x).type = some .dir → e.clock ≤ e'.gen (e'.icache x).inum) →
      Runs R proc (k x) ((g.setFresh (some (e'.icache x).inum)).addRef x) e') :
    Runs R proc (iallocFrom type k n inum) g e := by
  induction n generalizing inum e with
  | zero => exact runs_stop
  | succ n ih =>
    refine runs_act fun e₁ hr₁ => ?_
    have h₁ := Keeps.of_rely hr₁
    by_cases hfree : (e₁.inode inum).type = none
    · simp only [if_pos hfree]
      have hm : Move R g (g.setFresh (some inum)) e₁ _ := .alloc inum type hfree hfresh
      have h₂ := Keeps.alloc (g := g) hfree (hm.good hr₁.good)
      refine ⟨_, _, rfl, hm, runs_iget fun x e₃ h₃ hx => ?_⟩
      have h₃ : Keeps R g _ e₃ := h₃.mono ⟨rfl, rfl, fun _ h => h, fun _ h => h⟩
      have := hk x e₃ ((h₁.trans h₂).trans h₃) fun hdir => by
        have hclock := hr₁.clock
        rw [Fs.dinode, hx] at hdir
        rw [hx]
        rcases h₃.gen inum hdir with ⟨-, hgen⟩ | hgen
        · simp only [update_self] at hgen
          omega
        · dsimp only at hgen
          omega
      rwa [hx] at this
    · simp only [if_neg hfree]
      exact ⟨g, e₁, rfl, .look, ih (inum + 1) fun x e₂ h₂ hdir =>
        hk x e₂ (h₁.trans h₂) fun h => hr₁.clock.trans (hdir h)⟩

theorem runs_ialloc {type : FileType} {k : Ip → Code P} (hfresh : g.fresh = none)
    (hk : ∀ x e', Keeps R g e e' →
      ((e'.dinode x).type = some .dir → e.clock ≤ e'.gen (e'.icache x).inum) →
      Runs R proc (k x) ((g.setFresh (some (e'.icache x).inum)).addRef x) e') :
    Runs R proc (ialloc type k) g e :=
  runs_read fun _ hr => runs_iallocFrom _ _ hfresh fun x e₂ h₂ hdir =>
    hk x e₂ ((Keeps.of_rely hr).trans h₂) fun h => hr.clock.trans (hdir h)

end Rules

end Xv6.Ilock
