import Xv6.Ilock.Tokens

/-!
# The lock discipline of the calls

Each move keeps the tokens of all threads in step (`Move.joint`) and shows the other threads only
what they rely on (`Move.rely`), so `discipline` is a lawful instance of the logic of `LockProg`.
-/

namespace Xv6.Ilock

open LockProg Tally Function

variable {P T : Type} {R : ℕ → ℕ → Prop}

attribute [local simp] Claim.Counts Fs.setCached Claim.Builds Tok.addRef_refs Fs.modify Tok.dropRef

/-! ## What a move leaves alone -/

/-- What a move of a thread with token `g` does not change. -/
structure Frame (g : Tok P) (e e' : World P) : Prop where
  inum : ∀ x, 0 < (e.icache x).ref → (e'.icache x).inum = (e.icache x).inum
  valid : ∀ x, 0 < (e.icache x).ref → g.held x = false → (e'.icache x).valid = (e.icache x).valid
  inode : ∀ n, (e.inode n).type ≠ none → (∀ x, g.held x → (e.icache x).inum ≠ n) →
    e'.inode n = e.inode n ∧ e'.gen n = e.gen n ∧ e'.dots n = e.dots n
  type : ∀ n, (e.inode n).type ≠ none →
    (∀ x, g.held x → (e.icache x).inum = n → 1 < (e.icache x).ref) →
    (e'.inode n).type = (e.inode n).type
  gen : ∀ i, (e'.inode i).type = some .dir →
    ((e.inode i).type = some .dir ∧ e'.gen i = e.gen i) ∨ e.clock ≤ e'.gen i
  clock : e.clock ≤ e'.clock
  cwd : ∀ q, q ≠ g.p ∨ g.mode ≠ .sole → e'.cwd q = e.cwd q ∧ e'.owned q = e.owned q
  ofile : ∀ q, q ≠ g.p ∨ g.mode = .idle → e'.ofile q = e.ofile q
  fresh : ∀ n, (e.inode n).type ≠ none → e.fresh n = false → e'.fresh n = false

theorem Frame.of_eq {g : Tok P} {e e' : World P}
    (hinum : ∀ x, 0 < (e.icache x).ref → (e'.icache x).inum = (e.icache x).inum ∧
      (e'.icache x).valid = (e.icache x).valid)
    (hinode : e'.inode = e.inode) (hgen : e'.gen = e.gen) (hclock : e'.clock = e.clock)
    (hdots : e'.dots = e.dots)
    (hcwd : ∀ q, q ≠ g.p ∨ g.mode ≠ .sole → e'.cwd q = e.cwd q ∧ e'.owned q = e.owned q)
    (hofile : ∀ q, q ≠ g.p ∨ g.mode = .idle → e'.ofile q = e.ofile q)
    (hfresh : ∀ n, e.fresh n = false → e'.fresh n = false) : Frame g e e' where
  inum x hx := (hinum x hx).1
  valid x hx _ := (hinum x hx).2
  inode n _ _ := by rw [hinode, hgen, hdots]; exact ⟨rfl, rfl, rfl⟩
  type n _ _ := by rw [hinode]
  gen i hi := by
    rw [hinode] at hi
    exact .inl ⟨hi, by rw [hgen]⟩
  clock := hclock.ge
  cwd := hcwd
  ofile := hofile
  fresh n _ := hfresh n

variable [DecidableEq P]

section

variable {g g' : Tok P} {e e' : World P} (h : Move R g g' e e')

include h

theorem Move.frame : Frame g e e' := by
  cases h with
  | write x i v d hheld hx hvalid hfresh htype hentries =>
    refine ⟨fun y _ => ?_, fun y _ hy => ?_, fun n hn hother => ?_, fun n hn href => ?_,
      fun j hj => ?_, le_rfl, fun q _ => ⟨rfl, rfl⟩, fun q _ => rfl, fun _ _ h => h⟩
    · by_cases hy : y = x <;> simp [hy]
    · have hne : y ≠ x := fun h => by simp [h, hheld] at hy
      simp [hne]
    · have hne : n ≠ (e.icache x).inum := fun hx => hother x hheld hx.symm
      simp [hne]
    · by_cases hnx : n = (e.icache x).inum
      · subst hnx
        simp only [Fs.setCached, Fs.modify, update_self]
        exact htype.resolve_right fun h => by simpa [h.2] using href x hheld rfl
      · simp [hnx]
    · refine .inl ⟨?_, rfl⟩
      by_cases hx : j = (e.icache x).inum
      · subst hx
        simp only [Fs.setCached, Fs.modify, update_self] at hj
        rcases htype with ht | ⟨ht, -⟩
        · exact ht ▸ hj
        · rw [ht] at hj
          cases hj
      · simpa [hx] using hj
  | alloc n type hn hfresh =>
    refine ⟨fun y _ => rfl, fun y _ _ => rfl, fun m hm _ => ?_, fun m hm _ => ?_, fun j hj => ?_,
      Nat.le_succ _, fun q _ => ⟨rfl, rfl⟩, fun q _ => rfl, fun m hm h => ?_⟩
    · have hne : m ≠ n := fun h => hm (h ▸ hn)
      simp [hne]
    · have hne : m ≠ n := fun h => hm (h ▸ hn)
      simp [hne]
    · by_cases hjn : j = n
      · subst hjn
        exact .inr (by simp)
      · simp only [update_of_ne hjn] at hj ⊢
        exact .inl ⟨hj, trivial⟩
    · have hne : m ≠ n := fun h => hm (h ▸ hn)
      simpa [hne] using h
  | settle x hfresh =>
    refine .of_eq (fun _ _ => ⟨rfl, rfl⟩) rfl rfl rfl rfl (fun q _ => ⟨rfl, rfl⟩) (fun _ _ => rfl)
      fun n hn => ?_
    by_cases hnx : n = (e.icache x).inum <;> simp [Fs.settle, hnx, hn]
  | gain x hx | drop x hx hheld =>
    refine .of_eq (fun y _ => ?_) rfl rfl rfl rfl (fun q _ => ⟨rfl, rfl⟩) (fun _ _ => rfl) fun _
      h => h
    by_cases hy : y = x <;> simp [Fs.addRef, hy]
  | load x n hx hn =>
    refine .of_eq (fun y hy => ?_) rfl rfl rfl rfl (fun q _ => ⟨rfl, rfl⟩) (fun _ _ => rfl) fun _
      h => h
    have hne : y ≠ x := fun h => by rw [h, hx] at hy; exact lt_irrefl _ hy
    simp [hne]
  | takeCwd hmode howned =>
    refine .of_eq (fun _ _ => ⟨rfl, rfl⟩) rfl rfl rfl rfl (fun q hq => ⟨rfl, ?_⟩) (fun _ _ => rfl)
      fun _ h => h
    have hne : q ≠ g.p := hq.resolve_right (· hmode)
    simp [hne]
  | setCwd x hmode howned hx hheld =>
    refine .of_eq (fun _ _ => ⟨rfl, rfl⟩) rfl rfl rfl rfl (fun q hq => ?_) (fun _ _ => rfl) fun _
      h => h
    have hne : q ≠ g.p := hq.resolve_right (· hmode)
    simp [Fs.setCwd, hne]
  | setOfile fd f hclaim hmode =>
    refine .of_eq (fun _ _ => ⟨rfl, rfl⟩) rfl rfl rfl rfl (fun q _ => ⟨rfl, rfl⟩) (fun q hq => ?_)
      fun _ h => h
    have hne : q ≠ g.p := hq.resolve_right hmode
    simp [Fs.setOfile, hne]
  | clearOfile fd f hclaim hmode hf =>
    refine .of_eq (fun _ _ => ⟨rfl, rfl⟩) rfl rfl rfl rfl (fun q _ => ⟨rfl, rfl⟩) (fun q hq => ?_)
      fun _ h => h
    have hne : q ≠ g.p := hq.resolve_right (by simp [hmode])
    simp [Fs.setOfile, hne]
  | look | ret | filealloc | publish | closeOne | closeLast =>
    exact .of_eq (fun _ _ => ⟨rfl, rfl⟩) rfl rfl rfl rfl (fun q _ => ⟨rfl, rfl⟩) (fun _ _ => rfl)
      fun _ h => h

theorem Move.held : g'.held = g.held := by
  cases h with
  | closeLast f hclaim hf => exact g.addRefs_held _
  | _ => rfl

theorem Move.mode : g'.mode = .idle ∨ g'.mode = g.mode := by
  cases h with
  | ret hclaim howned => exact .inl rfl
  | closeLast f hclaim hf => exact .inr (g.addRefs_mode _)
  | _ => exact .inr rfl

theorem Move.good (he : e.Good R) : e'.Good R := by
  have hframe := h.frame
  cases h with
  | gain x hx =>
    exact he.setCached x _ rfl rfl rfl rfl rfl (fun _ y hyx hy heq => hyx (he.unique y x hy hx heq))
      fun _ => he.valid x hx
  | load x n hx hn =>
    exact he.setCached x _ rfl rfl rfl rfl rfl (fun _ y _ => hn y) fun _ h => nomatch h
  | drop x hx hheld =>
    have hpos : 0 < (e.icache x).ref + -1 → 0 < (e.icache x).ref := fun h => by omega
    exact he.setCached x _ rfl rfl rfl rfl rfl
      (fun h y hyx hy heq => hyx (he.unique y x hy (hpos h) heq)) fun h => he.valid x (hpos h)
  | write x i v d hheld hx hvalid hfresh htype hentries =>
    have hinum : ∀ y, (((e.modify x fun _ => i).setCached x { e.icache x with valid := v }).icache
      y).inum =
        (e.icache y).inum := fun y => by
      by_cases hyx : y = x <;> simp [hyx]
    have href : ∀ y, (((e.modify x fun _ => i).setCached x { e.icache x with valid := v }).icache
      y).ref =
        (e.icache y).ref := fun y => by
      by_cases hyx : y = x <;> simp [hyx]
    refine ⟨fun j hj de hde => ?_, he.gen, fun y z hy hz hyz => ?_, fun y hy hv => ?_⟩
    · by_cases hx : j = (e.icache x).inum
      · subst hx
        simp only [Fs.setCached, Fs.modify, update_self] at hj hde ⊢
        exact (hentries hj de hde).mono rfl (he.gen _) hframe.gen
      · simp only [Fs.setCached, Fs.modify, update_of_ne hx] at hj hde ⊢
        exact (he.ranked j hj de hde).mono rfl (he.gen _) hframe.gen
    · simp only [href, hinum] at hy hz hyz
      exact he.unique y z hy hz hyz
    · simp only [href] at hy
      simp only [Fs.dinode, hinum]
      by_cases hyx : y = x
      · subst hyx
        simp only [Fs.setCached, Fs.modify, update_self] at hv ⊢
        exact hvalid hv
      · have hne : (e.icache y).inum ≠ (e.icache x).inum := fun heq => hyx (he.unique y x hy hx heq)
        simp only [Fs.setCached, Fs.modify, update_of_ne hyx, update_of_ne hne] at hv ⊢
        exact he.valid y hy hv
  | alloc n type hn hfresh =>
    refine ⟨fun j hj de hde => ?_, fun j => ?_, he.unique, fun y hy hv => ?_⟩
    · by_cases hjn : j = n
      · subst hjn
        simp at hde
      · simp only [update_of_ne hjn] at hj hde ⊢
        exact (he.ranked j hj de hde).mono (by simp [hjn]) (he.gen _) hframe.gen
    · by_cases hjn : j = n
      · subst hjn
        simp
      · have := he.gen j
        simp only [update_of_ne hjn]
        omega
    · have := he.valid y hy hv
      by_cases hyn : (e.icache y).inum = n
      · simp [Fs.dinode, hyn]
      · simpa [Fs.dinode, hyn] using this
  | _ => exact ⟨he.ranked, he.gen, he.unique, he.valid⟩

end

/-! ## The logic -/

section Discipline

variable [DecidableEq T] [Fintype T] [Fintype P] {proc : T → P} {g : T → Tok P} {e e' : World P}
    {t : T}
  {g' : Tok P}

theorem Move.joint (h : Joint R proc g e) (hm : Move R (g t) g' e e') :
    Joint R proc (update g t g') e' := by
  have hgood := hm.good h.good
  have hmine := h.mine t
  have hself := h.held t
  cases hm with
  | look => simpa using h
  | ret hclaim howned =>
    exact h.setMode t .idle hclaim (fun u hu _ => ⟨fun h => (by cases h), fun _ => rfl⟩)
      (.inl (hmine ▸ howned))
  | gain x hx =>
    refine h.setCached x _ hgood rfl rfl rfl rfl rfl rfl rfl rfl rfl rfl .refl ?_ (fun y hyx => ?_)
      fun hheld => ?_
    · simp only [Tok.addRef_refs, if_true]
      push_cast
      omega
    · simp [hyx]
    · simp
  | load x n hx hn =>
    refine h.setCached x _ hgood rfl rfl rfl rfl rfl rfl rfl rfl rfl rfl .refl ?_ (fun y hyx => ?_)
      fun hheld => ?_
    · simp only [Tok.addRef_refs, if_true]
      push_cast
      omega
    · simp [hyx]
    · simp
  | drop x hx hheld =>
    refine h.setCached x _ hgood rfl rfl rfl rfl rfl rfl rfl rfl rfl rfl .refl ?_ (fun y hyx => ?_)
      fun hheld' => ?_
    · have := (g t).dropRef_refs hx x
      simp only [if_true] at this
      dsimp only
      omega
    · simp [hyx]
    · simp [hheld] at hheld'
  | write x i v d hheld hx hvalid hfresh htype hentries =>
    refine h.setCached x { e.icache x with valid := v } hgood rfl rfl rfl rfl rfl rfl rfl rfl rfl
      rfl
      (fun n hn htn => ?_) (by simp) (fun _ _ => rfl) (hself x)
    by_cases hnx : n = (e.icache x).inum
    · subst hnx
      obtain ⟨ht, hd⟩ := hfresh hn
      simp only [Fs.setCached, Fs.modify, update_self]
      exact ⟨hn, by rw [ht]; exact htn, hd⟩
    · simp only [Fs.setCached, Fs.modify, update_of_ne hnx]
      exact ⟨hn, htn, trivial⟩
  | alloc n type hn hfresh =>
    exact h.setFresh (some n) hgood rfl rfl rfl rfl rfl
      (fun m hm => by
        obtain rfl : n = m := Option.some.inj hm
        refine ⟨by simp, by simp, by simp, fun u hu hfr => (h.fresh u n hfr).2.1 hn⟩)
      fun m u hu hm => by
        have hne : m ≠ n := fun hmn => (h.fresh u m hm).2.1 (hmn ▸ hn)
        obtain ⟨h1, h2, h3, -⟩ := h.fresh u m hm
        refine ⟨by simpa [hne] using h1, by simpa [hne] using h2, by simpa [hne] using h3, ?_⟩
        exact fun heq => hne (Option.some.inj heq).symm
  | settle x hfresh =>
    exact h.setFresh none hgood rfl rfl rfl rfl rfl (fun m hm => by cases hm)
      fun m u hu hm => by
        have hne : m ≠ (e.icache x).inum := fun hmx => (h.fresh t _ hfresh).2.2.2 u hu (hmx ▸ hm)
        obtain ⟨h1, h2, h3, -⟩ := h.fresh u m hm
        exact ⟨by simpa [Fs.settle, hne] using h1, h2, h3, by simp⟩
  | filealloc f hf hclaim hmode =>
    have hip := h.free f hf
    refine h.setFile f { e.ftable f with ref := 1 } hgood rfl rfl rfl rfl rfl rfl rfl rfl .refl
      (fun x => rfl) hself
      (fun f' hff => ?_) ?_ (fun h => by simp at h) (fun _ => hmode) (fun f' hf' => ?_) fun u _
      hb => ?_
    · simp [hclaim, Ne.symm hff]
    · simp [hclaim, hf]
    · obtain rfl : f = f' := by simpa using hf'
      exact ⟨rfl, by simp [hip], hf⟩
    · simp [(h.builds u f hb).1] at hf
  | setOfile fd f hclaim hmode =>
    refine h.setOfile fd (some f) hgood rfl rfl rfl rfl rfl rfl rfl rfl .refl rfl rfl (fun f' => ?_)
      (fun _ => ?_)
      (fun f' hf' => ?_) fun u f' hu hb => ?_
    · by_cases hff : f = f' <;> simp [hclaim, hff]
    · exact hmode
    · obtain rfl : f = f' := by simpa using hf'
      exact .inl hclaim
    · have hff : f ≠ f' := fun hff =>
        ((h.builds t f (.inl hclaim)).2.2 u hu).1 (hff ▸ hb)
      simp [hff]
  | publish f x hclaim hx hheld =>
    obtain ⟨hfile, -, hothers⟩ := h.builds t f (.inr hclaim)
    refine h.setFile f { e.ftable f with ip := some x } hgood rfl rfl rfl rfl rfl rfl rfl rfl .refl
      (fun y => ?_)
      (fun y hy => ?_) (fun f' hff => ?_) ?_ (fun h => by simp [hfile] at h) (fun h => absurd rfl h)
      (fun f' hf' => by simp at hf') fun u hu => (hothers u hu).1
    · have := (g t).dropRef_refs hx y
      simp only [hfile, reduceCtorEq, if_false, Option.some.injEq, eq_comm (a := x)]
      omega
    · have hyx : y ≠ x := fun hyx => by
        rw [hyx] at hy
        exact absurd (hheld.symm.trans hy) (by simp)
      simpa [hyx] using hself y hy
    · simp [hclaim]
    · simp [hclaim]
  | clearOfile fd f hclaim hmode hf =>
    refine h.setOfile fd none hgood rfl rfl rfl rfl rfl rfl rfl rfl .refl rfl rfl (fun f' => ?_)
      (fun _ => ?_)
      (fun f' hf' => by simp at hf') fun u f' hu hb => ?_
    · by_cases hff : f = f' <;> simp [hclaim, hf, hff]
    · simp [hmode]
    · -- the descriptor of a file that is being opened belongs to the process that opens it
      have hff : f ≠ f' := fun hff => by
        have hproc := (h.builds u f' hb).2.1 _ fd (hff ▸ hf)
        have hidle := h.sole t u (Ne.symm hu) (hmine.symm.trans hproc) hmode
        refine h.busy u (fun hnone => ?_) hidle
        simp [hnone] at hb
      simp [hff]
  | closeOne f hclaim hf =>
    refine h.setFile f { e.ftable f with ref := (e.ftable f).ref - 1 } hgood rfl rfl rfl rfl rfl rfl
      rfl
      rfl .refl (fun x => rfl) hself (fun f' hff => ?_) ?_ (fun h => by dsimp only at h; omega)
      (fun h => absurd rfl h) (fun f' hf' => by simp at hf') fun u hu hb => ?_
    · rcases hclaim with hc | hc <;> simp [hc, Ne.symm hff]
    · rw [if_pos hclaim]
      simp
    · exact ((h.builds u f hb).2.2 t (Ne.symm hu)).2 hclaim
  | closeLast f hclaim hf =>
    refine h.setFile f ⟨0, none⟩ hgood rfl rfl rfl rfl rfl (by simp) (by simp) (by simp) .refl
      (fun x => ?_)
      (fun x hx => ?_)
      (fun f' hff => ?_) ?_ (fun _ => rfl)
      (fun h => absurd rfl h) (fun f' hf' => by simp at hf') fun u hu hb => ?_
    · simp [Tok.addRefs_refs]
    · have := hself x (by simpa using hx)
      simp only [Tok.addRefs_refs]
      omega
    · rcases hclaim with hc | hc <;> simp [hc, Ne.symm hff]
    · rw [if_pos hclaim]
      simp [hf]
    · exact ((h.builds u f hb).2.2 t (Ne.symm hu)).2 hclaim
  | takeCwd hmode howned =>
    refine h.setCwd hgood rfl rfl rfl (fun q hq => by simp [hq]) rfl rfl rfl hmode rfl .refl
      (fun x => ?_)
      fun x hx => ?_
    · simp [howned, eq_comm]
    · have := hself x hx
      rw [Tok.addRef_refs]
      omega
  | setCwd x hmode howned hx hheld =>
    refine h.setCwd hgood rfl rfl rfl (fun q hq => by simp [Fs.setCwd, hq]) rfl rfl rfl hmode rfl
      .refl
      (fun y => ?_) fun y hy => ?_
    · have := (g t).dropRef_refs hx y
      simpa [Fs.setCwd, howned, eq_comm] using this
    · have hyx : y ≠ x := fun hyx => by
        rw [hyx] at hy
        exact absurd (hheld.symm.trans hy) (by simp)
      simpa [hyx] using hself y hy

theorem Move.rely (h : Joint R proc g e) (hheld : ∀ t u x, (g t).held x → (g u).held x → t = u)
    (hm : Move R (g t) g' e e') {u : T} (hu : u ≠ t) : Rely R (g u) e e' := by
  have hj := hm.joint h
  have hgu : update g t g' u = g u := update_of_ne hu g' g
  have hf := hm.frame
  constructor
  · exact hj.good
  · intro x hx
    have hle := hj.refs_le u x
    rw [hgu] at hle
    have hinum := hf.inum x (h.ref_pos hx)
    refine ⟨hinum, hle, fun htype => ?_⟩
    rw [Fs.dinode, hinum]
    refine hf.type _ htype fun y hy heq => ?_
    obtain rfl := h.good.unique y x (h.ref_pos (h.held t y hy)) (h.ref_pos hx) heq
    exact h.one_lt_ref hu (h.held t y hy) hx
  · intro x hx
    rw [← hgu] at hx
    exact hj.ref_pos (hj.held u x hx)
  · intro x hx
    have hinum := hf.inum x (h.ref_pos (h.held u x hx))
    have hvalid := hf.valid x (h.ref_pos (h.held u x hx)) (by
      by_contra hx'
      exact hu (hheld u t x hx (by simpa using hx')))
    refine ⟨⟨hinum, hvalid⟩, fun htype => ?_⟩
    obtain ⟨hi, hg, hd⟩ := hf.inode (e.icache x).inum htype fun y hy heq => by
      obtain rfl := h.good.unique y x (h.ref_pos (h.held t y hy)) (h.ref_pos (h.held u x hx)) heq
      exact hu (hheld u t y hx hy)
    exact ⟨by rw [Fs.dinode, Fs.dinode, hinum, hi], hg, hd, hf.fresh _ htype⟩
  · exact hf.gen
  · exact hf.clock
  · intro hmode
    refine hf.cwd _ (Classical.or_iff_not_imp_left.2 fun hp hsole => hmode ?_)
    rw [not_not, h.mine, h.mine] at hp
    exact h.sole t u (Ne.symm hu) hp.symm hsole
  · exact fun _ => hj.cwd_ref_pos
  · intro hmode
    rw [← hgu] at hmode ⊢
    exact hj.owned_of_shared hmode
  · intro f hb
    rw [← hgu] at hb
    exact (hj.builds u f hb).1
  · intro hmode
    refine hf.ofile _ (Classical.or_iff_not_imp_left.2 fun hp => ?_)
    rw [not_not, h.mine, h.mine] at hp
    exact h.sole u t hu hp hmode
  · intro n hn
    rw [← hgu] at hn
    exact (hj.fresh u n hn).2.imp_right And.left

def discipline (R : ℕ → ℕ → Prop) (proc : T → P) : Discipline (Fs P) (World P) Ip T (Tok P) where
  data := World.toFs
  held g x := g.held x
  mayTake g x := 0 < g.refs x
  take := Tok.take
  give := Tok.give
  lt := World.Lt R
  rely := Rely R
  guar := Move R
  idle g := g = .start g.p .idle
  joint := Joint R proc

theorem discipline_lawful [IsStrictOrder ℕ R] (proc : T → P) : (discipline R proc).Lawful where
  held_take g i j := by
    by_cases h : j = i <;> simp [discipline, Tok.take, h]
  held_give g i j := by
    by_cases h : j = i <;> simp [discipline, Tok.give, h]
  acyclic _ e i _ := e.not_transGen_lt i
  rely_refl _ _ t h := h.rely t
  rely_trans _ _ _ _ h h' := h.trans h'
  joint_take g e t i h hi := h.setHeld _ fun x hx => by
    by_cases hxi : x = i
    · exact hxi ▸ hi
    · exact h.held t x (by simpa [hxi] using hx)
  joint_give g e t i h := h.setHeld _ fun x hx => by
    by_cases hxi : x = i
    · simp [hxi] at hx
    · exact h.held t x (by simpa [hxi] using hx)
  joint_act g e t g' e' h hheld hm :=
    ⟨Move.joint h hm, fun _ hu => Move.rely h hheld hm hu, fun i => by
      show g'.held i ↔ _
      rw [Move.held hm]
      rfl⟩

end Discipline

end Xv6.Ilock
