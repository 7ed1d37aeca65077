import Xv6.Ilock.Ghost

/-!
# Tokens that fit together

How the counts and the joint invariant change when the token of one thread changes together with one
cache entry, file, descriptor or current directory.
-/

namespace Xv6.Ilock

open LockProg Tally Function

variable {P T : Type} {R : ℕ → ℕ → Prop}

/-! ## The order of the directories -/

theorem World.Below.mono {e e' : World P} {i j : ℕ} (h : e.Below R j i) (hj : e'.gen j = e.gen j)
    (hgj : e.gen j < e.clock) (hi : (e'.inode i).type = some .dir →
      ((e.inode i).type = some .dir ∧ e'.gen i = e.gen i) ∨ e.clock ≤ e'.gen i) :
    e'.Below R j i := by
  by_cases hdir : (e'.inode i).type = some .dir
  · rcases hi hdir with ⟨hd, hg⟩ | hc
    · rcases h with h | h | ⟨h0, h1, hr⟩
      · exact absurd hd h
      · exact .inr (.inl (by rw [hj, hg]; exact h))
      · exact .inr (.inr ⟨hj.trans h0, hg.trans h1, hr⟩)
    · exact .inr (.inl (by omega))
  · exact .inl hdir

theorem World.EntryOk.mono {e e' : World P} {j d : ℕ} {de : Dirent} (h : e.EntryOk R j d de)
    (hj : e'.gen j = e.gen j) (hgj : e.gen j < e.clock) (hi : ∀ i, (e'.inode i).type = some .dir →
      ((e.inode i).type = some .dir ∧ e'.gen i = e.gen i) ∨ e.clock ≤ e'.gen i) :
    e'.EntryOk R j d de := by
  rcases h with h | h | h | h
  · exact .inl h
  · exact .inr (.inl (h.mono hj hgj (hi _)))
  · exact .inr (.inr (.inl h))
  · exact .inr (.inr (.inr h))

theorem World.Good.setCached {e e' : World P} (he : e.Good R) (x : Ip) (c : Cached)
    (hinode : e'.inode = e.inode) (hgen : e'.gen = e.gen) (hclock : e'.clock = e.clock)
    (hdots : e'.dots = e.dots) (hicache : e'.icache = update e.icache x c)
    (hunique : 0 < c.ref → ∀ y, y ≠ x → 0 < (e.icache y).ref → (e.icache y).inum ≠ c.inum)
    (hvalid : 0 < c.ref → c.valid → (e.inode c.inum).type ≠ none) : e'.Good R where
  ranked j hj de hde := by
    rw [hinode] at hj hde
    rw [hdots]
    refine (he.ranked j hj de hde).mono (by rw [hgen]) (he.gen j) fun i hi => .inl ?_
    rw [hinode] at hi
    exact ⟨hi, by rw [hgen]⟩
  gen i := by
    rw [hgen, hclock]
    exact he.gen i
  unique y z hy hz hyz := by
    simp only [hicache, update_apply] at hy hz hyz
    split_ifs at hy hz hyz with hyx hzx hzx
    · rw [hyx, hzx]
    · exact absurd hyz.symm (hunique hy z hzx hz)
    · exact absurd hyz (hunique hz y hyx hy)
    · exact he.unique y z hy hz hyz
  valid y hy hv := by
    simp only [Fs.dinode, hinode, hicache, update_apply] at hy hv ⊢
    split_ifs at hy hv ⊢
    · exact hvalid hy hv
    · exact he.valid y hy hv

theorem Rely.trans {g : Tok P} {e e' e'' : World P} (h : Rely R g e e') (h' : Rely R g e' e'') :
    Rely R g e e'' := by
  constructor
  · exact h'.good
  · intro x hx
    obtain ⟨hinum, -, hsame⟩ := h.refs x hx
    obtain ⟨hinum', href, hsame'⟩ := h'.refs x hx
    refine ⟨hinum'.trans hinum, href, fun htype => ?_⟩
    rw [hsame' (hsame htype ▸ htype), hsame htype]
  · exact h'.heldRef
  · intro x hx
    obtain ⟨⟨hinum, hvalid⟩, hsame⟩ := h.held x hx
    obtain ⟨⟨hinum', hvalid'⟩, hsame'⟩ := h'.held x hx
    refine ⟨⟨hinum'.trans hinum, hvalid'.trans hvalid⟩, fun htype => ?_⟩
    obtain ⟨hi, hg, hd, hf⟩ := hsame htype
    obtain ⟨hi', hg', hd', hf'⟩ := hsame' (hi ▸ htype)
    rw [hinum] at hg' hd' hf'
    exact ⟨hi'.trans hi, hg'.trans hg, hd'.trans hd, fun h => hf' (hf h)⟩
  · intro i hi
    rcases h'.gen i hi with ⟨hd, hg⟩ | hc
    · rcases h.gen i hd with ⟨hd', hg'⟩ | hc'
      · exact .inl ⟨hd', hg.trans hg'⟩
      · exact .inr (hg ▸ hc')
    · exact .inr (h.clock.trans hc)
  · exact h.clock.trans h'.clock
  · exact fun hm => ⟨(h'.cwd hm).1.trans (h.cwd hm).1, (h'.cwd hm).2.trans (h.cwd hm).2⟩
  · exact h'.cwdRef
  · exact h'.shared
  · exact h'.builds
  · exact fun hm => (h'.ofile hm).trans (h.ofile hm)
  · exact h'.fresh

/-- New inodes stay as they are until they are locked. -/
def FreshKept (e e' : World P) : Prop :=
  ∀ n, e.fresh n → (e.inode n).type ≠ none →
    e'.fresh n ∧ (e'.inode n).type ≠ none ∧ e'.dots n = e.dots n

theorem FreshKept.refl {e : World P} : FreshKept e e := fun _ h h' => ⟨h, h', rfl⟩

/-! ## The counts -/

section Counts

variable [DecidableEq T] [Fintype T] [Fintype P] {g : T → Tok P} {e e' : World P} {t : T}
    {a : Tok P}

theorem refCount_update (hcwd : e'.cwd = e.cwd) (howned : e'.owned = e.owned)
    (hip : ∀ f, (e'.ftable f).ip = (e.ftable f).ip) (x : Ip) :
    refCount (update g t a) e' x + (g t).refs x = refCount g e x + a.refs x := by
  have hsum := sum_update (fun b => b.refs x) g t a
  simp only [refCount, hcwd, howned, hip]
  omega

theorem refCount_setFile (f : Fin NFILE) (hcwd : e'.cwd = e.cwd) (howned : e'.owned = e.owned)
    (hip : ∀ f', f' ≠ f → (e'.ftable f').ip = (e.ftable f').ip) (x : Ip) :
    refCount (update g t a) e' x + (g t).refs x + (if (e.ftable f).ip = some x then 1 else 0) =
      refCount g e x + a.refs x + if (e'.ftable f).ip = some x then 1 else 0 := by
  have hsum := sum_update (fun b => b.refs x) g t a
  have hfile := sum_of_eq_off (f := fun f' => if (e.ftable f').ip = some x then 1 else 0)
    (g := fun f' => if (e'.ftable f').ip = some x then 1 else 0) f fun f'
    hf => by simp only [hip f' hf]
  simp only [refCount, hcwd, howned]
  omega

theorem refCount_setCwd [DecidableEq P] (p : P)
    (hcwd : ∀ q, q ≠ p → e'.cwd q = e.cwd q ∧ e'.owned q = e.owned q) (hfile : e'.ftable = e.ftable)
    (x : Ip) : refCount (update g t a) e' x + (g t).refs x +
        (if e.owned p ∧ e.cwd p = x then 1 else 0) =
      refCount g e x + a.refs x + if e'.owned p ∧ e'.cwd p = x then 1 else 0 := by
  have hsum := sum_update (fun b => b.refs x) g t a
  have hproc := sum_of_eq_off (f := fun q => if e.owned q ∧ e.cwd q = x then 1 else 0)
    (g := fun q => if e'.owned q ∧ e'.cwd q = x then 1 else 0) p
    fun q hq => by simp only [hcwd q hq]
  simp only [refCount, hfile]
  omega

theorem fileCount_update (hofile : e'.ofile = e.ofile) (f : Fin NFILE) :
    fileCount (update g t a) e' f + (if (g t).claim.Counts f then 1 else 0) =
      fileCount g e f + if a.claim.Counts f then 1 else 0 := by
  have hsum := sum_update (fun b => if b.claim.Counts f then 1 else 0) g t a
  simp only [fileCount, hofile]
  omega

theorem fileCount_setOfile [DecidableEq P] (p : P) (fd : Fin NOFILE) (o : Option (Fin NFILE))
    (hofile : e'.ofile = (e.setOfile p fd o).ofile) (f : Fin NFILE) :
    fileCount (update g t a) e' f + (if (g t).claim.Counts f then 1 else 0) +
        (if e.ofile p fd = some f then 1 else 0) =
      fileCount g e f + (if a.claim.Counts f then 1 else 0) + if o = some f then 1 else 0 := by
  have hsum := sum_update (fun b => if b.claim.Counts f then 1 else 0) g t a
  have hslot := sum_of_eq_off (f := fun d : P × Fin NOFILE => if e.ofile d.1 d.2 = some f then
    1 else 0)
    (g := fun d => if e'.ofile d.1 d.2 = some f then 1 else 0) (p, fd) ?_
  · simp only [hofile, Fs.setOfile, update_self] at hslot
    simp only [fileCount, hofile, Fs.setOfile]
    omega
  · rintro ⟨q, fd'⟩ hne
    by_cases hq : q = p
    · subst hq
      have : fd' ≠ fd := fun h => hne (by rw [h])
      simp [hofile, Fs.setOfile, this]
    · simp [hofile, Fs.setOfile, hq]

end Counts

/-! ## The tokens stay in step -/

section Joint

variable [Fintype T] [Fintype P] {proc : T → P} {g : T → Tok P} {e e' : World P} {t : T}
    {g' : Tok P}

section

variable (h : Joint R proc g e)

include h

theorem Joint.refs_le (t : T) (x : Ip) : ((g t).refs x : ℤ) ≤ (e.icache x).ref := by
  have hle := le_sum (fun u => (g u).refs x) t
  have := h.refs x
  simp only [refCount] at this
  omega

theorem Joint.ref_pos {x : Ip} (hx : 0 < (g t).refs x) : 0 < (e.icache x).ref := by
  have := h.refs_le t x
  omega

theorem Joint.one_lt_ref {u : T} (hu : u ≠ t) {x : Ip} (ht : 0 < (g t).refs x)
    (hx : 0 < (g u).refs x) : 1 < (e.icache x).ref := by
  classical
  have hle := Finset.sum_le_univ_sum_of_nonneg (f := fun v => (g v).refs x) (s := {u, t}) fun _ =>
    Nat.zero_le _
  rw [Finset.sum_pair hu] at hle
  have := h.refs x
  simp only [refCount] at this
  omega

theorem Joint.cwd_ref_pos {p : P} (hp : e.owned p) : 0 < (e.icache (e.cwd p)).ref := by
  have hle := le_sum (fun q => if e.owned q ∧ e.cwd q = e.cwd p then 1 else 0) p
  have := h.refs (e.cwd p)
  simp only [refCount] at this
  simp only [hp, true_and, if_true] at hle
  omega

theorem Joint.slot_le {q : P} {fd : Fin NOFILE} {f : Fin NFILE}
    (hf : e.ofile q fd = some f) : 1 ≤ (e.ftable f).ref := by
  have hle := le_sum (fun d : P × Fin NOFILE => if e.ofile d.1 d.2 = some f then 1 else 0) (q, fd)
  have := h.files f
  simp only [fileCount] at this
  simp only [hf, if_true] at hle
  omega

theorem Joint.counts_le {f : Fin NFILE} (hf : (g t).claim.Counts f) : 1 ≤ (e.ftable f).ref := by
  have hle := le_sum (fun u => if (g u).claim.Counts f then 1 else 0) t
  have := h.files f
  simp only [fileCount] at this
  simp only [hf, if_true] at hle
  omega

theorem Joint.owned_of_shared (ht : (g t).mode = .shared) : e.owned (g t).p := by
  by_contra hne
  obtain ⟨u, hu, hsole⟩ := h.owned _ (Bool.eq_false_iff.2 hne)
  have hut : u ≠ t := fun hut => by simp [← hut, hsole] at ht
  simpa [ht] using h.sole u t hut (hu.trans (h.mine t)) hsole

theorem Joint.rely (t : T) : Rely R (g t) e e := by
  refine ⟨h.good, fun x hx => ⟨rfl, h.refs_le t x, fun _ => rfl⟩,
    fun x hx => h.ref_pos (h.held t x hx), fun x _ => ⟨⟨rfl, rfl⟩, fun _ => ⟨rfl, rfl, rfl, id⟩⟩,
    fun i hi => .inl ⟨hi, rfl⟩, le_rfl,
    fun _ => ⟨rfl, rfl⟩, fun _ => h.cwd_ref_pos, h.owned_of_shared, fun f hb => (h.builds t f hb).1,
    fun _ => rfl, fun n hn => (h.fresh t n hn).2.imp_right And.left⟩

end

variable [DecidableEq T]

section

variable (h : Joint R proc g e)

include h

theorem Joint.fresh_update (hfresh : g'.fresh = (g t).fresh)
    (hkeep : FreshKept e e') : ∀ u n, (update g t g' u).fresh = some n → e'.fresh n ∧
      (e'.inode n).type ≠ none ∧ e'.dots n = 0 ∧ ∀ v, v ≠ u → (update g t g' v).fresh ≠ some n := by
  have hf : ∀ u, (update g t g' u).fresh = (g u).fresh := update_proj Tok.fresh hfresh
  intro u n hn
  rw [hf] at hn
  obtain ⟨hfr, htype, hdots, hv⟩ := h.fresh u n hn
  obtain ⟨hfr', htype', hdots'⟩ := hkeep n hfr htype
  exact ⟨hfr', htype', hdots'.trans hdots, fun v hvu => by rw [hf]; exact hv v hvu⟩

theorem Joint.refs_update (hcwd : e'.cwd = e.cwd) (howned : e'.owned = e.owned)
    (hip : ∀ f, (e'.ftable f).ip = (e.ftable f).ip) (hrefs : g'.refs = (g t).refs) (x : Ip) :
    (refCount (update g t g') e' x : ℤ) ≤ (e.icache x).ref := by
  have hcount := refCount_update (g := g) (t := t) (a := g') hcwd howned hip x
  rw [hrefs] at hcount
  rw [add_right_cancel hcount]
  exact h.refs x

theorem Joint.files_update (hofile : e'.ofile = e.ofile) (hclaim : g'.claim = (g t).claim)
    (f : Fin NFILE) : (fileCount (update g t g') e' f : ℤ) ≤ (e.ftable f).ref := by
  have hcount := fileCount_update (g := g) (t := t) (a := g') hofile f
  rw [hclaim] at hcount
  rw [add_right_cancel hcount]
  exact h.files f

theorem Joint.mine_update (hp : g'.p = (g t).p) (u : T) :
    (update g t g' u).p = proc u := (update_proj Tok.p hp u).trans (h.mine u)

theorem Joint.held_update (hheld : ∀ x, g'.held x → 0 < g'.refs x) (u : T) (x : Ip) :
    (update g t g' u).held x → 0 < (update g t g' u).refs x := by
  by_cases hu : u = t
  · simpa [hu] using hheld x
  · simpa [hu] using h.held u x

/-- The files and what the threads hold of them stay as they are. -/
theorem Joint.sameFiles (hgood : e'.Good R) (hfile : e'.ftable = e.ftable)
    (hofile : e'.ofile = e.ofile) (hp : g'.p = (g t).p) (hclaim : g'.claim = (g t).claim)
    (hmode : g'.mode = (g t).mode)
    (hrefs : ∀ x, (refCount (update g t g') e' x : ℤ) ≤ (e'.icache x).ref)
    (hheld : ∀ x, g'.held x → 0 < g'.refs x)
    (hfresh : ∀ u n, (update g t g' u).fresh = some n → e'.fresh n ∧
      (e'.inode n).type ≠ none ∧ e'.dots n = 0 ∧ ∀ v, v ≠ u → (update g t g' v).fresh ≠ some n)
    (howned : ∀ p, e'.owned p = false → e.owned p = false ∨ (p = proc t ∧ (g t).mode = .sole)) :
    Joint R proc (update g t g') e' := by
  have hc : ∀ u, (update g t g' u).claim = (g u).claim := update_proj Tok.claim hclaim
  have hm : ∀ u, (update g t g' u).mode = (g u).mode := update_proj Tok.mode hmode
  refine ⟨h.mine_update hp, hgood, hrefs, h.held_update hheld, fun f => ?_, ?_, ?_, ?_, hfresh, ?_,
    fun p hp => ?_⟩
  · rw [hfile]
    exact h.files_update hofile hclaim f
  · simpa only [hfile] using h.free
  · simpa only [hc, hm] using h.busy
  · simpa only [hc, hfile, hofile] using h.builds
  · simpa only [hm] using h.sole
  · simp only [hm]
    rcases howned p hp with hp | ⟨rfl, hsole⟩
    · exact h.owned p hp
    · exact ⟨t, rfl, hsole⟩

theorem Joint.inodes (hgood : e'.Good R) (hfile : e'.ftable = e.ftable)
    (hofile : e'.ofile = e.ofile) (howned : e'.owned = e.owned) (hp : g'.p = (g t).p)
    (hclaim : g'.claim = (g t).claim) (hmode : g'.mode = (g t).mode)
    (hfresh : g'.fresh = (g t).fresh) (hkeep : FreshKept e e')
    (hrefs : ∀ x, (refCount (update g t g') e' x : ℤ) ≤ (e'.icache x).ref)
    (hheld : ∀ x, g'.held x → 0 < g'.refs x) : Joint R proc (update g t g') e' :=
  h.sameFiles hgood hfile hofile hp hclaim hmode hrefs hheld (h.fresh_update hfresh hkeep)
    fun _ hp => .inl (howned ▸ hp)

theorem Joint.ofFiles (hgood : e'.Good R) (hicache : e'.icache = e.icache)
    (howned : e'.owned = e.owned) (hp : g'.p = (g t).p) (hmode : g'.mode = (g t).mode)
    (hfresh : g'.fresh = (g t).fresh) (hkeep : FreshKept e e')
    (hrefs : ∀ x, (refCount (update g t g') e' x : ℤ) ≤ (e.icache x).ref)
    (hheld : ∀ x, g'.held x → 0 < g'.refs x)
    (hfiles : ∀ f, (fileCount (update g t g') e' f : ℤ) ≤ (e'.ftable f).ref)
    (hfree : ∀ f, (e'.ftable f).ref = 0 → (e'.ftable f).ip = none)
    (hbusy : g'.claim ≠ .none → (g t).mode ≠ .idle)
    (hbuilds : ∀ u f, (update g t g' u).claim.Builds f → e'.ftable f = ⟨1, none⟩ ∧
      (∀ q fd, e'.ofile q fd = some f → q = proc u) ∧
      ∀ v, v ≠ u → ¬ (update g t g' v).claim.Builds f ∧ ¬ (update g t g' v).claim.Counts f) :
    Joint R proc (update g t g') e' := by
  have hm : ∀ u, (update g t g' u).mode = (g u).mode := update_proj Tok.mode hmode
  refine ⟨h.mine_update hp, hgood, ?_, h.held_update hheld, hfiles, hfree, fun u hu => ?_, hbuilds,
    h.fresh_update hfresh hkeep, ?_, ?_⟩
  · simpa only [hicache] using hrefs
  · rw [hm]
    by_cases hut : u = t
    · subst hut
      exact hbusy (by simpa using hu)
    · exact h.busy u (by simpa [hut] using hu)
  · simpa only [hm] using h.sole
  · simpa only [hm, howned] using h.owned

theorem Joint.setFresh (o : Option ℕ) (hgood : e'.Good R)
    (hicache : e'.icache = e.icache) (hfile : e'.ftable = e.ftable) (hofile : e'.ofile = e.ofile)
    (hcwd : e'.cwd = e.cwd) (howned : e'.owned = e.owned)
    (hmine : ∀ n, o = some n → e'.fresh n ∧ (e'.inode n).type ≠ none ∧ e'.dots n = 0 ∧
      ∀ u, u ≠ t → (g u).fresh ≠ some n)
    (hother : ∀ n u, u ≠ t → (g u).fresh = some n → e'.fresh n ∧ (e'.inode n).type ≠ none ∧
      e'.dots n = 0 ∧ o ≠ some n) : Joint R proc (update g t ((g t).setFresh o)) e' := by
  refine h.sameFiles hgood hfile hofile rfl rfl rfl (fun x => ?_) (h.held t) (fun u n hn => ?_)
    fun _ hp => .inl (howned ▸ hp)
  · rw [hicache]
    exact h.refs_update hcwd howned (fun f => by rw [hfile]) (by rfl) x
  · by_cases hu : u = t
    · subst hu
      obtain ⟨h1, h2, h3, h4⟩ := hmine n (by simpa [Tok.setFresh] using hn)
      exact ⟨h1, h2, h3, fun v hv => by simpa [hv] using h4 v hv⟩
    · have hn : (g u).fresh = some n := by simpa [hu] using hn
      obtain ⟨h1, h2, h3, h4⟩ := hother n u hu hn
      refine ⟨h1, h2, h3, fun v hv => ?_⟩
      by_cases hvt : v = t
      · simpa [hvt, Tok.setFresh] using h4
      · simpa [hvt] using (h.fresh u n hn).2.2.2 v hv

theorem Joint.setMode (t : T) (m : Mode) (hclaim : (g t).claim = .none)
    (hsole : ∀ u, u ≠ t → proc u = proc t →
      (m = .sole → (g u).mode = .idle) ∧ ((g u).mode = .sole → m = .idle))
    (howned : e.owned (proc t) ∨ m = .sole) :
    Joint R proc (update g t { g t with mode := m }) e := by
  have hc : ∀ u, (update g t { g t with mode := m } u).claim = (g u).claim :=
    update_proj Tok.claim rfl
  refine ⟨h.mine_update rfl, h.good, h.refs_update rfl rfl (fun _ => rfl) rfl,
    h.held_update (h.held t), h.files_update rfl rfl, h.free, fun u hu => ?_, ?_,
    h.fresh_update rfl .refl, fun u v huv hproc hu => ?_,
    fun p hp => ?_⟩
  · rw [hc] at hu
    by_cases hut : u = t
    · subst hut
      exact absurd hclaim hu
    · simpa [hut] using h.busy u hu
  · simpa only [hc] using h.builds
  · by_cases hut : u = t
    · subst hut
      simp only [update_self] at hu
      simpa [Ne.symm huv] using (hsole v (Ne.symm huv) hproc.symm).1 hu
    · simp only [update_of_ne hut] at hu
      by_cases hvt : v = t
      · subst hvt
        simpa using (hsole u hut hproc).2 hu
      · simpa [hvt] using h.sole u v huv hproc hu
  · obtain ⟨u, rfl, hu⟩ := h.owned p hp
    by_cases hut : u = t
    · subst hut
      exact ⟨u, rfl, by simpa using howned.resolve_left (by simp [hp])⟩
    · exact ⟨u, rfl, by simpa [hut] using hu⟩

theorem Joint.setCached (x : Ip) (c : Cached) (hgood : e'.Good R)
    (hfile : e'.ftable = e.ftable) (hofile : e'.ofile = e.ofile) (howned : e'.owned = e.owned)
    (hcwd : e'.cwd = e.cwd) (hicache : e'.icache = update e.icache x c) (hp : g'.p = (g t).p)
    (hclaim : g'.claim = (g t).claim) (hmode : g'.mode = (g t).mode) (hheld : g'.held = (g t).held)
    (hfresh : g'.fresh = (g t).fresh) (hkeep : FreshKept e e')
    (hrefs : (g'.refs x : ℤ) + (e.icache x).ref ≤ (g t).refs x + c.ref)
    (hother : ∀ y, y ≠ x → g'.refs y = (g t).refs y) (hx : (g t).held x → 0 < g'.refs x) :
    Joint R proc (update g t g') e' := by
  refine h.inodes hgood hfile hofile howned hp hclaim hmode hfresh hkeep (fun y => ?_) fun y hy =>
    ?_
  · have hcount := refCount_update (g := g) (t := t) (a := g') hcwd howned (fun f => by rw [hfile])
      y
    have := h.refs y
    by_cases hyx : y = x
    · rw [hyx] at hcount this ⊢
      rw [hicache, update_self]
      omega
    · have := hother y hyx
      rw [hicache, update_of_ne hyx]
      omega
  · by_cases hyx : y = x
    · exact hyx ▸ hx (hyx ▸ hheld ▸ hy)
    · rw [hother y hyx]
      exact h.held t y (hheld ▸ hy)

theorem Joint.builds_update (hmine : ∀ f, g'.claim.Builds f → e'.ftable f = ⟨1, none⟩ ∧
      (∀ q fd, e'.ofile q fd = some f → q = proc t) ∧
      ∀ u, u ≠ t → ¬ (g u).claim.Builds f ∧ ¬ (g u).claim.Counts f)
    (hother : ∀ u f, u ≠ t → (g u).claim.Builds f → e'.ftable f = e.ftable f ∧
      (∀ q fd, e'.ofile q fd = some f → e.ofile q fd = some f) ∧
      ¬ g'.claim.Builds f ∧ ¬ g'.claim.Counts f) :
    ∀ u f, (update g t g' u).claim.Builds f → e'.ftable f = ⟨1, none⟩ ∧
      (∀ q fd, e'.ofile q fd = some f → q = proc u) ∧
      ∀ v, v ≠ u → ¬ (update g t g' v).claim.Builds f ∧ ¬ (update g t g' v).claim.Counts f := by
  intro u f hu
  by_cases hut : u = t
  · subst hut
    simp only [update_self] at hu
    obtain ⟨hf, hslot, hv⟩ := hmine f hu
    exact ⟨hf, hslot, fun v hvu => by simpa [hvu] using hv v hvu⟩
  · simp only [update_of_ne hut] at hu
    obtain ⟨hf, hslot, hv⟩ := h.builds u f hu
    obtain ⟨hf', hslot', ht⟩ := hother u f hut hu
    refine ⟨hf'.trans hf, fun q fd hq => hslot q fd (hslot' q fd hq), fun v hvu => ?_⟩
    by_cases hvt : v = t
    · simpa [hvt] using ht
    · simpa [hvt] using hv v hvu

theorem Joint.setFile (f : Fin NFILE) (y : File) (hgood : e'.Good R)
    (hicache : e'.icache = e.icache) (howned : e'.owned = e.owned) (hcwd : e'.cwd = e.cwd)
    (hofile : e'.ofile = e.ofile) (hfile : e'.ftable = update e.ftable f y)
    (hp : g'.p = (g t).p) (hmode : g'.mode = (g t).mode) (hfresh : g'.fresh = (g t).fresh)
    (hkeep : FreshKept e e') (hrefs : ∀ x, g'.refs x + (if y.ip = some x then 1 else 0) =
      (g t).refs x + if (e.ftable f).ip = some x then 1 else 0)
    (hheld : ∀ x, g'.held x → 0 < g'.refs x)
    (hcounts : ∀ f', f' ≠ f → (g'.claim.Counts f' ↔ (g t).claim.Counts f'))
    (hcount : (if g'.claim.Counts f then 1 else 0) + (e.ftable f).ref ≤
      (if (g t).claim.Counts f then 1 else 0) + y.ref)
    (hfree : y.ref = 0 → y.ip = none) (hbusy : g'.claim ≠ .none → (g t).mode ≠ .idle)
    (hmine : ∀ f', g'.claim.Builds f' → f' = f ∧ y = ⟨1, none⟩ ∧ (e.ftable f).ref = 0)
    (hother : ∀ u, u ≠ t → ¬ (g u).claim.Builds f) : Joint R proc (update g t g') e' := by
  refine h.ofFiles hgood hicache howned hp hmode hfresh hkeep (fun x => ?_) hheld (fun f' => ?_)
    (fun f' hf' => ?_)
    hbusy (h.builds_update (fun f' hf' => ?_) fun u f' hu hb => ?_)
  · have hsum := refCount_setFile (g := g) (t := t) (a := g') f hcwd howned
      (fun f' hf' => by rw [hfile, update_of_ne hf']) x
    have := h.refs x
    have := hrefs x
    rw [hfile, update_self] at hsum
    omega
  · have hsum := fileCount_update (g := g) (t := t) (a := g') hofile f'
    have := h.files f'
    by_cases hff : f' = f
    · rw [hff] at hsum this ⊢
      rw [hfile, update_self]
      split_ifs at hsum hcount <;> omega
    · simp only [hcounts f' hff] at hsum
      rw [hfile, update_of_ne hff]
      omega
  · by_cases hff : f' = f
    · rw [hff, hfile, update_self] at hf' ⊢
      exact hfree hf'
    · rw [hfile, update_of_ne hff] at hf' ⊢
      exact h.free f' hf'
  · -- nobody else has the file, since it was free
    obtain ⟨rfl, hy, hzero⟩ := hmine f' hf'
    refine ⟨by rw [hfile, update_self, hy], fun q fd hq => ?_,
      fun u hu => ⟨hother u hu, fun hc => ?_⟩⟩
    · have := h.slot_le (hofile ▸ hq)
      omega
    · have := h.counts_le hc
      omega
  · have hff : f' ≠ f := fun hff => hother u hu (hff ▸ hb)
    have ht := (h.builds u f' hb).2.2 t (Ne.symm hu)
    refine ⟨by rw [hfile, update_of_ne hff], fun q fd hq => hofile ▸ hq,
      fun hb' => hff (hmine f' hb').1, fun hc => ht.2 ((hcounts f' hff).1 hc)⟩

end

theorem Joint.setOfile [DecidableEq P] (h : Joint R proc g e) (fd : Fin NOFILE)
    (o : Option (Fin NFILE)) (hgood : e'.Good R) (hicache : e'.icache = e.icache)
    (howned : e'.owned = e.owned) (hcwd : e'.cwd = e.cwd) (hfile : e'.ftable = e.ftable)
    (hofile : e'.ofile = (e.setOfile (g t).p fd o).ofile) (hp : g'.p = (g t).p)
    (hmode : g'.mode = (g t).mode) (hfresh : g'.fresh = (g t).fresh) (hkeep : FreshKept e e')
    (hrefs : g'.refs = (g t).refs) (hheld : g'.held = (g t).held)
    (hcount : ∀ f, (if g'.claim.Counts f then 1 else 0) + (if o = some f then 1 else 0) ≤
      (if (g t).claim.Counts f then 1 else 0) + if e.ofile (g t).p fd = some f then 1 else 0)
    (hbusy : g'.claim ≠ .none → (g t).mode ≠ .idle)
    (hmine : ∀ f, g'.claim.Builds f → (g t).claim.Builds f)
    (hother : ∀ u f, u ≠ t → (g u).claim.Builds f → o ≠ some f ∧ ¬ g'.claim.Builds f ∧
    ¬ g'.claim.Counts f) : Joint R proc (update g t g') e' := by
  rw [h.mine t] at hofile hcount
  have hslot : ∀ q fd' f, e'.ofile q fd' = some f →
      (q = proc t ∧ fd' = fd ∧ o = some f) ∨ e.ofile q fd' = some f := by
    intro q fd' f hq
    by_cases hqt : q = proc t
    · by_cases hfd : fd' = fd
      · refine .inl ⟨hqt, hfd, ?_⟩
        simpa [hofile, Fs.setOfile, hqt, hfd] using hq
      · exact .inr (by simpa [hofile, Fs.setOfile, hqt, hfd] using hq)
    · exact .inr (by simpa [hofile, Fs.setOfile, hqt] using hq)
  refine h.ofFiles hgood hicache howned hp hmode hfresh hkeep
    (h.refs_update hcwd howned (fun f => by rw [hfile]) hrefs) (fun x hx => ?_) (fun f => ?_) ?_
    hbusy
    (h.builds_update (fun f hf => ?_) fun u f hu hb => ?_)
  · rw [hrefs]
    exact h.held t x (hheld ▸ hx)
  · have hsum := fileCount_setOfile (g := g) (t := t) (a := g') (proc t) fd o hofile f
    have := h.files f
    have := hcount f
    rw [hfile]
    omega
  · simpa only [hfile] using h.free
  · obtain ⟨hf', hs, hv⟩ := h.builds t f (hmine f hf)
    refine ⟨hfile ▸ hf', fun q fd' hq => ?_, hv⟩
    rcases hslot q fd' f hq with ⟨hqt, -, -⟩ | hq
    · exact hqt
    · exact hs q fd' hq
  · obtain ⟨ho, ht⟩ := hother u f hu hb
    exact ⟨by rw [hfile], fun q fd' hq => (hslot q fd' f hq).resolve_left fun hq => ho hq.2.2, ht⟩

theorem Joint.setCwd [DecidableEq P] (h : Joint R proc g e) (hgood : e'.Good R)
    (hicache : e'.icache = e.icache) (hfile : e'.ftable = e.ftable) (hofile : e'.ofile = e.ofile)
    (hcwd : ∀ q, q ≠ (g t).p → e'.cwd q = e.cwd q ∧ e'.owned q = e.owned q) (hp : g'.p = (g t).p)
    (hmode : g'.mode = (g t).mode) (hclaim : g'.claim = (g t).claim) (hsole : (g t).mode = .sole)
    (hfresh : g'.fresh = (g t).fresh) (hkeep : FreshKept e e')
    (hrefs : ∀ x, g'.refs x + (if e'.owned (g t).p ∧ e'.cwd (g t).p = x then 1 else 0) =
      (g t).refs x + if e.owned (g t).p ∧ e.cwd (g t).p = x then 1 else 0)
    (hheld : ∀ x, g'.held x → 0 < g'.refs x) : Joint R proc (update g t g') e' := by
  rw [h.mine t] at hcwd hrefs
  refine h.sameFiles hgood hfile hofile hp hclaim hmode (fun x => ?_) hheld
    (h.fresh_update hfresh hkeep) fun q hq => ?_
  · have hsum := refCount_setCwd (g := g) (t := t) (a := g') (proc t) hcwd hfile x
    have := h.refs x
    have := hrefs x
    rw [hicache]
    omega
  · by_cases hqt : q = proc t
    · exact .inr ⟨hqt, hsole⟩
    · exact .inl ((hcwd q hqt).2 ▸ hq)

theorem Joint.setHeld (h : Joint R proc g e) (l : Ip → Bool) (hl : ∀ x, l x → 0 < (g t).refs x) :
    Joint R proc (update g t { g t with held := l }) e :=
  h.inodes h.good rfl rfl rfl rfl rfl rfl rfl .refl (h.refs_update rfl rfl (fun _ => rfl) rfl) hl

end Joint

end Xv6.Ilock
