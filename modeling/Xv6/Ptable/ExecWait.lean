import Xv6.Ptable.Marks
import Xv6.Ptable.Stacks

/-!
# The waiting loop of `exec`

`exec` marks the other threads of its process killed, one slot at a time and without `ptable.lock`,
and then waits until it sees none of them alive.  Two threads that call `exec` at the same time wait
for each other, and a thread that is already in `kthread_create` may make one that is not marked.
-/

namespace Xv6.Ptable

open List Table Machine.Sys Kernel Bool

variable {C : Type} {s s' : Kernel C} {c : C} {me t u : Slot} {T : Table} {a : Act}
    {st st' : List Frame} {f : Frame}

/-! ## Code of the loops -/

/-- The waiting loop of `exec`. -/
@[simp] def Frame.waiting : Frame → Bool
  | acquire .execWake | crit .execWake | execCheck _ _ => true
  | _ => false

/-- The loop of `exec` that marks the other threads, or the one that waits for them. -/
def Frame.execing : Frame → Bool
  | execMark _ => true
  | f => f.waiting

theorem Frame.execing_of_waiting (h : f.waiting) : f.execing := by
  cases f <;> first | exact h | rfl

theorem Frame.not_execing_of_plain (h : f.plain) : f.execing = false := by
  rcases f.plain_cases h with rfl | ⟨g, rfl⟩ | rfl <;> rfl

theorem Frame.not_execing_of_pushed (h : f.pushed) : f.execing = false := by
  unfold Frame.pushed at h
  split at h <;> first | rfl | cases h

theorem Table.crit_execing (T : Table) (me : Slot) (ok : Bool) {k : Sec} (hk : k ≠ .execWake)
    {fs : List Frame} (h : (T.crit me ok k).2.frames = some fs) : ∀ f ∈ fs, f.execing = false := by
  cases k with
  | execWake => exact absurd rfl hk
  | allocproc =>
    simp only [crit, allocproc] at h
    split at h
    · cases h
      simp [Frame.execing]
    · cases ok <;> cases h <;> simp [Frame.execing]
  | fork np => cases ok <;> cases h <;> simp [Frame.execing]
  | kthreadCreate => cases ok <;> cases h <;> simp [Frame.execing]
  | wait =>
    simp only [crit] at h
    rcases T.wait_cases me with ⟨q, n, -, -, hr⟩ | hr | hr | hr <;> rw [hr] at h <;> cases h <;>
      simp [Frame.execing]
  | kill pid =>
    simp only [crit, kill] at h
    split at h <;> cases h <;> simp [Frame.execing]
  | exit =>
    simp only [crit, exit] at h
    split_ifs at h <;> cases h <;> simp [Frame.execing]
  | exitThread =>
    simp only [crit, exitThread] at h
    split_ifs at h <;> cases h <;> simp [Frame.execing]
  | kthreadJoin tid =>
    simp only [crit, kthreadJoin] at h
    split at h <;> cases h <;> simp [Frame.execing]
  | joinLoop v =>
    simp only [crit, joinLoop] at h
    split at h <;> cases h <;> simp [Frame.execing]
  | exitProcess | growproc | yield | sleep _ | wakeup _ =>
    cases h
    simp [Frame.execing]

theorem Frame.Next.execing {ok : Bool} {fs : List Frame} (h : f.Next s me ok fs)
    (hfs : fs.any Frame.execing) : f.execing ∨ f = .enter .exec := by
  cases h with
  | acquire k =>
    left
    cases k <;> first | rfl | simp [Frame.execing] at hfs
  | @crit k fs h =>
    by_cases hk : k = .execWake
    · subst hk
      exact .inl rfl
    · obtain ⟨f, hf, hx⟩ := any_eq_true.1 hfs
      simp [crit_execing _ _ _ hk h f hf] at hx
  | enter g =>
    cases g with
    | exec => exact .inr rfl
    | _ => simp [Kernel.enter, Frame.execing] at hfs
  | forkret h | trapExit h => rcases h with rfl | rfl <;> simp [Frame.execing] at hfs
  | mark h | marked h | check h | again h | alone h => exact .inl rfl
  | release | sleepBack | kernel | execDone | exitProcess => simp [Frame.execing] at hfs

/-! ## What the loops know -/

/-- Every other thread of the process of `t` that is alive is marked killed. -/
def Table.OthersKilled (T : Table) (t : Slot) : Prop :=
  ∀ u, u.1 = t.1 → u ≠ t → (T.thread u).state.alive → (T.thread u).killed

/-- What thread `t` knows about its process at a frame of its stack. -/
def Tracks (T : Table) (t : Slot) : Frame → Prop
  | .execMark i => i ≤ (T.proc t.1).tNum ∧
      ∀ u, u.1 = t.1 → u ≠ t → u.2.val < i → (T.thread u).state.alive → (T.thread u).killed
  | .acquire .execWake | .crit .execWake => T.OthersKilled t
  | .execCheck i flag => T.OthersKilled t ∧ i ≤ (T.proc t.1).tNum ∧
      (flag = false → ∀ u, u.1 = t.1 → u ≠ t → u.2.val < i → (T.thread u).state.alive = false)
  | _ => True

theorem Tracks.of_not_execing (h : f.execing = false) : Tracks T t f := by
  unfold Tracks
  split <;> first | (simp [Frame.execing] at h; done) | trivial

theorem Tracks.othersKilled (h : Tracks T t f) (hf : f.waiting) : T.OthersKilled t := by
  unfold Frame.waiting at hf
  split at hf
  · exact h
  · exact h
  · exact h.1
  · cases hf

/-- `exec` is not entered while another thread of the process is in the loops. -/
def ExecAlone (s : Kernel C) (a : C × Act) : Prop :=
  ∀ ok me st, a.2 = .go ok → (s.cpu a.1).thread = some me →
    (s.cpu a.1).ctl = .run (.enter .exec :: st) →
    ∀ t st', t.1 = me.1 → Stk s t st' → st'.any Frame.execing = false

/-- What holds of the threads in the loops. -/
structure ExecOk (s : Kernel C) : Prop where
  tracks : ∀ t st, Stk s t st → ∀ f ∈ st, Tracks s.table t f
  solo : ∀ t u st st', Stk s t st → Stk s u st' → t.1 = u.1 → st.any Frame.execing →
    st'.any Frame.execing → t = u

section Steps

variable [DecidableEq C]

section

variable (hi : Inv s) (hok : careful s (c, a)) (hn : s.next c a = some s') (hstk : Stk s t st)
  {f : Frame} (hf : f ∈ st)

include hi hok hn hstk hf

theorem Inv.born_elsewhere (hx : f.execing) (hut : u.1 = t.1)
    (hu : (s.table.thread u).state.alive = false) (hu' : (s'.table.thread u).state.alive) :
    u.2.val = (s.table.proc t.1).tNum ∧
      ∃ me, me.1 = t.1 ∧ me ≠ t ∧ (s.table.thread me).state.alive ∧
      (s.table.thread me).killed = false := by
  obtain ⟨hsound, hcreate⟩ := (and_eq_true _ _).mp hok
  rcases (hi.event (inBounds_of_sound hsound) hn).born hi hu hu' with
    ⟨me, st₁, hme, hctl, ⟨ok, rfl⟩, hum, hslot⟩ | ⟨hunused, -⟩
  · have hmt : me.1 = t.1 := hum.symm.trans hut
    refine ⟨hmt ▸ hslot, me, hmt, ?_, by rw [hi.cpu.running c _ hme]; rfl, ?_⟩
    · -- the stack of a thread in `kthread_create` holds no frame of the loops
      rintro rfl
      have hst : st = .crit .kthreadCreate :: st₁ := by
        rcases hstk with ⟨d, hd, hdctl⟩ | ⟨hsv, -⟩
        · obtain rfl := hi.cpu.inj d c me hd hme
          exact Ctl.run.inj (hdctl.symm.trans hctl)
        · rw [hi.cpu.running c me hme] at hsv
          exact absurd hsv (by decide)
      have hplain := (hi.at_crit hctl).2.2.1 rfl
      subst hst
      rcases mem_cons.1 hf with rfl | hf
      · exact absurd hx (by decide)
      · rw [Frame.not_execing_of_plain (all_eq_true.1 hplain f hf)] at hx
        cases hx
    · simpa [createUnkilled, hme, hctl] using hcreate
  · rw [hut, hi.table.alive t (hstk.alive hi)] at hunused
    cases hunused

theorem Tracks.next (h : Tracks s.table t f) : Tracks s'.table t f := by
  cases hx : f.execing with
  | false => exact .of_not_execing hx
  | true =>
    have hb : inBounds s (c, a) := inBounds_of_sound ((and_eq_true _ _).mp hok).1
    have hkept := KillKept.next hi hb hn
    have hborn := fun u => hi.born_elsewhere (u := u) hok hn hstk hf hx
    have htNum : (s.table.proc t.1).tNum ≤ (s'.table.proc t.1).tNum := by
      have hused := hi.table.alive t (hstk.alive hi)
      cases ((hi.event hb hn).procStep hi t.1).1 with
      | same _ _ _ ht => exact ht
      | mark _ _ _ _ ht => exact ht.ge
      | zombie _ _ _ _ ht => exact ht.ge
      | make _ _ hf _ _ _ => simp [findUnused_spec hf] at hused
      | undo _ _ _ _ ht => exact ht.ge
      | reap hz _ _ _ => simp [hused] at hz
    have hothers : s.table.OthersKilled t → s'.table.OthersKilled t := fun ho u hut hne hu' => by
      cases hu : (s.table.thread u).state.alive with
      | true => exact hkept u hu (ho u hut hne hu)
      | false =>
        obtain ⟨-, me, hmt, hmne, hma, hmk⟩ := hborn u hut hu hu'
        rw [ho me hmt hmne hma] at hmk
        cases hmk
    unfold Tracks at h ⊢
    split at h
    · refine ⟨h.1.trans htNum, fun u hut hne hlt hu' => ?_⟩
      cases hu : (s.table.thread u).state.alive with
      | true => exact hkept u hu (h.2 u hut hne hlt hu)
      | false =>
        have hslot := (hborn u hut hu hu').1
        omega
    · exact hothers h
    · exact hothers h
    · obtain ⟨ho, hi', hdead⟩ := h
      refine ⟨hothers ho, hi'.trans htNum, fun hflag u hut hne hlt => ?_⟩
      by_contra hu'
      have hslot := (hborn u hut (hdead hflag u hut hne hlt) (by simpa using hu')).1
      omega
    · trivial

end

omit [DecidableEq C] in
theorem Kernel.slotOf_some {i : ℕ} (h : s.slotOf me i = some t) :
    t.1 = me.1 ∧ t.2.val = i ∧ i < (s.table.proc me.1).tNum := by
  unfold slotOf at h
  split_ifs at h with hi hb
  obtain rfl := Option.some.inj h
  exact ⟨rfl, rfl, by simpa [below] using hb⟩

omit [DecidableEq C] in
theorem Kernel.slotOf_none (hT : TableOk s.table) {i : ℕ} (h : s.slotOf me i = none)
    (hu : u.1 = me.1) (ha : (s.table.thread u).state.alive) : u.2.val < i := by
  have hbelow : s.table.below u := hT.below fun h => by simp [h, ThreadState.alive] at ha
  have hlt : u.2.val < (s.table.proc me.1).tNum := by simpa [below, hu] using hbelow
  unfold slotOf at h
  split_ifs at h with hi hb
  · have : ¬ i < (s.table.proc me.1).tNum := by simpa [below] using hb
    omega
  · omega

theorem Tracks.frame {ok : Bool} (hi : Inv s) (hok : careful s (c, .go ok))
    {fs : List Frame} (hme : (s.cpu c).thread = some t) (hctl : (s.cpu c).ctl = .run (f :: st))
    (hf : f.Next s t ok fs) (hn : s.next c (.go ok) = some s') (h : Tracks s.table t f) :
    ∀ g ∈ fs, Tracks s'.table t g := by
  have h' : Tracks s'.table t f := h.next hi hok hn (.inl ⟨c, hme, hctl⟩) mem_cons_self
  have hframe : s.frame c t ok f st = some s' := by
    simpa [Kernel.next, Kernel.go, hctl, hme] using hn
  by_cases hx : fs.any Frame.execing
  swap
  · intro g hg
    have hne : ∀ g ∈ fs, g.execing = false := by simpa using hx
    exact .of_not_execing (hne g hg)
  rcases hf.execing hx with hfx | rfl
  swap
  · -- the loop that marks begins
    cases hf
    have hk : (s.table.thread t).killed = false := by
      simpa [careful, sound, execUnkilled, hme, hctl] using ((and_eq_true _ _).mp
        ((and_eq_true _ _).mp hok).1).2
    intro g hg
    simp only [Kernel.enter, hk, false_eq_true, if_false, mem_singleton] at hg
    subst hg
    exact ⟨Nat.zero_le _, fun u _ _ hlt => absurd hlt (Nat.not_lt_zero _)⟩
  cases hf with
  | @mark i v hv =>
    obtain ⟨hvt, hvi, hlt⟩ := Kernel.slotOf_some hv
    simp only [Kernel.frame, hv, Option.some.injEq] at hframe
    have hproc : s'.table.proc = s.table.proc := by
      rw [← hframe]
      show (if _ then _ else _ : Table).proc = _
      split_ifs <;> rfl
    rw [forall_mem_singleton]
    refine ⟨by rw [hproc]; exact hlt, fun u hut hne hle hu => ?_⟩
    rcases Nat.lt_succ_iff_lt_or_eq.1 hle with hlt' | heq
    · exact h'.2 u hut hne hlt' hu
    · -- the slot that the step looks at
      obtain rfl : u = v := Prod.ext (hut.trans hvt.symm) (Fin.ext (heq.trans hvi.symm))
      rw [← hframe] at hu ⊢
      by_cases hs : (s.table.thread u).state = .UNUSED_T
      · simp [Kernel.setCtl, hs, ThreadState.alive] at hu
      · simp [Kernel.setCtl, hs, hne, setThread]
  | marked hnone =>
    rw [forall_mem_singleton]
    have hsame : s'.table = s.table := by
      simp only [Kernel.frame, hnone, Option.some.injEq] at hframe
      rw [← hframe]
      rfl
    intro u hut hne hu
    exact h'.2 u hut hne (Kernel.slotOf_none hi.table hnone hut (hsame ▸ hu)) hu
  | @check i flag v hv =>
    obtain ⟨hvt, hvi, hlt⟩ := Kernel.slotOf_some hv
    have hsame : s'.table = s.table := by
      simp only [Kernel.frame, hv, Option.some.injEq] at hframe
      rw [← hframe]
      rfl
    rw [forall_mem_singleton]
    refine ⟨h'.1, by rw [hsame]; exact hlt, fun hflag u hut hne hle => ?_⟩
    rw [or_eq_false_iff] at hflag
    rcases Nat.lt_succ_iff_lt_or_eq.1 hle with hlt' | heq
    · exact h'.2.2 hflag.1 u hut hne hlt'
    · obtain rfl : u = v := Prod.ext (hut.trans hvt.symm) (Fin.ext (heq.trans hvi.symm))
      have hdead := of_decide_eq_false hflag.2
      rw [hsame]
      simpa [hne] using hdead
  | again hnone =>
    rw [forall_mem_singleton]
    exact h'.1
  | alone hnone => simp [Tracks]
  | acquire k =>
    rw [forall_mem_singleton]
    cases k <;> exact h'
  | @crit k fs hfs =>
    obtain rfl : k = .execWake := by
      cases k <;> first | rfl | simp [Frame.execing] at hfx
    cases hfs
    have hothers : s'.table.OthersKilled t := h'
    simp [Tracks, hothers]
  | release | sleepBack | forkret _ | trapExit _ | enter _ | kernel | execDone | exitProcess =>
    exact absurd hfx (by simp [Frame.execing])

theorem ExecOk.next (h : ExecOk s) (hi : Inv s) (hok : careful s (c, a))
    (halone : ExecAlone s (c, a)) (hn : s.next c a = some s') : ExecOk s' := by
  have hb : inBounds s (c, a) := inBounds_of_sound ((and_eq_true _ _).mp hok).1
  -- a thread in the loops was so before, or enters them in this step
  have hwas : ∀ t st', Stk s' t st' → st'.any Frame.execing →
      (∃ st, Stk s t st ∧ st.any Frame.execing) ∨
        (s.cpu c).thread = some t ∧ (∃ ok, a = .go ok) ∧
        ∃ st, (s.cpu c).ctl = .run (.enter .exec :: st) := by
    intro t st' hst' hx
    rcases Stk.next hi hb hn hst' with hst | rfl | ⟨st, hstep⟩
    · exact .inl ⟨st', hst, hx⟩
    · exact absurd hx (by decide)
    · have hstk := hstep.stk
      cases hstep with
      | @next ok f fs st hme hctl hf =>
        rw [any_append, or_eq_true] at hx
        rcases hx with hx | hx
        · rcases hf.execing hx with hfx | rfl
          · exact .inl ⟨_, hstk, by simp [hfx]⟩
          · exact .inr ⟨hme, ⟨ok, rfl⟩, st, hctl⟩
        · exact .inl ⟨_, hstk, by simp [hx]⟩
      | @push a fs st hme hctl hfs =>
        rw [any_append, or_eq_true] at hx
        rcases hx with hx | hx
        · obtain ⟨f, hf, hfx⟩ := any_eq_true.1 hx
          rw [Frame.not_execing_of_pushed (all_eq_true.1 hfs f hf)] at hfx
          cases hfx
        · exact .inl ⟨st, hstk, hx⟩
  -- a thread that enters the loops finds no other one there
  have henter : ∀ t u st, (s.cpu c).thread = some t → (∃ ok, a = .go ok) →
      (∃ st, (s.cpu c).ctl = .run (.enter .exec :: st)) → u.1 = t.1 → Stk s u st →
      st.any Frame.execing → False := by
    rintro t u st hme ⟨ok, ha⟩ ⟨st₁, hctl⟩ hut hst hx
    rw [halone ok t st₁ ha hme hctl u st hut hst] at hx
    cases hx
  refine ⟨fun t st' hst' g hg => ?_, fun t u st st' hst hst' htu hx hx' => ?_⟩
  · rcases Stk.next hi hb hn hst' with hst | rfl | ⟨st, hstep⟩
    · exact (h.tracks t st' hst g hg).next hi hok hn hst hg
    · obtain rfl := mem_singleton.1 hg
      trivial
    · have hstk := hstep.stk
      cases hstep with
      | @next ok f fs st hme hctl hf =>
        rcases mem_append.1 hg with hg | hg
        · exact Tracks.frame hi hok hme hctl hf hn (h.tracks t _ hstk _ mem_cons_self) g hg
        · have hg' := mem_cons_of_mem f hg
          exact (h.tracks t _ hstk g hg').next hi hok hn hstk hg'
      | push hme hctl hfs =>
        rcases mem_append.1 hg with hg | hg
        · exact .of_not_execing (Frame.not_execing_of_pushed (all_eq_true.1 hfs g hg))
        · exact (h.tracks t _ hstk g hg).next hi hok hn hstk hg
  · rcases hwas t st hst hx with ⟨st₁, hst₁, hx₁⟩ | ⟨hme, ha, hctl⟩ <;>
      rcases hwas u st' hst' hx' with ⟨st₂, hst₂, hx₂⟩ | ⟨hme', ha', hctl'⟩
    · exact h.solo t u st₁ st₂ hst₁ hst₂ htu hx₁ hx₂
    · exact (henter u t st₁ hme' ha' hctl' htu hst₁ hx₁).elim
    · exact (henter t u st₂ hme ha hctl htu.symm hst₂ hx₂).elim
    · exact Option.some.inj (hme.symm.trans hme')

theorem ExecOk.of_reachable
    (h : (kernelSys C).ReachableVia (fun s a => careful s a ∧ ExecAlone s a) s) :
    Inv s ∧ ExecOk s := by
  refine h.invariant (I := fun s => Inv s ∧ ExecOk s) (fun s hs => ?_) fun s a s' ⟨hi, he⟩
    ⟨hok, halone⟩ hn => ?_
  · obtain ⟨base, rfl⟩ := hs
    have hstk : ∀ t st, Stk (boot C base) t st → st = [.forkret] := by
      rintro t st (⟨c, hc, -⟩ | ⟨hsv, hc⟩)
      · simp [boot] at hc
      · by_cases h0 : t.1.val = 0 ∧ t.2.val = 0 <;> simp_all [boot, userinit, ThreadState.saved]
    refine ⟨Inv.boot base, fun t st hst f hf => ?_, fun t u st st' hst _ _ hx => ?_⟩
    · rw [hstk t st hst] at hf
      obtain rfl := mem_singleton.1 hf
      trivial
    · rw [hstk t st hst] at hx
      exact absurd hx (by decide)
  · exact ⟨hi.next ((and_eq_true _ _).mp hok).1 hn, he.next hi hok halone hn⟩

/-- A thread in the waiting loop of `exec` waits for threads that are marked killed and do not wait
themselves; and when it leaves the loop, no other thread of the process is alive. -/
theorem exec_wait_sound
    (h : (kernelSys C).ReachableVia (fun s a => careful s a ∧ ExecAlone s a) s) :
    (∀ t st, Stk s t st → st.any Frame.waiting → ∀ u, u.1 = t.1 → u ≠ t →
      (s.table.thread u).state.alive → (s.table.thread u).killed ∧ ∀ st', Stk s u st' →
      st'.any Frame.waiting = false) ∧ ∀ c t i st, (s.cpu c).thread = some t →
      (s.cpu c).ctl = .run (.execCheck i false :: st) → s.slotOf t i = none → ∀ u, u.1 = t.1 →
      u ≠ t → (s.table.thread u).state.alive = false := by
  obtain ⟨hi, he⟩ := ExecOk.of_reachable h
  have hexec : ∀ {st : List Frame}, st.any Frame.waiting → st.any Frame.execing := fun hx => by
    obtain ⟨f, hf, hx⟩ := any_eq_true.1 hx
    exact any_eq_true.2 ⟨f, hf, Frame.execing_of_waiting hx⟩
  refine ⟨fun t st hst hx u hut hne hu => ⟨?_, fun st' hst' => ?_⟩,
    fun c t i st hme hctl hnone u hut hne => ?_⟩
  · obtain ⟨f, hf, hfx⟩ := any_eq_true.1 hx
    exact (he.tracks t st hst f hf).othersKilled hfx u hut hne hu
  · by_contra hx'
    exact hne (he.solo u t st' st hst' hst hut (hexec (by simpa using hx')) (hexec hx))
  · by_contra hu
    have htr := he.tracks t _ (.inl ⟨c, hme, hctl⟩) _ mem_cons_self
    exact hu (htr.2.2 rfl u hut hne (slotOf_none hi.table hnone hut (by simpa using hu)))

end Steps

/-! ## Two threads -/

/-- No thread of the process is in the loops, on two CPUs. -/
def noExec (s : Kernel (Fin 2)) (a : Fin 2 × Act) : Bool :=
  match a.2, (s.cpu a.1).thread, (s.cpu a.1).ctl with
  | .go _, some me, .run (.enter .exec :: _) =>
    decide (∀ c, ∀ f ∈ (match (s.cpu c).ctl with | .run st => st | _ => []), f.execing = false) &&
      decide (∀ i, ∀ f ∈ (s.table.thread (me.1, i)).context, f.execing = false)
  | _, _, _ => true

theorem ExecAlone.of_noExec {s : Kernel (Fin 2)} {a : Fin 2 × Act} (h : noExec s a) :
    ExecAlone s a := by
  intro ok me st ha hme hctl t st' htm hst
  simp only [noExec, ha, hme, hctl, and_eq_true, decide_eq_true_eq] at h
  rw [any_eq_false]
  intro f hf
  rw [not_eq_true]
  rcases hst with ⟨d, hd, hdctl⟩ | ⟨hsv, rfl⟩
  · have := h.1 d
    rw [hdctl] at this
    exact this f hf
  · exact h.2 t.2 f (by rwa [← htm])

/-- The second thread calls `exec` and is in its waiting loop. -/
def execSecond : List (Fin 2 × Act) := twoThreads ++ callOn 1 .exec (replicate 5 true)

theorem exec_wait_sound_second :
    ∃ s : Kernel (Fin 2), (kernelSys (Fin 2)).ReachableVia (fun s a => careful s a ∧ ExecAlone s a)
      s ∧ (∃ st, Stk s (initSlot 1) st ∧ st.any Frame.waiting) ∧
      (s.table.thread (initSlot 0)).state = .RUNNING ∧ (s.table.thread (initSlot 0)).killed := by
  obtain ⟨s, hrun, hme, hctl, hst⟩ : ∃ s,
      (kernelSys (Fin 2)).ReachableVia (fun s a => careful s a ∧ noExec s a) s ∧
      (s.cpu 1).thread = some (initSlot 1) ∧ (s.cpu 1).ctl = .run [.acquire .execWake, .trapExit] ∧
      (s.table.thread (initSlot 0)).state = .RUNNING :=
    exists_reachableVia execSecond (boot_init 0) (by decide +kernel)
  have hreach := hrun.mono fun _ _ h => h.imp_right ExecAlone.of_noExec
  have hstk : Stk s (initSlot 1) [.acquire .execWake, .trapExit] := .inl ⟨1, hme, hctl⟩
  exact ⟨s, hreach, ⟨_, hstk, rfl⟩, hst,
    ((exec_wait_sound hreach).1 _ _ hstk rfl (initSlot 0) rfl (by decide) (by rw [hst]; rfl)).1⟩

def execBoth : List (Fin 2 × Act) :=
  twoThreads ++ callOn 0 .exec [true, true] ++ callOn 1 .exec [true, true] ++ replicate 3
    (0, .go true) ++
    replicate 3 (1, .go true)

/-- The first thread is in `kthread_create` when the second one marks it, and goes on then. -/
def createInExec : List (Fin 2 × Act) :=
  twoThreads ++ callOn 0 .kthreadCreate [true, true] ++ callOn 1 .exec (replicate 5 true) ++
    replicate 3 (0, .go true)

/-- Two threads are in the waiting loop, each marked by the other; and a thread is in the waiting
loop while another one of its process is alive and not marked. -/
theorem exec_waits_forever : (∃ s : Kernel (Fin 2), (kernelSys (Fin 2)).Reachable s ∧
      (∃ st, Stk s (initSlot 0) st ∧ st.any Frame.waiting) ∧
      (∃ st, Stk s (initSlot 1) st ∧ st.any Frame.waiting) ∧
      (s.table.thread (initSlot 0)).killed ∧ (s.table.thread (initSlot 1)).killed) ∧
    ∃ s : Kernel (Fin 2), (kernelSys (Fin 2)).Reachable s ∧
      (∃ st, Stk s (initSlot 1) st ∧ st.any Frame.waiting) ∧
      (s.table.thread (initSlot 2)).state = .RUNNABLE ∧
      (s.table.thread (initSlot 2)).killed = false := by
  constructor
  · obtain ⟨s, hreach, hme, hctl, hme', hctl', hk⟩ : ∃ s, (kernelSys (Fin 2)).Reachable s ∧
        (s.cpu 0).thread = some (initSlot 0) ∧
        (s.cpu 0).ctl = .run [.acquire .execWake, .trapExit] ∧
        (s.cpu 1).thread = some (initSlot 1) ∧
        (s.cpu 1).ctl = .run [.acquire .execWake, .trapExit] ∧
        (s.table.thread (initSlot 0)).killed ∧ (s.table.thread (initSlot 1)).killed :=
      exists_reachable execBoth (boot_init 0) (by decide +kernel)
    exact ⟨s, hreach, ⟨_, .inl ⟨0, hme, hctl⟩, rfl⟩, ⟨_, .inl ⟨1, hme', hctl'⟩, rfl⟩, hk⟩
  · obtain ⟨s, hreach, hme, hctl, hk⟩ : ∃ s, (kernelSys (Fin 2)).Reachable s ∧
        (s.cpu 1).thread = some (initSlot 1) ∧
        (s.cpu 1).ctl = .run [.acquire .execWake, .trapExit] ∧
        (s.table.thread (initSlot 2)).state = .RUNNABLE ∧
        (s.table.thread (initSlot 2)).killed = false :=
      exists_reachable createInExec (boot_init 0) (by decide +kernel)
    exact ⟨s, hreach, ⟨_, .inl ⟨1, hme, hctl⟩, rfl⟩, hk⟩

end Xv6.Ptable
