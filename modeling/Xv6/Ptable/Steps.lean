import Xv6.Ptable.Inversion
import Xv6.Ptable.Preserved

/-!
# Every step keeps the invariant

The invariant holds along every run in which `kthread_create` is called only while the process has a
thread slot left (`inBounds`), and `exec` only by threads that are not marked killed
(`execUnkilled`).
-/

namespace Xv6.Ptable

open Function List Table Kernel Bool

variable {C : Type}

attribute [local simp] Kernel.switch Kernel.setCtl wf

/-- `kthread_create` enters its section only while `t_num < NTHREADS`. -/
def inBounds (s : Kernel C) (a : C × Act) : Bool :=
  match a.2, (s.cpu a.1).thread, (s.cpu a.1).ctl with
  | .go _, some me, .run (.crit .kthreadCreate :: _) => decide ((s.table.proc me.1).tNum < NTHREADS)
  | _, _, _ => true

/-- `exec` is entered only by a thread that is not marked killed. -/
def execUnkilled (s : Kernel C) (a : C × Act) : Bool :=
  match a.2, (s.cpu a.1).thread, (s.cpu a.1).ctl with
  | .go _, some me, .run (.enter .exec :: _) => !(s.table.thread me).killed
  | _, _, _ => true

def sound (s : Kernel C) (a : C × Act) : Bool := inBounds s a && execUnkilled s a

theorem inBounds_of_sound {s : Kernel C} {a : C × Act} (h : sound s a) : inBounds s a := by
  rw [sound, and_eq_true] at h
  exact h.1

variable {s s' : Kernel C} {c : C} {me : Slot} {st : List Frame} {T : Table} {lk : Option C}
    {fi : Bool}

/-! ## Code of a thread outside the sections -/

section

variable (h : Inv s) {f : Frame} (hctl : (s.cpu c).ctl = .run (f :: st))

include h hctl

theorem Inv.at_free (hf : f.locked = false) : wf st ∧ free st := by
  obtain ⟨hwf, hlk⟩ := h.at_run hctl
  constructor
  · unfold wf at hwf
    split_ifs at hwf
    · exact wf_of_plain hwf
    · exact hwf
  · rcases hlk with hfree | ⟨hheld, -⟩
    · simpa [free, hf] using hfree
    · cases f <;> simp_all [held, Frame.locked]

theorem Inv.at_locked (hf : f.locked) : held (f :: st) ∧ s.lock = some c :=
  (h.at_run hctl).2.resolve_left (by simp [free, hf])

theorem Inv.at_base (hf : f.base) : st.all Frame.plain := by
  simpa [hf] using (h.at_run hctl).1

end

theorem wf_base {f : Frame} (hf : f.base) (hplain : st.all Frame.plain) : wf (f :: st) := by
  rw [wf, if_pos hf]
  exact hplain

variable [DecidableEq C]

theorem Inv.frame_goto (h : Inv s) (hme : (s.cpu c).thread = some me) {f : Frame}
    (hctl : (s.cpu c).ctl = .run (f :: st)) (hf : f.locked = false) (hw : Wakes s.table T)
    (fs : List Frame) (hwf : wf (fs ++ st)) (hfree : free fs)
    (hfork : ∀ np, fs.any (Frame.forks np) = false) (hexit : fs.any Frame.exiting → f.exiting)
    (hdying : fs.any Frame.dying → me.1 ≠ s.table.initproc) :
    Inv ({ s with table := T }.setCtl c (.run (fs ++ st))) := by
  rw [setCtl_eq hme]
  refine h.local_wakes hme hctl hw (fun _ _ hd => hd) hwf (.inl ?_) (fun np hnp => ?_)
    (fun hx => .inl ?_)
    fun hx => ?_
  · rw [free, all_append, Bool.and_eq_true]
    exact ⟨hfree, (h.at_free hctl hf).2⟩
  · rw [any_append, hfork, Bool.false_or] at hnp
    simp [hnp]
  · rw [any_append, Bool.or_eq_true] at hx
    rcases hx with hx | hx
    · simp [hexit hx]
    · simp [hx]
  · rw [any_append, Bool.or_eq_true] at hx
    rcases hx with hx | hx
    · exact .inr (hdying hx)
    · exact .inl (by simp [hx])

attribute [local simp] Frame.base

theorem Inv.thread_acquire (h : Inv s) (hme : (s.cpu c).thread = some me) {k : Sec}
    (hctl : (s.cpu c).ctl = .run (.acquire k :: st)) (hlock : s.lock = none) :
    Inv ({ s with lock := some c }.setCtl c (.run (.crit k :: st))) := by
  obtain ⟨-, hfree⟩ := h.at_free hctl rfl
  have heq : ({ s with lock := some c }.setCtl c (.run (.crit k :: st)) : Kernel C) =
      ⟨s.table, some c, update s.cpu c ⟨some me, .run (.crit k :: st)⟩, s.first⟩ := by
    simp [hme]
  rw [heq]
  refine h.local_wakes hme hctl (Wakes.refl _) (fun d _ hd => by simp [hlock] at hd) ?_
    (.inr ⟨by simpa [held, Frame.locked] using hfree, rfl⟩) (fun np hnp => ?_) (fun hx => .inl ?_)
    fun hx => .inl ?_
  · simpa using (h.at_run hctl).1
  · cases k <;> simpa [Frame.forks] using hnp
  · revert hx
    cases k <;> simp [Frame.exiting]
  · revert hx
    cases k <;> simp [Frame.dying]

theorem Kernel.release_eq (hme : (s.cpu c).thread = some me) (hlock : s.lock = some c) (k : Ctl) :
    ({ s with first := fi }.release c k : Kernel C) =
      ⟨s.table, none, update s.cpu c ⟨some me, k⟩, fi⟩ := by
  simp [release, hlock, hme]

theorem Inv.thread_release (h : Inv s) (hme : (s.cpu c).thread = some me) {f : Frame}
    (hctl : (s.cpu c).ctl = .run (f :: st)) (hf : f = .release ∨ f = .forkret) (fs : List Frame)
    (hfs : fs = [] ∨ fs = [.kernel]) :
    Inv ({ s with first := fi }.release c (.run (fs ++ st))) := by
  obtain ⟨hheld, hlock⟩ := h.at_locked hctl (by rcases hf with rfl | rfl <;> rfl)
  have hfree : free st := by rcases hf with rfl | rfl <;> simpa [held, Frame.locked] using hheld
  have hwf : wf st := by
    rcases hf with rfl | rfl <;> simpa using (h.at_run hctl).1
  rw [release_eq hme hlock]
  refine h.local_wakes hme hctl (Wakes.refl _)
    (fun d hdc hd => absurd (Option.some.inj (hd.symm.trans hlock)) hdc) ?_ (.inl ?_)
    (fun np hnp => ?_)
    (fun hx => .inl ?_) fun hx => .inl ?_
  · rcases hfs with rfl | rfl
    · exact hwf
    · simpa using hwf
  · rcases hfs with rfl | rfl
    · exact hfree
    · simpa [free, Frame.locked] using hfree
  · have : st.any (Frame.forks np) := by
      rcases hfs with rfl | rfl <;> simpa [Frame.forks] using hnp
    simp [this]
  · have : st.any Frame.exiting := by
      rcases hfs with rfl | rfl <;> simpa [Frame.exiting] using hx
    simp [this]
  · have : st.any Frame.dying := by
      rcases hfs with rfl | rfl <;> simpa [Frame.dying] using hx
    simp [this]

theorem Inv.sleepBack (h : Inv s) (hme : (s.cpu c).thread = some me)
    (hctl : (s.cpu c).ctl = .run (.sleepBack :: st)) :
    Inv ({ s with table := s.table.setThread me fun th => { th with chan := .null } }.setCtl c
      (.run st)) := by
  obtain ⟨hheld, hlock⟩ := h.at_locked hctl rfl
  rw [setCtl_eq hme]
  refine h.local_wakes hme hctl (Wakes.setThread rfl rfl rfl) (fun _ _ hd => hd) ?_
    (.inr ⟨hheld, hlock⟩) (fun np hnp => by simp [hnp]) (fun hx => .inl (by simp [hx]))
    fun hx => .inl (by simp [hx])
  simpa using (h.at_run hctl).1

theorem TableOk.congr {T T' : Table} (hT : TableOk T) (ht : T'.thread = T.thread)
    (hp : ∀ p, (T'.proc p).tNum = (T.proc p).tNum ∧ (T'.proc p).state = (T.proc p).state) :
    TableOk T' := by
  have hb : ∀ t, T'.below t = T.below t := fun t => by rw [Table.below, Table.below, (hp t.1).1]
  refine ⟨fun p => ?_, fun t => ?_, fun t => ?_, fun t => ?_, fun t => ?_⟩
  · rw [(hp p).1]
    exact hT.tNum p
  · rw [hb, ht]
    exact hT.above t
  · rw [(hp t.1).2, ht]
    exact hT.unused t
  · rw [(hp t.1).2, ht]
    exact hT.alive t
  · rw [(hp t.1).1, ht]
    exact hT.embryo t

theorem Keeps.execDone (hT : TableOk T) (ok : Bool) : Keeps T (Kernel.execDone T me ok) me := by
  have ht : (Kernel.execDone T me ok).thread = T.thread := by cases ok <;> rfl
  refine ⟨fun t => ?_, hT.congr ht fun p => ?_, fun t h₁ h₂ => ?_, ?_⟩
  · rw [ht]
    exact .same rfl rfl
  · cases ok with
    | false => exact ⟨rfl, rfl⟩
    | true =>
      by_cases hp : p = me.1
      · subst hp
        simp [Kernel.execDone, Table.free, Table.setProc]
      · simp [Kernel.execDone, Table.free, Table.setProc, hp]
  · rw [ht, h₁] at h₂
    exact absurd h₂ (by decide)
  · cases ok <;> rfl

theorem Inv.execDone (h : Inv s) (hme : (s.cpu c).thread = some me) {ok : Bool}
    (hctl : (s.cpu c).ctl = .run (.execDone :: st)) :
    Inv ({ s with table := Kernel.execDone s.table me ok }.setCtl c (.run st)) := by
  have hplain := h.at_base hctl rfl
  have ht : (Kernel.execDone s.table me ok).thread = s.table.thread := by cases ok <;> rfl
  rw [Kernel.setCtl_eq hme]
  exact h.local_keeps hme hctl (Keeps.execDone h.table ok) (fun np he => .inl (by rwa [ht]))
    (wf_of_plain hplain) (.inl (free_of_plain hplain)) (by simp [not_forks_of_plain hplain])
    (not_exiting_of_plain hplain)

theorem enter_spec (g : Call) (hplain : st.all Frame.plain)
    (hx : g = .exec → (T.thread me).killed = false) :
    wf (enter T me g ++ st) ∧ free (enter T me g) ∧
      (∀ np, (enter T me g).any (Frame.forks np) = false) ∧
      (enter T me g).any Frame.exiting = false := by
  cases g with
  | exec =>
    simp only [enter, hx rfl]
    exact ⟨by simpa using hplain, rfl, fun _ => rfl, rfl⟩
  | other => exact ⟨by simpa [enter] using wf_of_plain hplain, rfl, fun _ => rfl, rfl⟩
  | _ =>
    exact ⟨by simpa [enter, Sec.leaf] using hplain, rfl, fun _ => rfl, rfl⟩

theorem Wakes.fault (T : Table) (p : ProcId) : Wakes T (T.fault p) := by
  refine (Wakes.mapThread (fun t => ?_) (fun t => ?_) fun t => ?_).trans
    (Wakes.setKilled _ p true) <;>
    split_ifs <;> simp

theorem Inv.frame (h : Inv s) (hme : (s.cpu c).thread = some me) {ok : Bool} {f : Frame}
    {fs : List Frame} (hctl : (s.cpu c).ctl = .run (f :: st))
    (hx : f = .enter .exec → (s.table.thread me).killed = false) (hf : f.Goes s me ok T fs) :
    Inv ({ s with table := T }.setCtl c (.run (fs ++ st))) := by
  -- one frame, that a stack may begin with, replaces the frame
  have hone : ∀ {T : Table} (g : Frame), Wakes s.table T → f.locked = false → f.base → g.base →
      free [g] → (∀ np, g.forks np = false) → g.exiting = false → g.dying = false →
      Inv ({ s with table := T }.setCtl c (.run ([g] ++ st))) :=
      fun {T} g hw hl hbf hbg hfree hfork hex hdy =>
    h.frame_goto hme hctl hl hw [g] (wf_base hbg (h.at_base hctl hbf)) hfree (by simp [hfork])
    (by simp [hex])
      (by simp [hdy])
  cases hf with
  | sleepBack => exact h.sleepBack hme hctl
  | trapExit hfs =>
    rcases hfs with rfl | rfl
    · exact h.frame_goto hme hctl rfl (Wakes.refl _) [] (wf_of_plain (h.at_base hctl rfl)) rfl
        (by simp) (by simp)
        (by simp)
    · exact hone _ (Wakes.refl _) rfl rfl rfl rfl (fun _ => rfl) rfl rfl
  | enter g =>
    obtain ⟨hwf, hfree, hfork, hexit⟩ := enter_spec g (h.at_base hctl rfl) fun hg => hx (by rw [hg])
    exact h.frame_goto hme hctl rfl (Wakes.refl _) _ hwf hfree hfork (by simp [hexit])
      (by simp [not_dying hexit])
  | kernel =>
    exact h.frame_goto hme hctl rfl (Wakes.refl _) [] (h.at_free hctl rfl).1 rfl (by simp) (by simp)
      (by simp)
  | @mark i t _ =>
    have hw : Wakes s.table (s.table.execMark me t) := by
      unfold execMark
      split_ifs
      · exact Wakes.setThread rfl rfl rfl
      · exact Wakes.refl _
    exact hone _ hw rfl rfl rfl rfl (fun _ => rfl) rfl rfl
  | marked _ | check _ | again _ =>
    exact hone _ (Wakes.refl _) rfl rfl rfl rfl (fun _ => rfl) rfl rfl
  | alone _ =>
    exact h.frame_goto hme hctl rfl (Wakes.refl _) [.kernel, .execDone]
      (by simpa using h.at_base hctl rfl) rfl (fun _ => rfl) (by simp [Frame.exiting])
      (by simp [Frame.dying])
  | execDone => exact h.execDone hme hctl
  | exitProcess hinit =>
    exact h.frame_goto hme hctl rfl (Wakes.refl _) [.kernel, .acquire .exitProcess]
      (by simpa [Sec.leaf] using h.at_base hctl rfl) rfl (fun _ => rfl) (fun _ => rfl)
      (fun _ => hinit)

/-! ## The scheduler -/

theorem Wakes.saved {T' : Table} (hw : Wakes T T') {t : Slot} (h : (T'.thread t).state.saved) :
    (T.thread t).state.saved := by
  rcases hw.state t with e | ⟨e, -⟩
  · rwa [← e]
  · rw [e]
    rfl

section

variable (h : Inv s) (hno : (s.cpu c).thread = none)

include h hno

theorem Inv.idle (hw : Wakes s.table T) {k : Ctl} (hlk : ∀ d, d ≠ c → s.lock = some d → lk = some d)
    (hctl : CtlOk (⟨T, lk, update s.cpu c ⟨none, k⟩, fi⟩ : Kernel C) c) :
    Inv (⟨T, lk, update s.cpu c ⟨none, k⟩, fi⟩ : Kernel C) := by
  refine ⟨hw.tableOk h.table, CpuOk.keep h hno hw.toTrans hlk hctl,
    h.frames.mono (fun t st₁ ht => ?_) (fun t he => (hw.embryo_iff t).2 he) (fun t ha => ?_)
      hw.initproc⟩
  · rcases ht with ⟨d, hd, hst⟩ | ⟨hsv, hc⟩
    · have hdc : d ≠ c := by
        rintro rfl
        simp at hd
      simp only [update_of_ne hdc] at hd hst
      exact .inl ⟨d, hd, hst⟩
    · exact .inr ⟨hw.saved hsv, (hw.context t).symm.trans hc⟩
  · rw [hw.alive]
    exact ha

theorem Inv.switch (hlock : s.lock = some c) {t : Slot}
    (ht : (s.table.thread t).state = .RUNNABLE) : Inv (s.switch c t) := by
  set T' := s.table.setThread t fun th => { th with state := .RUNNING } with hT'
  have hself : (T'.thread t).state = .RUNNING := by simp [hT', setThread]
  have hother : ∀ u, u ≠ t → T'.thread u = s.table.thread u := fun u hu => by
    simp [hT', setThread, hu]
  -- the CPUs other than `c` run threads other than `t`
  have hcpu : ∀ d u, ((s.switch c t).cpu d).thread = some u →
      (d = c ∧ u = t) ∨ (d ≠ c ∧ u ≠ t ∧ (s.cpu d).thread = some u) := fun d u hd => by
    by_cases hdc : d = c
    · subst hdc
      exact .inl ⟨rfl, by simpa [eq_comm] using hd⟩
    · simp only [Kernel.switch, update_of_ne hdc] at hd
      refine .inr ⟨hdc, ?_, hd⟩
      rintro rfl
      exact absurd (ht.symm.trans (h.cpu.running d u hd)) (by decide)
  have hok : TableOk T' := h.table.setThread (by rw [ht]; rfl) (by simp)
  refine ⟨hok, ⟨fun d u hd => ?_, fun u hu => ?_, fun d e u hd he => ?_, fun d => ?_,
    fun u hu => ?_⟩, h.frames.mono (fun u st₁ hu => ?_) (fun u he => ?_) (fun u ha => ?_) rfl⟩
  · show (T'.thread u).state = .RUNNING
    rcases hcpu d u hd with ⟨-, rfl⟩ | ⟨-, hut, hd⟩
    · exact hself
    · rw [hother u hut]
      exact h.cpu.running d u hd
  · by_cases hut : u = t
    · exact ⟨c, by simp [hut]⟩
    · have hu' : (T'.thread u).state = .RUNNING := hu
      rw [hother u hut] at hu'
      obtain ⟨d, hd⟩ := h.cpu.onCpu u hu'
      have hdc : d ≠ c := by
        rintro rfl
        simp [hno] at hd
      exact ⟨d, by simpa [hdc] using hd⟩
  · rcases hcpu d u hd with ⟨rfl, rfl⟩ | ⟨-, hut, hd⟩ <;>
      rcases hcpu e u he with ⟨rfl, hu⟩ | ⟨-, hu, he⟩
    · rfl
    · exact absurd rfl hu
    · exact absurd hu hut
    · exact h.cpu.inj d e u hd he
  · by_cases hdc : d = c
    · subst hdc
      obtain ⟨hwf, hheld⟩ := h.cpu.saved t (by rw [ht]; rfl)
      simp only [CtlOk, Kernel.switch, update_self]
      exact ⟨by simp, hwf, .inr ⟨hheld, hlock⟩⟩
    · exact (h.cpu.ctl d).of_update hdc id
  · have hu' : (T'.thread u).state.saved := hu
    have hut : u ≠ t := by
      rintro rfl
      rw [hself] at hu'
      exact absurd hu' (by decide)
    show wf (T'.thread u).context ∧ held (T'.thread u).context
    rw [hother u hut] at hu' ⊢
    exact h.cpu.saved u hu'
  · rcases hu with ⟨d, hd, hst⟩ | ⟨hsv, hc⟩
    · rcases hcpu d u hd with ⟨rfl, rfl⟩ | ⟨hdc, -, hd⟩
      · exact .inr ⟨by rw [ht]; rfl, by simpa using hst⟩
      · exact .inl ⟨d, hd, by simpa [hdc] using hst⟩
    · change (T'.thread u).state.saved = true at hsv
      change (T'.thread u).context = st₁ at hc
      have hut : u ≠ t := by
        rintro rfl
        rw [hself] at hsv
        exact absurd hsv (by decide)
      rw [hother u hut] at hsv hc
      exact .inr ⟨hsv, hc⟩
  · show (T'.thread u).state = .EMBRYO
    rwa [hother u]
    rintro rfl
    simp [ht] at he
  · show (T'.thread u).state.alive = false
    rwa [hother u]
    rintro rfl
    rw [ht] at ha
    exact absurd ha (by decide)

theorem Inv.idle_setCtl (hw : Wakes s.table T) {k : Ctl}
    (hctl : CtlOk (⟨T, s.lock, update s.cpu c ⟨none, k⟩, s.first⟩ : Kernel C) c) :
    Inv ({ s with table := T }.setCtl c k) := by
  have heq : ({ s with table := T }.setCtl c k : Kernel C) =
      ⟨T, s.lock, update s.cpu c ⟨none, k⟩, s.first⟩ := by simp [hno]
  rw [heq]
  exact h.idle hno hw (fun _ _ hd => hd) hctl

end

theorem Inv.acquire (h : Inv s) {k : Ctl} (hk : Takes (s.cpu c) k) (hlock : s.lock = none) :
    Inv ({ s with lock := some c }.setCtl c k) := by
  have hc := h.cpu.ctl c
  -- a CPU without a thread takes the lock
  have hidle : (s.cpu c).thread = none →
    (∀ u : Kernel C, u.lock = some c → u.cpu c = ⟨none, k⟩ → CtlOk u c) →
      Inv ({ s with lock := some c }.setCtl c k) := fun hno hk => by
    have heq : ({ s with lock := some c }.setCtl c k : Kernel C) =
        ⟨s.table, some c, update s.cpu c ⟨none, k⟩, s.first⟩ := by simp [hno]
    rw [heq]
    exact h.idle hno (Wakes.refl _) (fun d _ hd => by simp [hlock] at hd) (hk _ rfl (by simp))
  cases hk with
  | scheduler hctl | interrupt hctl =>
    simp only [CtlOk, hctl] at hc
    exact hidle hc fun u hl hu => by simp [CtlOk, hl, hu]
  | thread hme hctl => exact h.thread_acquire hme hctl hlock

theorem Inv.deadlock (h : Inv s) {k : Ctl} (hk : Takes (s.cpu c) k) :
    Inv (s.setCtl c (.panic .acquire)) := by
  have hc := h.cpu.ctl c
  cases hk with
  | scheduler hctl | interrupt hctl =>
    simp only [CtlOk, hctl] at hc
    exact h.idle_setCtl hc (Wakes.refl _) (by simp [CtlOk])
  | thread hme hctl => exact h.crit_panic hme _ hctl

theorem Inv.release (h : Inv s) {k : Ctl} (hk : Drops (s.cpu c) k) :
    Inv ({ s with first := fi }.release c k) := by
  have hc := h.cpu.ctl c
  cases hk with
  | interrupt hctl | scheduler hctl =>
    simp only [CtlOk, hctl] at hc
    have heq : ({ s with first := fi }.release c (.idle .none) : Kernel C) =
        ⟨s.table, none, update s.cpu c ⟨none, .idle .none⟩, fi⟩ := by
      simp [Kernel.release, hc.1, hc.2]
    rw [heq]
    exact h.idle hc.1 (Wakes.refl _)
      (fun d hdc hd => absurd (Option.some.inj (hd.symm.trans hc.2)) hdc) (by simp [CtlOk])
  | thread hme hctl => exact h.thread_release hme hctl (.inl rfl) [] (.inl rfl)
  | forkret hme hctl hfs => exact h.thread_release hme hctl (.inr rfl) _ hfs

theorem Inv.scheduler (h : Inv s) {k : Ctl} (hk : Idles s.table (s.cpu c).ctl T k) :
    Inv ({ s with table := T }.setCtl c k) := by
  have hc := h.cpu.ctl c
  unfold CtlOk at hc
  generalize (s.cpu c).ctl = k₀ at hc hk
  cases hk with
  | interrupt n => exact h.idle_setCtl hc (Wakes.refl _) (by simp [CtlOk])
  | wakeup n => exact h.idle_setCtl hc.1 (Wakes.wakeup1 _ _) (by simp [CtlOk, hc.2])
  | used _ | unused _ | thread _ _ | proc _ _ =>
    exact h.idle_setCtl hc.1 (Wakes.refl _) (by simp [CtlOk, hc.2])

/-! ## Interrupts, faults and system calls -/

theorem Inv.push (h : Inv s) (hctl : (s.cpu c).ctl = .run st) (hw : Wakes s.table T)
    (fs : List Frame) (hwf : wf (fs ++ st)) (hfree : free (fs ++ st))
    (hfork : ∀ np, fs.any (Frame.forks np) = false) (hexit : fs.any Frame.exiting = false) :
    Inv ({ s with table := T }.setCtl c (.run (fs ++ st))) := by
  have hc := h.cpu.ctl c
  simp only [CtlOk, hctl] at hc
  obtain ⟨me, hme⟩ := Option.ne_none_iff_exists'.1 hc.1
  rw [setCtl_eq hme]
  refine h.local_wakes hme hctl hw (fun _ _ hd => hd) hwf (.inl hfree) (fun np hnp => ?_)
    (fun hx => .inl ?_) fun hx => .inl ?_
  · rwa [any_append, hfork, Bool.false_or] at hnp
  · rwa [any_append, hexit, Bool.false_or] at hx
  · rwa [any_append, not_dying hexit, Bool.false_or] at hx

theorem Inv.interruptible (h : Inv s) (hctl : (s.cpu c).ctl = .run st)
    (hi : s.interruptible c st) : wf st ∧ free st := by
  obtain ⟨hwf, hlk⟩ := h.at_run hctl
  refine ⟨hwf, hlk.resolve_right fun hheld => ?_⟩
  simp only [Kernel.interruptible, or_eq_true, beq_iff_eq, bne_iff_ne] at hi
  rcases hi with rfl | hi
  · simp [held] at hheld
  · exact hi hheld.2

theorem Inv.pushes (h : Inv s) {a : Act} {fs : List Frame} (hctl : (s.cpu c).ctl = .run st)
    (hp : Pushes s c a st T fs) : Inv ({ s with table := T }.setCtl c (.run (fs ++ st))) := by
  cases hp with
  | syscall f =>
    exact h.push hctl (Wakes.refl _) [.trapExit, .enter f, .trapExit] rfl rfl (fun _ => rfl) rfl
  | tick =>
    exact h.push hctl (Wakes.refl _) [.trapExit, .acquire .yield, .trapExit] rfl rfl (fun _ => rfl)
      rfl
  | timer hi | interrupt n hi =>
    obtain ⟨hwf, hfree⟩ := h.interruptible hctl hi
    exact h.push hctl (Wakes.refl _) _ hwf hfree (fun _ => rfl) rfl
  | fault hme => exact h.push hctl (Wakes.fault _ _) [.trapExit] rfl rfl (fun _ => rfl) rfl
  | sleep n | wakeup n =>
    obtain ⟨hwf, hfree⟩ := h.at_free hctl rfl
    exact h.push hctl (Wakes.refl _) _ hwf hfree (fun _ => rfl) rfl

theorem Inv.next (h : Inv s) {a : C × Act} (hok : sound s a)
    (hn : s.next a.1 a.2 = some s') : Inv s' := by
  obtain ⟨c, a⟩ := a
  cases next_step hn with
  | crit hme hctl hn =>
    simp only [sound, inBounds, hme, hctl, and_eq_true] at hok
    refine h.crit hme hctl ?_ hn
    rintro rfl
    simpa using hok.1
  | acquire hk hlock => exact h.acquire hk hlock
  | deadlock hk hlock => exact h.deadlock hk
  | release hk => exact h.release hk
  | frame hme hctl hf =>
    simp only [sound, execUnkilled, hme, hctl, and_eq_true] at hok
    refine h.frame hme hctl ?_ hf
    rintro rfl
    simpa using hok.2
  | panic hme hctl _ => exact h.crit_panic hme _ hctl
  | push hctl hp => exact h.pushes hctl hp
  | idle hk => exact h.scheduler hk
  | switch hi hctl hr =>
    have hc := h.cpu.ctl c
    simp only [CtlOk, hctl] at hc
    exact h.switch hc.1 hc.2 hr

end Xv6.Ptable
