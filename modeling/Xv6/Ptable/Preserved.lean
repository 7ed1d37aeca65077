import Xv6.Ptable.Effects

/-!
# The sections keep the invariant

The section of `kthread_create` keeps the invariant only while the process has a thread slot left.
-/

namespace Xv6.Ptable

open Function List Table

variable {C : Type}

variable {s s' : Kernel C} {c : C} {me : Slot} {st st' : List Frame} {T : Table} {lk : Option C}
  {fi : Bool}

attribute [local simp] Frame.locked Frame.base Frame.forks Frame.exiting wf Table.setThread

/-! ## Shapes of a step -/

theorem Inv.at_run (h : Inv s) (hctl : (s.cpu c).ctl = .run st) :
    wf st ∧ (free st ∨ (held st ∧ s.lock = some c)) := by
  have := h.cpu.ctl c
  simp only [CtlOk, hctl] at this
  exact this.2

theorem Inv.at_crit (h : Inv s) {k : Sec} (hctl : (s.cpu c).ctl = .run (.crit k :: st)) :
    s.lock = some c ∧ wf st ∧ (k.leaf = false → st.all Frame.plain) ∧ free st := by
  obtain ⟨hwf, hlk⟩ := h.at_run hctl
  have hheld := hlk.resolve_left (by simp [free])
  refine ⟨hheld.2, ?_, fun hk => ?_, ?_⟩
  · unfold wf at hwf
    split_ifs at hwf
    · exact wf_of_plain hwf
    · exact hwf
  · simpa [hk] using hwf
  · simpa [held] using hheld.1

variable [DecidableEq C]

theorem Inv.local_wakes (h : Inv s) (hme : (s.cpu c).thread = some me)
    (hctl : (s.cpu c).ctl = .run st) (hw : Wakes s.table T)
    (hlk : ∀ d, d ≠ c → s.lock = some d → lk = some d) (hwf : wf st')
    (hlock : free st' ∨ (held st' ∧ lk = some c))
    (hfork : ∀ np, st'.any (Frame.forks np) → st.any (Frame.forks np))
    (hexit : st'.any Frame.exiting → st.any Frame.exiting ∨
      ∀ t, t.1 = me.1 → t ≠ me → (s.table.thread t).state.alive = false)
    (hdying : st'.any Frame.dying → st.any Frame.dying ∨ me.1 ≠ s.table.initproc) :
    Inv (⟨T, lk, update s.cpu c ⟨some me, .run st'⟩, fi⟩ : Kernel C) := by
  have hstk : Stk s me st := .inl ⟨c, hme, hctl⟩
  have hk := hw.keeps h.table me
  refine h.local hme hctl hk.trans hk.ok hk.born (fun np he => .inl ((hw.embryo_iff _).2 he)) hlk
    hwf hlock
    (fun np hnp => ?_) (fun hx t hp hne => ?_) hw.initproc hdying
  · exact ⟨(hw.embryo_iff _).2 (h.frames.forking me st np hstk (hfork np hnp)), .inr (hfork np hnp)⟩
  · rw [hw.alive]
    rcases hexit hx with hx | hd
    · exact h.frames.exiting me st hstk hx t hp hne
    · exact hd t hp hne

theorem Inv.local_keeps (h : Inv s) (hme : (s.cpu c).thread = some me)
    (hctl : (s.cpu c).ctl = .run st) (hk : Keeps s.table T me)
    (hemb : ∀ np, (s.table.thread (slot0 np)).state = .EMBRYO →
      (T.thread (slot0 np)).state = .EMBRYO ∨ st.any (Frame.forks np))
    (hwf : wf st') (hlock : free st' ∨ (held st' ∧ s.lock = some c))
    (hfork : ∀ np, st'.any (Frame.forks np) → (T.thread (slot0 np)).state = .EMBRYO ∧
      (s.table.thread (slot0 np)).state ≠ .EMBRYO) (hexit : st'.any Frame.exiting = false) :
    Inv (⟨T, s.lock, update s.cpu c ⟨some me, .run st'⟩, fi⟩ : Kernel C) :=
  h.local hme hctl hk.trans hk.ok hk.born hemb (fun _ _ hd => hd) hwf hlock
    (fun np hnp => ⟨(hfork np hnp).1, .inl (hfork np hnp).2⟩) (by simp [hexit]) hk.init
    (by simp [not_dying hexit])

theorem Kernel.setCtl_eq (hme : (s.cpu c).thread = some me) (k : Ctl) :
    ({ s with table := T }.setCtl c k : Kernel C) =
      ⟨T, s.lock, update s.cpu c ⟨some me, k⟩, s.first⟩ := by
  simp [Kernel.setCtl, hme]

section

variable (h : Inv s) (hme : (s.cpu c).thread = some me) {k : Sec}
  (hctl : (s.cpu c).ctl = .run (.crit k :: st))

include h hme hctl

theorem Inv.crit_ret (hw : Wakes s.table T) :
    Inv ({ s with table := T }.setCtl c (.run (.release :: st))) := by
  obtain ⟨hlock, hwf, -, hfree⟩ := h.at_crit hctl
  rw [Kernel.setCtl_eq hme]
  refine h.local_wakes hme hctl hw (fun _ _ hd => hd) (by simpa using hwf)
    (.inr ⟨by simpa [held] using hfree, hlock⟩) (fun np hnp => ?_) (fun hx => .inl ?_)
    fun hx => .inl ?_
  · simpa using .inr (by simpa using hnp)
  · simpa using .inr (by simpa using hx)
  · simpa using .inr (by simpa [Frame.dying] using hx)

theorem Inv.crit_keeps (hk : k.leaf = false) (hkeeps : Keeps s.table T me)
    (hemb : ∀ np, (s.table.thread (slot0 np)).state = .EMBRYO →
      (T.thread (slot0 np)).state = .EMBRYO ∨ k = .fork np) (fs : List Frame) (hwf : wf (fs ++ st))
    (hheld : free (fs ++ st) ∨ held (fs ++ st))
    (hfork : ∀ np, fs.any (Frame.forks np) → (T.thread (slot0 np)).state = .EMBRYO ∧
      (s.table.thread (slot0 np)).state ≠ .EMBRYO) (hexit : fs.any Frame.exiting = false) :
    Inv ({ s with table := T }.setCtl c (.run (fs ++ st))) := by
  obtain ⟨hlock, -, hplain, -⟩ := h.at_crit hctl
  rw [Kernel.setCtl_eq hme]
  refine h.local_keeps hme hctl hkeeps (fun np he => (hemb np he).imp_right ?_) hwf
    (hheld.imp_right fun hh => ⟨hh, hlock⟩) (fun np hnp => ?_) ?_
  · rintro rfl
    simp
  · rw [any_append, not_forks_of_plain (hplain hk), Bool.or_false] at hnp
    exact hfork np hnp
  · rw [any_append, hexit, not_exiting_of_plain (hplain hk)]
    rfl

theorem Inv.crit_goto (hw : Wakes s.table T) (fs : List Frame)
    (hwf : wf (fs ++ st)) (hheld : held (fs ++ st)) (hfork : ∀ np, fs.any (Frame.forks np) = false)
    (hexit : fs.any Frame.exiting →
      ∀ t, t.1 = me.1 → t ≠ me → (s.table.thread t).state.alive = false)
    (hdying : fs.any Frame.dying = false) :
    Inv ({ s with table := T }.setCtl c (.run (fs ++ st))) := by
  obtain ⟨hlock, -, -, -⟩ := h.at_crit hctl
  rw [Kernel.setCtl_eq hme]
  refine h.local_wakes hme hctl hw (fun _ _ hd => hd) hwf (.inr ⟨hheld, hlock⟩) (fun np hnp => ?_)
    (fun hx => ?_) fun hx => .inl ?_
  · rw [any_append, hfork, Bool.false_or] at hnp
    simp [hnp]
  · rw [any_append, Bool.or_eq_true] at hx
    rcases hx with hx | hx
    · exact .inr (hexit hx)
    · exact .inl (by simp [hx])
  · rw [any_append, hdying, Bool.false_or] at hx
    simp [hx]

end

def schedTable (T : Table) (me : Slot) (x : ThreadState) (st : List Frame) : Table :=
  T.setThread me fun th => { th with state := x, context := st }

theorem schedTable_thread (T : Table) (me : Slot) (x : ThreadState) (st : List Frame) :
    (schedTable T me x st).thread =
      update T.thread me { T.thread me with state := x, context := st } := rfl

theorem Kernel.sched_eq (hlock : s.lock = some c) (x : ThreadState) :
    ({ s with table := T }.sched c me x st : Kernel C) =
      ⟨schedTable T me x st, s.lock,
        update s.cpu c ⟨none, .scanThread me.1 (me.2.val + 1)⟩, s.first⟩ := by
  simp [Kernel.sched, hlock, schedTable]

theorem TableOk.setThread (hT : TableOk T) (hme : (T.thread me).state.alive) {f : Thread → Thread}
    (hf : (f (T.thread me)).state ≠ .EMBRYO) : TableOk (T.setThread me f) := by
  have hother : ∀ t, t ≠ me → (T.setThread me f).thread t = T.thread t := fun t ht => by
    simp [ht]
  have hself : (T.setThread me f).thread me = f (T.thread me) := by simp
  have hne : ∀ t, (T.thread t).state = .UNUSED_T → t ≠ me := fun t ht hm => by
    rw [← hm, ht] at hme
    exact absurd hme (by decide)
  refine ⟨hT.tNum, fun t hb => ?_, fun t hu => ?_, fun t ha => ?_, fun t he => ?_⟩
  · rw [hother t (hne t (hT.above t hb))]
    exact hT.above t hb
  · rw [hother t (hne t (hT.unused t hu))]
    exact hT.unused t hu
  · by_cases ht : t = me
    · subst ht
      exact hT.alive t hme
    · rw [hother t ht] at ha
      exact hT.alive t ha
  · have ht : t ≠ me := by
      rintro rfl
      rw [hself] at he
      exact hf he
    rw [hother t ht] at he ⊢
    exact hT.embryo t he

theorem Inv.crit_sched (h : Inv s) (hme : (s.cpu c).thread = some me) {k : Sec}
    (hctl : (s.cpu c).ctl = .run (.crit k :: st)) (hw : Wakes s.table T) {x : ThreadState}
    (fs : List Frame) (hx : x = .ZOMBIE_T ∨ ((x = .SLEEPING ∨ x = .RUNNABLE) ∧ wf (fs ++ st) ∧
      held (fs ++ st))) (hfork : ∀ np, fs.any (Frame.forks np) = false)
    (hexit : fs.any Frame.exiting = false) :
    Inv ({ s with table := T }.sched c me x (fs ++ st)) := by
  obtain ⟨hlock, -, -, -⟩ := h.at_crit hctl
  have hrun := h.cpu.running c me hme
  have hrun' : (T.thread me).state = .RUNNING := (hw.eq_of_ne (by simp [hrun])).trans hrun
  have hother : ∀ t, t ≠ me → (schedTable T me x (fs ++ st)).thread t = T.thread t := fun t ht => by
    rw [schedTable_thread, update_of_ne ht]
  have hself : (schedTable T me x (fs ++ st)).thread me =
      { T.thread me with state := x, context := fs ++ st } := by
    rw [schedTable_thread, update_self]
  have hne : ∀ t, (s.table.thread t).state ≠ .RUNNING → t ≠ me := fun t ht hm => ht (hm ▸ hrun)
  have hfinal : ((schedTable T me x (fs ++ st)).thread me).state = .ZOMBIE_T ∨
      (((schedTable T me x (fs ++ st)).thread me).state.saved ∧
        ((schedTable T me x (fs ++ st)).thread me).context = fs ++ st ∧ wf (fs ++ st) ∧
        held (fs ++ st)) := by
    rw [hself]
    rcases hx with hx | ⟨hx, hwf, hheld⟩
    · exact .inl hx
    · refine .inr ⟨?_, rfl, hwf, hheld⟩
      rcases hx with rfl | rfl <;> rfl
  rw [Kernel.sched_eq hlock]
  refine h.sched (fs ++ st) hme hctl hlock (fun t ht => ?_)
    ((hw.tableOk h.table).setThread (by rw [hrun']; rfl) ?_)
    hfinal (fun t ha => ?_) (fun t he => ?_) (fun np hnp => ?_) (fun hxt => ?_) hw.initproc
    fun hxt => ?_
  · rw [hother t ht]
    exact hw.toTrans t
  · rcases hx with hx | ⟨hx | hx, -⟩ <;> simp [hx]
  · rw [hother t (hne t fun hr => by rw [hr] at ha; exact absurd ha (by decide)), hw.alive]
    exact ha
  · rw [hother t (hne t (by simp [he]))]
    exact (hw.embryo_iff t).2 he
  · rw [any_append, hfork, Bool.false_or] at hnp
    simp [hnp]
  · rw [any_append, hexit, Bool.false_or] at hxt
    simp [hxt]
  · rw [any_append, not_dying hexit, Bool.false_or] at hxt
    simp [hxt]

/-! ## The sections -/

theorem Inv.crit_panic (h : Inv s) (hme : (s.cpu c).thread = some me) (m : Panic)
    (hctl : (s.cpu c).ctl = .run st) : Inv (s.setCtl c (.panic m)) := by
  have : s.setCtl c (.panic m) =
      ⟨s.table, s.lock, update s.cpu c ⟨some me, .panic m⟩, s.first⟩ := by
    simp [Kernel.setCtl, hme]
  rw [this]
  exact h.panic hme hctl

theorem Inv.crit_sleep (h : Inv s) (hme : (s.cpu c).thread = some me) {k : Sec}
    (hctl : (s.cpu c).ctl = .run (.crit k :: st)) (chan : Chan) (f : Frame)
    (hwf : wf (f :: st)) (hheld : held (f :: st)) (hf : ∀ np, f.forks np = false)
    (hx : f.exiting = false) :
    Inv ({ s with table := s.table.setThread me fun th => { th with chan := chan } }.sched c me
    .SLEEPING
      ([Frame.sleepBack, f] ++ st)) := by
  refine h.crit_sched hme hctl (Wakes.sleep s.table me chan [f]) [Frame.sleepBack, f]
    (.inr ⟨.inl rfl, ?_, ?_⟩) (fun np => ?_) ?_
  · simpa [Sec.leaf] using hwf
  · simpa [held] using hheld
  · simp only [any_cons, hf, any_nil]
    rfl
  · simp only [any_cons, hx, any_nil]
    rfl

theorem Kernel.crit_eq {ok : Bool} {k : Sec} {o : Out} (h : s.table.crit me ok k = (T, o)) :
    s.crit c me ok k st = { s with table := T }.finish c me st o := by
  simp [Kernel.crit, h]

theorem Table.wait_cases (T : Table) (me : Slot) :
    (∃ q n, T.zombieChild me.1 = some q ∧ (T.proc q).pgdir = .page n ∧
      T.wait me = (T.reap me.1 q n, .ret (T.proc q).pid)) ∨
    T.wait me = (T, .panic .freevm) ∨ T.wait me = (T, .ret (-1)) ∨
    T.wait me = T.sleep me (.proc me.1) [.crit .wait] := by
  unfold wait
  split
  · rename_i q hq
    split
    · exact .inr (.inl rfl)
    · rename_i n hn
      exact .inl ⟨q, n, hq, hn, rfl⟩
    · exact .inr (.inl rfl)
  · split_ifs
    · exact .inr (.inr (.inl rfl))
    · exact .inr (.inr (.inr rfl))

section

variable (h : Inv s) (hme : (s.cpu c).thread = some me) {ok : Bool}

include h hme

theorem Inv.wait
    (hctl : (s.cpu c).ctl = .run (.crit .wait :: st)) (hn : s.crit c me ok .wait st = some s') :
    Inv s' := by
  obtain ⟨-, hwf, hplain, hfree⟩ := h.at_crit hctl
  rcases s.table.wait_cases me with ⟨q, n, hq, -, hr⟩ | hr | hr | hr <;>
    rw [Kernel.crit_eq (k := .wait) hr] at hn <;> cases hn
  · obtain ⟨hk, hemb⟩ := Keeps.reap h.table me n (zombieChild_spec hq).2
    exact h.crit_keeps hme hctl rfl hk (fun np he => .inl (hemb _ he)) [.release]
      (by simpa using hwf)
      (.inr (by simpa [held] using hfree)) (by simp)
      (by simp)
  · exact h.crit_panic hme _ hctl
  · exact h.crit_ret hme hctl (Wakes.refl _)
  · refine h.crit_sleep hme hctl _ _ ?_ ?_ (fun _ => rfl) rfl
    · simpa [Sec.leaf] using hplain rfl
    · simpa [held] using hfree

theorem Inv.joinLoop {t : Slot} (hctl : (s.cpu c).ctl = .run (.crit (.joinLoop t) :: st))
    (hn : s.crit c me ok (.joinLoop t) st = some s') : Inv s' := by
  obtain ⟨-, hwf, hplain, hfree⟩ := h.at_crit hctl
  have hr : s.table.joinLoop me t = (s.table, .ret 0) ∨ s.table.joinLoop me t = (s.table, .spin) ∨
      s.table.joinLoop me t = s.table.sleep me (.thread t) [.crit (.joinLoop t)] := by
    unfold Table.joinLoop
    split <;> simp
  rcases hr with hr | hr | hr <;> rw [Kernel.crit_eq (k := .joinLoop t) hr] at hn <;> cases hn
  · exact h.crit_ret hme hctl (Wakes.refl _)
  · refine h.crit_sleep hme hctl _ _ ?_ ?_ (fun _ => rfl) rfl
    · simpa [Sec.leaf] using hplain rfl
    · simpa [held] using hfree

theorem Inv.exitThread (hctl : (s.cpu c).ctl = .run (.crit .exitThread :: st))
    (hn : s.crit c me ok .exitThread st = some s') : Inv s' := by
  obtain ⟨-, hwf, hplain, hfree⟩ := h.at_crit hctl
  have hw := Wakes.exitThread s.table me
  have hr : s.table.exitThread me = (s.table, .panic .noRunningThread) ∨
      ((s.table.running me.1).length = 1 ∧
        (s.table.exitThread me).2 = .goto [.release, .exitProcess]) ∨
      (s.table.exitThread me).2 = .sched .ZOMBIE_T [] := by
    simp only [Table.exitThread]
    split_ifs <;> simp_all
  simp only [Kernel.crit, Table.crit] at hn
  rcases hr with hr | ⟨h1, hr⟩ | hr
  · rw [hr] at hn
    cases hn
    exact h.crit_panic hme _ hctl
  · rw [hr] at hn
    cases hn
    refine h.crit_goto hme hctl hw [.release, .exitProcess] ?_ ?_ (fun _ => rfl) (fun _ =>
      h.table.running_one (h.cpu.running c me hme) h1) rfl
    · simpa using hplain rfl
    · simpa [held, free] using hfree
  · rw [hr] at hn
    cases hn
    exact h.crit_sched hme hctl hw [] (.inl rfl) (fun _ => rfl) rfl

theorem Inv.exitProcess (hctl : (s.cpu c).ctl = .run (.crit .exitProcess :: st))
    (hn : s.crit c me ok .exitProcess st = some s') : Inv s' := by
  obtain ⟨hlock, -, hplain, -⟩ := h.at_crit hctl
  have hrun := h.cpu.running c me hme
  have hstk : Stk s me (.crit .exitProcess :: st) := .inl ⟨c, hme, hctl⟩
  have hdead := h.frames.exiting me _ hstk rfl
  have hw := Wakes.exitWakes s.table me.1
  have hr : s.table.crit me ok .exitProcess =
      ((s.table.exitProcess me).1, .sched .ZOMBIE_T [.zombieExit]) := rfl
  rw [Kernel.crit_eq hr] at hn
  simp only [Kernel.finish, Option.some.injEq] at hn
  rw [Kernel.sched_eq hlock] at hn
  subst hn
  set T := schedTable (s.table.exitProcess me).1 me .ZOMBIE_T ([.zombieExit] ++ st) with hT
  have hother : ∀ t, t ≠ me → T.thread t = (s.table.exitWakes me.1).thread t := fun t ht => by
    rw [hT, schedTable_thread, update_of_ne ht]
    rfl
  have hself : (T.thread me).state = .ZOMBIE_T := by
    rw [hT, schedTable_thread, update_self]
  have hne : ∀ t, (s.table.thread t).state ≠ .RUNNING → t ≠ me := fun t ht hm => ht (hm ▸ hrun)
  refine h.sched ([.zombieExit] ++ st) hme hctl hlock (fun t ht => ?_)
    (h.table.exitProcess hdead rfl (fun t ht => hother t ht) hself hrun) (.inl hself)
    (fun t ha => ?_)
    (fun t he => ?_) (fun np hnp => ?_) (fun hx => ?_) hw.initproc fun hx => ?_
  · rw [hother t ht]
    exact hw.toTrans t
  · rw [hother t (hne t fun hr => by rw [hr] at ha; exact absurd ha (by decide)), hw.alive]
    exact ha
  · rw [hother t (hne t (by simp [he]))]
    exact (hw.embryo_iff t).2 he
  · rw [any_append, not_forks_of_plain (hplain rfl)] at hnp
    simp at hnp
  · rw [any_append, not_exiting_of_plain (hplain rfl)] at hx
    simp at hx
  · rw [any_append, not_dying (not_exiting_of_plain (hplain rfl))] at hx
    simp [Frame.dying] at hx

theorem Inv.fork {np : ProcId} (hctl : (s.cpu c).ctl = .run (.crit (.fork np) :: st))
    (hn : s.crit c me ok (.fork np) st = some s') : Inv s' := by
  obtain ⟨-, hwf, hplain, hfree⟩ := h.at_crit hctl
  have hstk : Stk s me (.crit (.fork np) :: st) := .inl ⟨c, hme, hctl⟩
  have he := h.frames.forking me _ np hstk (by simp)
  obtain ⟨hk, hother⟩ := Keeps.fork h.table me ok he
  have hemb : ∀ q, (s.table.thread (slot0 q)).state = .EMBRYO →
      ((s.table.fork me np ok).1.thread (slot0 q)).state = .EMBRYO ∨ Sec.fork np = .fork q := by
    intro q hq
    by_cases hqn : q = np
    · exact .inr (by rw [hqn])
    · rw [hother _ fun h => hqn (congrArg Prod.fst h)]
      exact .inl hq
  simp only [Kernel.crit, crit] at hn
  cases ok with
  | true =>
    cases hn
    exact h.crit_keeps hme hctl rfl hk hemb [.release] (by simpa using hwf)
      (.inr (by simpa [held] using hfree)) (by simp) rfl
  | false =>
    cases hn
    exact h.crit_keeps hme hctl rfl hk hemb [] hwf (.inl hfree) (by simp) rfl

theorem Inv.allocproc (hctl : (s.cpu c).ctl = .run (.crit .allocproc :: st))
    (hn : s.crit c me ok .allocproc st = some s') : Inv s' := by
  obtain ⟨-, hwf, hplain, hfree⟩ := h.at_crit hctl
  obtain ⟨hk, hemb, hnew⟩ := Keeps.allocproc h.table me ok
  have hr : (s.table.allocproc ok).2 = .ret (-1) ∨ ∃ p, s.table.findUnused = some p ∧ ok ∧
      (s.table.allocproc ok).2 = .goto [.release, .acquire (.fork p)] := by
    unfold Table.allocproc
    split
    · exact .inl rfl
    · rename_i p hp
      cases ok with
      | true => exact .inr ⟨p, hp, rfl, rfl⟩
      | false => exact .inl rfl
  have hheld : held ([.release] ++ st) := by simpa [held] using hfree
  simp only [Kernel.crit, Table.crit] at hn
  rcases hr with hr | ⟨p, hp, hok, hr⟩ <;> rw [hr] at hn <;> cases hn
  · exact h.crit_keeps hme hctl rfl hk (fun np he => .inl (hemb _ he)) [.release]
      (by simpa using hwf) (.inr hheld) (by simp) rfl
  · refine h.crit_keeps hme hctl rfl hk (fun np he => .inl (hemb _ he)) [.release,
      .acquire (.fork p)]
      ?_ (.inr ?_) (fun np hnp => ?_) rfl
    · simpa [Sec.leaf] using hplain rfl
    · simpa [held, free] using hfree
    · obtain rfl : p = np := by simpa using hnp
      refine ⟨hnew p hp hok, fun he => ?_⟩
      rw [h.table.unused _ (Table.findUnused_spec hp)] at he
      exact absurd he (by decide)

theorem Inv.kthreadCreate (hctl : (s.cpu c).ctl = .run (.crit .kthreadCreate :: st))
    (hb : (s.table.proc me.1).tNum < NTHREADS)
    (hn : s.crit c me ok .kthreadCreate st = some s') : Inv s' := by
  obtain ⟨-, hwf, -, hfree⟩ := h.at_crit hctl
  obtain ⟨hk, hemb⟩ := Keeps.kthreadCreate h.table ok (h.cpu.running c me hme) hb
  simp only [Kernel.crit, crit] at hn
  cases ok with
  | true =>
    cases hn
    exact h.crit_keeps hme hctl rfl hk (fun np he => .inl (hemb _ he)) [.release]
      (by simpa using hwf)
      (.inr (by simpa [held] using hfree)) (by simp) rfl
  | false =>
    cases hn
    exact h.crit_keeps hme hctl rfl hk (fun np he => .inl (hemb _ he)) [] hwf
      (.inl hfree) (by simp) rfl

theorem Inv.exit
    (hctl : (s.cpu c).ctl = .run (.crit .exit :: st)) (hn : s.crit c me ok .exit st = some s') :
    Inv s' := by
  obtain ⟨-, -, hplain, hfree⟩ := h.at_crit hctl
  have hr : s.table.exit me = (s.table, .goto [.crit .exitThread]) ∨
      s.table.exit me = (s.table.killThreads me.1, .ret 0) := by
    unfold Table.exit
    split_ifs <;> simp
  rcases hr with hr | hr <;> rw [Kernel.crit_eq (k := .exit) hr] at hn <;> cases hn
  · refine h.crit_goto hme hctl (Wakes.refl _) [.crit .exitThread] ?_ ?_ (fun _ => rfl)
      (by simp) rfl
    · simpa [Sec.leaf] using hplain rfl
    · simpa [held] using hfree
  · exact h.crit_ret hme hctl (Wakes.killThreads _ _)

theorem Inv.kthreadJoin {tid : ℤ} (hctl : (s.cpu c).ctl = .run (.crit (.kthreadJoin tid) :: st))
    (hn : s.crit c me ok (.kthreadJoin tid) st = some s') : Inv s' := by
  obtain ⟨-, hwf, hplain, hfree⟩ := h.at_crit hctl
  have hr : s.table.kthreadJoin me tid = (s.table, .leak (-1)) ∨
      ∃ i, s.table.kthreadJoin me tid = (s.table, .goto [.crit (.joinLoop (me.1, i))]) := by
    unfold Table.kthreadJoin
    split <;> simp
  rcases hr with hr | ⟨i, hr⟩ <;> rw [Kernel.crit_eq (k := .kthreadJoin tid) hr] at hn <;> cases hn
  · exact h.crit_keeps hme hctl rfl ((Wakes.refl _).keeps h.table me) (fun _ => .inl) [] hwf
      (.inl hfree)
      (by simp) rfl
  · refine h.crit_goto hme hctl (Wakes.refl _) [.crit (.joinLoop (me.1, i))] ?_ ?_ (fun _ => rfl)
      (by simp) rfl
    · simpa [Sec.leaf] using hplain rfl
    · simpa [held] using hfree

theorem Inv.execWake (hctl : (s.cpu c).ctl = .run (.crit .execWake :: st))
    (hn : s.crit c me ok .execWake st = some s') : Inv s' := by
  obtain ⟨-, -, hplain, hfree⟩ := h.at_crit hctl
  cases hn
  refine h.crit_goto hme hctl (Wakes.execWake _ _) [.release, .execCheck 0 false] ?_ ?_
    (fun _ => rfl)
    (by simp) rfl
  · simpa using hplain rfl
  · simpa [held, free] using hfree

theorem Inv.crit {k : Sec} (hctl : (s.cpu c).ctl = .run (.crit k :: st))
    (hb : k = .kthreadCreate → (s.table.proc me.1).tNum < NTHREADS)
    (hn : s.crit c me ok k st = some s') : Inv s' := by
  obtain ⟨-, hwf, -, hfree⟩ := h.at_crit hctl
  cases k with
  | allocproc => exact h.allocproc hme hctl hn
  | fork np => exact h.fork hme hctl hn
  | growproc =>
    cases hn
    exact h.crit_ret hme hctl (Wakes.refl _)
  | wait => exact h.wait hme hctl hn
  | kill pid =>
    have hr : ∃ v, (s.table.kill pid).2 = .ret v := by
      unfold Table.kill
      split <;> exact ⟨_, rfl⟩
    obtain ⟨v, hr⟩ := hr
    simp only [Kernel.crit, Table.crit, hr] at hn
    cases hn
    exact h.crit_ret hme hctl (Wakes.kill _ _)
  | exit => exact h.exit hme hctl hn
  | exitThread => exact h.exitThread hme hctl hn
  | exitProcess => exact h.exitProcess hme hctl hn
  | kthreadCreate => exact h.kthreadCreate hme hctl (hb rfl) hn
  | kthreadJoin tid => exact h.kthreadJoin hme hctl hn
  | joinLoop t => exact h.joinLoop hme hctl hn
  | execWake => exact h.execWake hme hctl hn
  | yield =>
    cases hn
    refine h.crit_sched hme hctl (Wakes.refl _) [.release] (.inr ⟨.inr rfl, ?_, ?_⟩) (fun _ => rfl)
      rfl
    · simpa using hwf
    · simpa [held] using hfree
  | sleep chan =>
    cases hn
    refine h.crit_sleep hme hctl chan .release ?_ ?_ (fun _ => rfl) rfl
    · simpa using hwf
    · simpa [held] using hfree
  | wakeup chan =>
    cases hn
    exact h.crit_ret hme hctl (Wakes.wakeup1 _ _)

end

end Xv6.Ptable
