import Xv6.Ptable.TableStep

/-!
# What one step does to the kernel stacks

A step of CPU `c` replaces the frame on top of the stack of its thread (`Frame.Next`), or pushes
frames for an interrupt or a call on it (`StackStep`).
-/

namespace Xv6.Ptable

open Function Table Kernel

variable {C : Type}

/-- The frames with which a section goes on, if it does. -/
def Out.frames : Out → Option (List Frame)
  | .ret _ => some [.release]
  | .leak _ => some []
  | .goto fs | .sched _ fs => some fs
  | .panic _ | .spin => none

/-- The frames that replace the frame on top of the stack of thread `me`. -/
inductive Frame.Next (s : Kernel C) (me : Slot) (ok : Bool) : Frame → List Frame → Prop where
  | acquire (k : Sec) : Next s me ok (.acquire k) [.crit k]
  | crit {k : Sec} {fs : List Frame} (h : (s.table.crit me ok k).2.frames = some fs) :
    Next s me ok (.crit k) fs
  | release : Next s me ok .release []
  | sleepBack : Next s me ok .sleepBack []
  | forkret {fs : List Frame} (h : fs = [] ∨ fs = [.kernel]) : Next s me ok .forkret fs
  | trapExit {fs : List Frame} (h : fs = [] ∨ fs = [.acquire .exit]) : Next s me ok .trapExit fs
  | enter (g : Call) : Next s me ok (.enter g) (Kernel.enter s.table me g)
  | kernel : Next s me ok .kernel []
  | mark {i : ℕ} {t : Slot} (h : s.slotOf me i = some t) :
    Next s me ok (.execMark i) [.execMark (i + 1)]
  | marked {i : ℕ} (h : s.slotOf me i = none) : Next s me ok (.execMark i) [.acquire .execWake]
  | check {i : ℕ} {flag : Bool} {t : Slot} (h : s.slotOf me i = some t) :
    Next s me ok (.execCheck i flag)
      [.execCheck (i + 1) (flag || decide (t ≠ me ∧ (s.table.thread t).state.alive))]
  | again {i : ℕ} (h : s.slotOf me i = none) : Next s me ok (.execCheck i true) [.acquire .execWake]
  | alone {i : ℕ} (h : s.slotOf me i = none) :
    Next s me ok (.execCheck i false) [.kernel, .execDone]
  | execDone : Next s me ok .execDone []
  | exitProcess : Next s me ok .exitProcess [.kernel, .acquire .exitProcess]

/-- Frames that an interrupt, a system call or other kernel code puts on a stack. -/
def Frame.pushed : Frame → Bool
  | trapExit | enter _ | acquire .yield | acquire (.wakeup (.other _)) | acquire
    (.sleep (.other _)) => true
  | _ => false

inductive StackStep (s : Kernel C) (c : C) (t : Slot) : Act → List Frame → List Frame → Prop where
  | next {ok : Bool} {f : Frame} {fs st : List Frame} (hme : (s.cpu c).thread = some t)
      (hctl : (s.cpu c).ctl = .run (f :: st)) (hf : f.Next s t ok fs) :
      StackStep s c t (.go ok) (f :: st) (fs ++ st)
  | push {a : Act} {fs st : List Frame} (hme : (s.cpu c).thread = some t)
    (hctl : (s.cpu c).ctl = .run st)
      (hfs : fs.all Frame.pushed) : StackStep s c t a st (fs ++ st)

theorem StackStep.stk {s : Kernel C} {c : C} {t : Slot} {a : Act} {st st' : List Frame}
    (h : StackStep s c t a st st') : Stk s t st := by
  cases h with
  | next hme hctl hf => exact .inl ⟨c, hme, hctl⟩
  | push hme hctl hfs => exact .inl ⟨c, hme, hctl⟩

/-- Where the stack of a thread after a step comes from. -/
def StackFrom (s : Kernel C) (c : C) (a : Act) (t : Slot) (st' : List Frame) : Prop :=
  Stk s t st' ∨ st' = [.forkret] ∨ ∃ st, StackStep s c t a st st'

variable {s s' : Kernel C} {c : C} {me t : Slot} {T : Table} {a : Act} {lk : Option C} {fi : Bool}
  {st st' : List Frame}

theorem Inv.crit_trans (hi : Inv s) (ok : Bool) (hme : (s.cpu c).thread = some me) {k : Sec}
    {st : List Frame} (hctl : (s.cpu c).ctl = .run (.crit k :: st))
    (hb : k = .kthreadCreate → (s.table.proc me.1).tNum < NTHREADS) (t : Slot) :
    Trans (s.table.thread t) ((s.table.crit me ok k).1.thread t) := by
  have hrun := hi.cpu.running c me hme
  cases k with
  | allocproc => exact (Keeps.allocproc hi.table me ok).1.trans t
  | fork np =>
    have he := hi.frames.forking me _ np (.inl ⟨c, hme, hctl⟩) (by simp [Frame.forks])
    exact (Keeps.fork hi.table me ok he).1.trans t
  | kthreadCreate => exact (Keeps.kthreadCreate hi.table ok hrun (hb rfl)).1.trans t
  | wait =>
    rcases s.table.wait_cases me with ⟨q, n, hq, -, hr⟩ | hr | hr | hr <;>
      simp only [Table.crit, hr]
    · exact (Keeps.reap hi.table me n (Table.zombieChild_spec hq).2).1.trans t
    · exact .same rfl rfl
    · exact .same rfl rfl
    · exact (Wakes.sleep s.table me _ _).toTrans t
  | exitProcess => exact (Wakes.exitWakes s.table me.1).toTrans t
  | kill pid => exact (Wakes.kill s.table pid).toTrans t
  | exit => exact (Wakes.exit s.table me).toTrans t
  | exitThread => exact (Wakes.exitThread s.table me).toTrans t
  | kthreadJoin tid =>
    simp only [Table.crit, Table.kthreadJoin]
    split <;> exact .same rfl rfl
  | joinLoop u =>
    simp only [Table.crit, Table.joinLoop]
    split
    · exact .same rfl rfl
    · exact .same rfl rfl
    · exact (Wakes.sleep s.table me _ _).toTrans t
  | execWake => exact (Wakes.execWake s.table me).toTrans t
  | sleep chan => exact (Wakes.sleep s.table me chan _).toTrans t
  | wakeup chan => exact (Wakes.wakeup1 s.table chan).toTrans t
  | growproc | yield => exact .same rfl rfl

variable [DecidableEq C]

theorem Stk.of_run (hi : Inv s) (hme : (s.cpu c).thread = some me) {k : Ctl}
    (htr : ∀ t, Trans (s.table.thread t) (T.thread t))
    (h : Stk (({ s with table := T, lock := lk, first := fi } : Kernel C).setCtl c k) t st') :
    (Stk s t st' ∨ st' = [.forkret]) ∨ t = me ∧ k = .run st' := by
  rw [show ({ s with table := T, lock := lk, first := fi } : Kernel C).setCtl c k =
    ⟨T, lk, update s.cpu c ⟨some me, k⟩, fi⟩ by simp [setCtl, hme]] at h
  by_cases htm : t = me
  · subst htm
    right
    rcases h with ⟨d, hd, hst⟩ | ⟨hsv, -⟩
    · by_cases hdc : d = c
      · subst hdc
        exact ⟨rfl, by simpa using hst⟩
      · simp only [update_of_ne hdc] at hd
        exact absurd (hi.cpu.inj d c t hd hme) hdc
    · rw [(htr t).running.2 (hi.cpu.running c t hme)] at hsv
      exact absurd hsv (by decide)
  · exact .inl (h.of_update (by simpa [eq_comm] using htm) (htr t))

theorem Stk.of_idle (hno : (s.cpu c).thread = none) {k : Ctl} (hw : Wakes s.table T)
    (h : Stk (({ s with table := T, lock := lk, first := fi } : Kernel C).setCtl c k) t st') :
    Stk s t st' := by
  rcases h with ⟨d, hd, hst⟩ | ⟨hsv, hc⟩
  · by_cases hdc : d = c
    · subst hdc
      simp [setCtl, hno] at hd
    · simp only [setCtl, update_of_ne hdc] at hd hst
      exact .inl ⟨d, hd, hst⟩
  · exact .inr ⟨hw.saved hsv, (hw.context t).symm.trans hc⟩

theorem Stk.of_crit (hi : Inv s) (hme : (s.cpu c).thread = some me) {ok : Bool} {k : Sec}
    (hctl : (s.cpu c).ctl = .run (.crit k :: st))
    (hb : k = .kthreadCreate → (s.table.proc me.1).tNum < NTHREADS)
    (hn : s.crit c me ok k st = some s') (h : Stk s' t st') : StackFrom s c (.go ok) t st' := by
  have htr := hi.crit_trans ok hme hctl hb
  have hgo : ∀ fs, (s.table.crit me ok k).2.frames = some fs →
      Stk (({ s with table := (s.table.crit me ok k).1 } : Kernel C).setCtl c (.run (fs ++ st))) t
      st' →
      StackFrom s c (.go ok) t st' := fun fs hfs h => by
    rcases Stk.of_run hi hme htr h with (hst | hst) | ⟨rfl, hst⟩
    · exact .inl hst
    · exact .inr (.inl hst)
    · rw [← Ctl.run.inj hst]
      exact .inr (.inr ⟨_, .next hme hctl (.crit hfs)⟩)
  have heq : s.crit c me ok k st =
      ({ s with table := (s.table.crit me ok k).1 } : Kernel C).finish c me st
      (s.table.crit me ok k).2 := rfl
  rw [heq] at hn
  cases ho : (s.table.crit me ok k).2 with
  | ret v =>
    rw [ho] at hn
    cases hn
    exact hgo [.release] (by rw [ho]; rfl) h
  | leak v =>
    rw [ho] at hn
    cases hn
    exact hgo [] (by rw [ho]; rfl) h
  | goto fs =>
    rw [ho] at hn
    cases hn
    exact hgo fs (by rw [ho]; rfl) h
  | sched x fs =>
    rw [ho] at hn
    simp only [finish, Option.some.injEq] at hn
    rw [sched_eq (hi.at_crit hctl).1] at hn
    subst hn
    by_cases htm : t = me
    · -- the stack that `sched` has saved
      subst htm
      rcases h with ⟨d, hd, hst⟩ | ⟨hsv, hc⟩
      · by_cases hdc : d = c
        · subst hdc
          simp at hd
        · simp only [update_of_ne hdc] at hd
          exact absurd (hi.cpu.inj d c t hd hme) hdc
      · rw [schedTable_thread, update_self] at hc
        subst hc
        exact .inr (.inr ⟨_, .next hme hctl (.crit (by rw [ho]; rfl))⟩)
    · have htr' : Trans (s.table.thread t)
        ((schedTable (s.table.crit me ok k).1 me x (fs ++ st)).thread t) := by
        rw [schedTable_thread, update_of_ne htm]
        exact htr t
      exact (h.of_update (by simp) htr').imp_right .inl
  | panic m =>
    rw [ho] at hn
    cases hn
    rcases Stk.of_run hi hme htr h with h | ⟨-, h⟩
    · exact h.imp_right .inl
    · cases h
  | spin =>
    rw [ho] at hn
    cases hn

omit [DecidableEq C] in
theorem Frame.Goes.next (hT : TableOk s.table) {ok : Bool} {f : Frame} {fs : List Frame}
    (h : f.Goes s me ok T fs) : f.Next s me ok fs ∧ ∀ t, Trans (s.table.thread t) (T.thread t) := by
  have hsame : ∀ t, Trans (s.table.thread t) (s.table.thread t) := fun _ => .same rfl rfl
  cases h with
  | sleepBack =>
    exact ⟨.sleepBack, (Wakes.setThread (t := me) (f := fun th => { th with chan := .null }) rfl rfl
      rfl).toTrans⟩
  | trapExit hfs => exact ⟨.trapExit hfs, hsame⟩
  | enter g => exact ⟨.enter g, hsame⟩
  | kernel => exact ⟨.kernel, hsame⟩
  | mark ht =>
    refine ⟨.mark ht, fun v => ?_⟩
    unfold Table.execMark
    split_ifs
    · exact (Wakes.setThread rfl rfl rfl).toTrans v
    · exact .same rfl rfl
  | marked h => exact ⟨.marked h, hsame⟩
  | check h => exact ⟨.check h, hsame⟩
  | again h => exact ⟨.again h, hsame⟩
  | alone h => exact ⟨.alone h, hsame⟩
  | execDone => exact ⟨.execDone, (Keeps.execDone hT ok).trans⟩
  | exitProcess _ => exact ⟨.exitProcess, hsame⟩

theorem Stk.of_frame (hi : Inv s) (hme : (s.cpu c).thread = some me) {ok : Bool} {f : Frame}
    {fs : List Frame} (hctl : (s.cpu c).ctl = .run (f :: st)) (hf : f.Next s me ok fs)
    (htr : ∀ t, Trans (s.table.thread t) (T.thread t))
    (h : Stk (({ s with table := T, lock := lk, first := fi } : Kernel C).setCtl c
    (.run (fs ++ st))) t st') :
    StackFrom s c (.go ok) t st' := by
  rcases Stk.of_run hi hme htr h with (hst | hst) | ⟨rfl, hst⟩
  · exact .inl hst
  · exact .inr (.inl hst)
  · cases hst
    exact .inr (.inr ⟨_, .next hme hctl hf⟩)

theorem Stk.of_panic (hi : Inv s) (hme : (s.cpu c).thread = some me) {m : Panic}
    (h : Stk (({ s with first := fi } : Kernel C).setCtl c (.panic m)) t st') :
    StackFrom s c a t st' := by
  rcases Stk.of_run hi hme (fun _ => .same rfl rfl) h with h | ⟨-, h⟩
  · exact h.imp_right .inl
  · cases h

omit [DecidableEq C] in
theorem Inv.idles (hi : Inv s) {k : Ctl} (hk : Idles s.table (s.cpu c).ctl T k) :
    (s.cpu c).thread = none ∧ Wakes s.table T := by
  have hc := hi.cpu.ctl c
  unfold CtlOk at hc
  generalize (s.cpu c).ctl = k₀ at hc hk
  cases hk with
  | interrupt n => exact ⟨hc, .refl _⟩
  | wakeup n => exact ⟨hc.1, .wakeup1 _ _⟩
  | used _ | unused _ | thread _ _ | proc _ _ => exact ⟨hc.1, .refl _⟩

theorem Stk.of_acquire (hi : Inv s) {k : Ctl} {ok : Bool} (hk : Takes (s.cpu c) k)
    (h : Stk ({ s with lock := lk }.setCtl c k) t st') : StackFrom s c (.go ok) t st' := by
  have hc := hi.cpu.ctl c
  cases hk with
  | scheduler hctl | interrupt hctl =>
    simp only [CtlOk, hctl] at hc
    exact .inl (Stk.of_idle hc (.refl _) h)
  | thread hme hctl => exact Stk.of_frame hi hme hctl (.acquire _) (fun _ => .same rfl rfl) h

theorem Stk.of_deadlock (hi : Inv s) {k : Ctl} (hk : Takes (s.cpu c) k)
    (h : Stk (s.setCtl c (.panic .acquire)) t st') : StackFrom s c a t st' := by
  have hc := hi.cpu.ctl c
  cases hk with
  | scheduler hctl | interrupt hctl =>
    simp only [CtlOk, hctl] at hc
    exact .inl (Stk.of_idle (T := s.table) hc (.refl _) h)
  | thread hme hctl => exact Stk.of_panic hi hme h

theorem Stk.of_release (hi : Inv s) {k : Ctl} {ok : Bool} (hk : Drops (s.cpu c) k)
    (h : Stk (({ s with first := fi } : Kernel C).release c k) t st') :
    StackFrom s c (.go ok) t st' := by
  have hc := hi.cpu.ctl c
  have hsame : ∀ t, Trans (s.table.thread t) (s.table.thread t) := fun _ => .same rfl rfl
  unfold release at h
  cases hk with
  | interrupt hctl | scheduler hctl =>
    simp only [CtlOk, hctl] at hc
    split_ifs at h <;> exact .inl (Stk.of_idle hc.1 (.refl s.table) h)
  | thread hme hctl =>
    split_ifs at h
    · exact Stk.of_frame hi hme hctl Frame.Next.release hsame h
    · exact Stk.of_panic hi hme h
  | forkret hme hctl hfs =>
    split_ifs at h
    · exact Stk.of_frame hi hme hctl (.forkret hfs) hsame h
    · exact Stk.of_panic hi hme h

theorem Stk.of_push (hi : Inv s) (hctl : (s.cpu c).ctl = .run st) {fs : List Frame}
    (hp : Pushes s c a st T fs)
    (h : Stk (({ s with table := T } : Kernel C).setCtl c (.run (fs ++ st))) t st') :
    StackFrom s c a t st' := by
  have hc := hi.cpu.ctl c
  simp only [CtlOk, hctl] at hc
  obtain ⟨me, hme⟩ := Option.ne_none_iff_exists'.1 hc.1
  have hfs : Wakes s.table T ∧ fs.all Frame.pushed := by
    cases hp with
    | fault _ => exact ⟨.fault _ _, rfl⟩
    | syscall _ | tick | timer _ | interrupt _ _ | sleep _ | wakeup _ => exact ⟨.refl _, rfl⟩
  rcases Stk.of_run hi hme hfs.1.toTrans h with (h | h) | ⟨rfl, h⟩
  · exact .inl h
  · exact .inr (.inl h)
  · cases h
    exact .inr (.inr ⟨st, .push hme hctl hfs.2⟩)

theorem Stk.of_switch {u : Slot} (hr : (s.table.thread u).state = .RUNNABLE)
    (h : Stk (s.switch c u) t st') : Stk s t st' := by
  rcases h with ⟨d, hd, hst⟩ | ⟨hsv, hc⟩
  · by_cases hdc : d = c
    · subst hdc
      simp only [switch, update_self, Option.some.injEq, Ctl.run.injEq] at hd hst
      subst hd
      exact .inr ⟨by rw [hr]; rfl, hst⟩
    · simp only [switch, update_of_ne hdc] at hd hst
      exact .inl ⟨d, hd, hst⟩
  · by_cases htu : t = u
    · subst htu
      simp [switch, setThread, ThreadState.saved] at hsv
    · simp only [switch, setThread, update_of_ne htu] at hsv hc
      exact .inr ⟨hsv, hc⟩

theorem Stk.next (hi : Inv s) (hok : inBounds s (c, a)) (hn : s.next c a = some s')
    (h : Stk s' t st') : StackFrom s c a t st' := by
  cases next_step hn with
  | crit hme hctl hn =>
    refine Stk.of_crit hi hme hctl ?_ hn h
    rintro rfl
    simpa [inBounds, hme, hctl] using hok
  | acquire hk _ => exact Stk.of_acquire hi hk h
  | deadlock hk _ => exact Stk.of_deadlock hi hk h
  | release hk => exact Stk.of_release hi hk h
  | frame hme hctl hf =>
    obtain ⟨hnext, htr⟩ := hf.next hi.table
    exact Stk.of_frame hi hme hctl hnext htr h
  | panic hme _ _ => exact Stk.of_panic hi hme h
  | push hctl hp => exact Stk.of_push hi hctl hp h
  | idle hk =>
    obtain ⟨hno, hw⟩ := hi.idles hk
    exact .inl (Stk.of_idle hno hw h)
  | switch _ _ hr => exact .inl (Stk.of_switch hr h)

end Xv6.Ptable
