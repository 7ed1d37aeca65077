import Xv6.Ptable.Kernel

/-!
# The invariant of the process table

`Inv` says how the table, the lock, the CPUs and the kernel stacks fit together:

* `TableOk`: the slots above `t_num` and those of UNUSED processes are UNUSED_T, threads that are
  alive belong to a process in use, and an EMBRYO is the only thread of its process;
* `CpuOk`: a thread is RUNNING exactly when it is on a CPU, and on one only; a CPU in code that
  expects `ptable.lock` holds it, and the stack of a thread that waits for a CPU expects it;
* `FramesOk`: a `fork` between its two sections owns an EMBRYO of its own, and a thread in
  `exit_process` is the last one of its process, which is not init.
-/

namespace Xv6.Ptable

open Function Table

attribute [local simp] Kernel.boot

/-! ## Kernel stacks -/

/-- Code that expects `ptable.lock` held. -/
def Frame.locked : Frame → Bool
  | crit _ | release | sleepBack | forkret => true
  | _ => false

/-- Sections that any kernel code may call. -/
def Sec.leaf : Sec → Bool
  | .yield | .sleep _ | .wakeup _ => true
  | _ => false

/-- What `trap` has left to do. -/
def Frame.plain : Frame → Bool
  | trapExit | enter _ | acquire .yield => true
  | _ => false

/-- Code of `trap` and of one system call, which runs on top of `trap` only. -/
def Frame.base : Frame → Bool
  | acquire k | crit k => !k.leaf
  | trapExit | enter _ | execMark _ | execCheck _ _ | execDone | exitProcess | zombieExit => true
  | _ => false

/-- The code of a system call stands directly on the frames of `trap`. -/
def wf : List Frame → Bool
  | [] => true
  | f :: st => if f.base then st.all Frame.plain else wf st

def free (st : List Frame) : Bool := st.all fun f => !f.locked

/-- A stack that runs with the lock: its next `release` leaves a stack that runs without it. -/
def held : List Frame → Bool
  | [] => false
  | .sleepBack :: st => held st
  | f :: st => f.locked && free st

/-- The frame belongs to a `fork` that has allocated process `np`. -/
def Frame.forks (np : ProcId) : Frame → Bool
  | acquire (.fork q) | crit (.fork q) => q == np
  | _ => false

/-- The frame belongs to `exit_process`. -/
def Frame.exiting : Frame → Bool
  | exitProcess | acquire .exitProcess | crit .exitProcess => true
  | _ => false

/-- The frame belongs to `exit_process`, which has found that the process is not init. -/
def Frame.dying : Frame → Bool
  | acquire .exitProcess | crit .exitProcess => true
  | _ => false

theorem Frame.plain_cases {f : Frame} (h : f.plain) :
    f = .trapExit ∨ (∃ g, f = .enter g) ∨ f = .acquire .yield := by
  unfold plain at h
  split at h <;> simp_all

theorem wf_of_plain {st : List Frame} (h : st.all Frame.plain) : wf st := by
  induction st with
  | nil => rfl
  | cons f st ih =>
    simp only [List.all_cons, Bool.and_eq_true] at h
    rcases f.plain_cases h.1 with rfl | ⟨g, rfl⟩ | rfl
    · exact h.2
    · exact h.2
    · exact ih h.2

theorem Frame.of_plain {f : Frame} (h : f.plain) :
    f.locked = false ∧ (∀ np, f.forks np = false) ∧ f.exiting = false := by
  rcases f.plain_cases h with rfl | ⟨g, rfl⟩ | rfl <;> exact ⟨rfl, fun _ => rfl, rfl⟩

section

variable {st : List Frame} (h : st.all Frame.plain)

include h

theorem free_of_plain : free st := by
  simp only [free, List.all_eq_true] at h ⊢
  exact fun f hf => by simp [(Frame.of_plain (h f hf)).1]

theorem not_forks_of_plain (np : ProcId) : st.any (Frame.forks np) = false := by
  simp only [List.all_eq_true, List.any_eq_false] at h ⊢
  exact fun f hf => by simp [(Frame.of_plain (h f hf)).2.1 np]

theorem not_exiting_of_plain : st.any Frame.exiting = false := by
  simp only [List.all_eq_true, List.any_eq_false] at h ⊢
  exact fun f hf => by simp [(Frame.of_plain (h f hf)).2.2]

end

theorem not_dying {st : List Frame} (h : st.any Frame.exiting = false) :
    st.any Frame.dying = false := by
  simp only [List.any_eq_false] at h ⊢
  intro f hf hd
  refine h f hf ?_
  unfold Frame.dying at hd
  split at hd <;> simp_all [Frame.exiting]

/-! ## The table alone -/

/-- The thread has a kernel stack that `scheduler` may resume. -/
@[simp] def ThreadState.saved : ThreadState → Bool
  | SLEEPING | RUNNABLE => true
  | _ => false

/-- What holds of the table by itself. -/
structure TableOk (T : Table) : Prop where
  tNum : ∀ p, (T.proc p).tNum ≤ NTHREADS
  above : ∀ t, T.below t = false → (T.thread t).state = .UNUSED_T
  unused : ∀ t, (T.proc t.1).state = .UNUSED → (T.thread t).state = .UNUSED_T
  alive : ∀ t, (T.thread t).state.alive → (T.proc t.1).state = .USED
  embryo : ∀ t, (T.thread t).state = .EMBRYO →
    (T.thread t).context = [.forkret] ∧ (T.proc t.1).tNum = 1

/-- What a section may do to a thread other than change its own state. -/
inductive Trans (a b : Thread) : Prop where
  | same (hs : b.state = a.state) (hc : b.context = a.context)
  | wake (ha : a.state = .SLEEPING) (hb : b.state = .RUNNABLE) (hc : b.context = a.context)
  | make (ha : a.state = .UNUSED_T ∨ a.state = .EMBRYO)
      (hb : b.state = .UNUSED_T ∨ b.state = .EMBRYO ∨ b.state = .RUNNABLE)
      (hc : b.state ≠ .UNUSED_T → b.context = [.forkret])
  | reap (ha : a.state = .ZOMBIE_T) (hb : b.state = .UNUSED_T)

/-! ## The whole state -/

variable {C : Type}

/-- Thread `t` has kernel stack `st`, in use on a CPU or saved. -/
def Stk (s : Kernel C) (t : Slot) (st : List Frame) : Prop :=
  (∃ c, (s.cpu c).thread = some t ∧ (s.cpu c).ctl = .run st) ∨
    ((s.table.thread t).state.saved ∧ (s.table.thread t).context = st)

/-- The control of CPU `c` agrees with the lock and `c->thread`. -/
def CtlOk (s : Kernel C) (c : C) : Prop :=
  match (s.cpu c).ctl with
  | .idle .none | .idle (.acquire _) => (s.cpu c).thread = none
  | .idle (.crit _) | .idle .release | .scanProc _ | .scanThread _ _ =>
    (s.cpu c).thread = none ∧ s.lock = some c
  | .run st =>
    (s.cpu c).thread ≠ none ∧ wf st ∧ (free st ∨ (held st ∧ s.lock = some c))
  | .panic _ => True

structure CpuOk (s : Kernel C) : Prop where
  running : ∀ c t, (s.cpu c).thread = some t → (s.table.thread t).state = .RUNNING
  onCpu : ∀ t, (s.table.thread t).state = .RUNNING → ∃ c, (s.cpu c).thread = some t
  inj : ∀ c d t, (s.cpu c).thread = some t → (s.cpu d).thread = some t → c = d
  ctl : ∀ c, CtlOk s c
  saved : ∀ t, (s.table.thread t).state.saved →
    wf (s.table.thread t).context ∧ held (s.table.thread t).context

/-- The frames of the kernel stacks agree with the table. -/
structure FramesOk (s : Kernel C) : Prop where
  forking : ∀ t st np, Stk s t st → st.any (Frame.forks np) →
    (s.table.thread (slot0 np)).state = .EMBRYO
  forkUnique : ∀ t t' st st' np, Stk s t st → Stk s t' st' → st.any (Frame.forks np) →
    st'.any (Frame.forks np) → t = t'
  exiting : ∀ t st, Stk s t st → st.any Frame.exiting →
    ∀ t', t'.1 = t.1 → t' ≠ t → (s.table.thread t').state.alive = false
  dying : ∀ t st, Stk s t st → st.any Frame.dying → t.1 ≠ s.table.initproc

structure Inv (s : Kernel C) : Prop where
  table : TableOk s.table
  cpu : CpuOk s
  frames : FramesOk s

/-! ## The initial state -/

theorem TableOk.userinit (base : ℤ) : TableOk (.userinit base) := by
  have hp : ∀ p, ((Table.userinit base).proc p).state = .UNUSED ∧
    ((Table.userinit base).proc p).tNum = 0 ∨
      p.val = 0 ∧ ((Table.userinit base).proc p).state = .USED ∧
      ((Table.userinit base).proc p).tNum = 1 := by
    intro p
    by_cases h0 : p.val = 0
    · exact .inr ⟨h0, by simp [Table.userinit, h0]⟩
    · exact .inl (by simp [Table.userinit, h0])
  have ht : ∀ t, ((Table.userinit base).thread t).state = .UNUSED_T ∨
      t.1.val = 0 ∧ t.2.val = 0 ∧ ((Table.userinit base).thread t).state = .RUNNABLE := by
    intro t
    by_cases h0 : t.1.val = 0 ∧ t.2.val = 0
    · exact .inr ⟨h0.1, h0.2, by simp [Table.userinit, h0]⟩
    · exact .inl (by simp [Table.userinit, h0])
  refine ⟨fun p => ?_, fun t hb => ?_, fun t hu => ?_, fun t ha => ?_, fun t he => ?_⟩
  · rcases hp p with ⟨-, h⟩ | ⟨-, -, h⟩ <;> rw [h] <;> decide
  · rcases ht t with h | ⟨h₁, h₂, -⟩
    · exact h
    · rcases hp t.1 with ⟨-, h⟩ | ⟨-, -, h⟩
      · simp [Table.userinit, h₁] at h
      · simp [Table.below, h, h₂] at hb
  · rcases ht t with h | ⟨h₁, -, -⟩
    · exact h
    · simp [Table.userinit, h₁] at hu
  · rcases ht t with h | ⟨h₁, -, -⟩
    · rw [h] at ha
      exact absurd ha (by decide)
    · simp [Table.userinit, h₁]
  · rcases ht t with h | ⟨-, -, h⟩ <;> simp [h] at he

attribute [local simp] Frame.forks

theorem Inv.boot (base : ℤ) : Inv (Kernel.boot C base) := by
  have hctx : ∀ t, ((userinit base).thread t).state.saved →
      ((userinit base).thread t).context = [.forkret] := fun t ht => by
    by_cases h0 : t.1.val = 0 ∧ t.2.val = 0 <;> simp_all [userinit]
  have hstk : ∀ t st, Stk (Kernel.boot C base) t st → st = [.forkret] := by
    rintro t st (⟨c, hc, -⟩ | ⟨hsv, hc⟩)
    · simp at hc
    · exact hc.symm.trans (hctx t hsv)
  refine ⟨.userinit base, ⟨fun c t hc => ?_, fun t ht => ?_, fun c d t hc => ?_, fun c => ?_,
    fun t ht => ?_⟩, ⟨fun t st np h hnp => ?_, fun t t' st st' np h _ hnp => ?_,
    fun t st h hx => ?_, fun t st h hx => ?_⟩⟩
  · simp at hc
  · by_cases h0 : t.1.val = 0 ∧ t.2.val = 0 <;> simp [userinit, h0] at ht
  · simp at hc
  · simp [CtlOk]
  · have := hctx t ht
    simp only [Kernel.boot, this]
    exact ⟨rfl, rfl⟩
  · rw [hstk t st h] at hnp
    simp at hnp
  · rw [hstk t st h] at hnp
    simp at hnp
  · rw [hstk t st h] at hx
    simp [Frame.exiting] at hx
  · rw [hstk t st h] at hx
    simp [Frame.dying] at hx

/-! ## Steps of one CPU -/

theorem Trans.running {a b : Thread} (h : Trans a b) : b.state = .RUNNING ↔ a.state = .RUNNING := by
  cases h with
  | same hs _ => rw [hs]
  | wake ha hb _ => simp [ha, hb]
  | make ha hb _ => rcases ha with ha | ha <;> rcases hb with hb | hb | hb <;> simp [ha, hb]
  | reap ha hb => simp [ha, hb]

theorem Trans.saved {a b : Thread} (h : Trans a b) (hb : b.state.saved) :
    (a.state.saved ∧ b.context = a.context) ∨ b.context = [.forkret] := by
  cases h with
  | same hs hc => exact .inl ⟨hs ▸ hb, hc⟩
  | wake ha _ hc => exact .inl ⟨by simp [ha], hc⟩
  | make _ _ hc => exact .inr (hc fun hu => by simp [hu] at hb)
  | reap _ hu => simp [hu] at hb

theorem Stk.alive {s : Kernel C} (h : Inv s) {t : Slot} {st : List Frame} (ht : Stk s t st) :
    (s.table.thread t).state.alive := by
  rcases ht with ⟨d, hd, -⟩ | ⟨hsv, -⟩
  · rw [h.cpu.running d t hd]
    rfl
  · revert hsv
    cases (s.table.thread t).state <;> simp [ThreadState.alive]

theorem FramesOk.step {s s' : Kernel C} (h : Inv s) {me : Slot} {st : List Frame} (st' : List Frame)
    (hstk : Stk s me st) (hstk' : ∀ t st₁, Stk s' t st₁ →
      (t = me ∧ st₁ = st') ∨ (t ≠ me ∧ (Stk s t st₁ ∨ st₁ = [.forkret])))
    (hborn : ∀ t, (s.table.thread t).state.alive = false → (s'.table.thread t).state.alive →
      t.1 = me.1 ∨ (s.table.proc t.1).state = .UNUSED)
    (hemb : ∀ np, (s.table.thread (slot0 np)).state = .EMBRYO →
      (s'.table.thread (slot0 np)).state = .EMBRYO ∨ st.any (Frame.forks np))
    (hfork : ∀ np, st'.any (Frame.forks np) → (s'.table.thread (slot0 np)).state = .EMBRYO ∧
        ((s.table.thread (slot0 np)).state ≠ .EMBRYO ∨ st.any (Frame.forks np)))
    (hexit : st'.any Frame.exiting →
      ∀ t, t.1 = me.1 → t ≠ me → (s'.table.thread t).state.alive = false)
    (hinit : s'.table.initproc = s.table.initproc)
    (hdying : st'.any Frame.dying → st.any Frame.dying ∨ me.1 ≠ s.table.initproc) :
    FramesOk s' where
  forking t st₁ np ht hnp := by
    rcases hstk' t st₁ ht with ⟨-, rfl⟩ | ⟨htm, ht | rfl⟩
    · exact (hfork np hnp).1
    · rcases hemb np (h.frames.forking t st₁ np ht hnp) with he | he
      · exact he
      · exact absurd (h.frames.forkUnique t me st₁ st np ht hstk hnp he) htm
    · simp at hnp
  forkUnique t t' st₁ st₂ np ht ht' h₁ h₂ := by
    -- a thread other than `me` does not fork what `me` forks
    have hnew : ∀ t st₁, t ≠ me → Stk s t st₁ ∨ st₁ = [.forkret] → st₁.any (Frame.forks np) →
        st'.any (Frame.forks np) → False := fun t st₁ htm ht h₁ h₂ => by
      rcases ht with ht | rfl
      · rcases (hfork np h₂).2 with hne | hst
        · exact hne (h.frames.forking t st₁ np ht h₁)
        · exact htm (h.frames.forkUnique t me st₁ st np ht hstk h₁ hst)
      · simp at h₁
    rcases hstk' t st₁ ht with ⟨hm, e⟩ | ⟨hm, ho⟩ <;>
      rcases hstk' t' st₂ ht' with ⟨hm', e'⟩ | ⟨hm', ho'⟩
    · rw [hm, hm']
    · exact (hnew t' st₂ hm' ho' h₂ (e ▸ h₁)).elim
    · exact (hnew t st₁ hm ho h₁ (e' ▸ h₂)).elim
    · rcases ho with ho | rfl
      · rcases ho' with ho' | rfl
        · exact h.frames.forkUnique t t' st₁ st₂ np ho ho' h₁ h₂
        · simp at h₂
      · simp at h₁
  exiting t st₁ ht hx t' hp hne := by
    rcases hstk' t st₁ ht with ⟨rfl, rfl⟩ | ⟨htm, ht | rfl⟩
    · exact hexit hx t' hp hne
    · by_contra halive
      have hdead := h.frames.exiting t st₁ ht hx t' hp hne
      rcases hborn t' hdead (by simpa using halive) with hpm | hun
      · -- `me` is alive in the process that `t` is exiting
        have := h.frames.exiting t st₁ ht hx me (hpm.symm.trans hp) (Ne.symm htm)
        rw [hstk.alive h] at this
        exact absurd this (by decide)
      · rw [hp, h.table.alive t (ht.alive h)] at hun
        exact absurd hun (by decide)
    · simp [Frame.exiting] at hx
  dying t st₁ ht hx := by
    rw [hinit]
    rcases hstk' t st₁ ht with ⟨rfl, rfl⟩ | ⟨-, ht | rfl⟩
    · rcases hdying hx with hx | hx
      · exact h.frames.dying t st hstk hx
      · exact hx
    · exact h.frames.dying t st₁ ht hx
    · simp [Frame.dying] at hx

theorem FramesOk.mono {s s' : Kernel C} (h : FramesOk s) (hstk : ∀ t st, Stk s' t st → Stk s t st)
    (hemb : ∀ t, (s.table.thread t).state = .EMBRYO → (s'.table.thread t).state = .EMBRYO)
    (halive : ∀ t, (s.table.thread t).state.alive = false → (s'.table.thread t).state.alive = false)
    (hinit : s'.table.initproc = s.table.initproc) : FramesOk s' where
  forking t st np ht hnp := hemb _ (h.forking t st np (hstk t st ht) hnp)
  forkUnique t t' st st' np ht ht' h₁ h₂ :=
    h.forkUnique t t' st st' np (hstk t st ht) (hstk t' st' ht') h₁ h₂
  exiting t st ht hx t' hp hne := halive t' (h.exiting t st (hstk t st ht) hx t' hp hne)
  dying t st ht hx := hinit ▸ h.dying t st (hstk t st ht) hx

section Cpu

variable [DecidableEq C] {s : Kernel C} {c : C} {T : Table} {lk : Option C} {fi : Bool}

theorem Stk.of_update {u : Cpu} {t : Slot} {st : List Frame}
    (h : Stk (⟨T, lk, update s.cpu c u, fi⟩ : Kernel C) t st) (hu : u.thread ≠ some t)
    (htr : Trans (s.table.thread t) (T.thread t)) : Stk s t st ∨ st = [.forkret] := by
  rcases h with ⟨d, ht, hst⟩ | ⟨hsv, rfl⟩
  · by_cases hd : d = c
    · subst hd
      simp [hu] at ht
    · simp only [update_of_ne hd] at ht hst
      exact .inl (.inl ⟨d, ht, hst⟩)
  · rcases htr.saved hsv with ⟨h₁, h₂⟩ | h₂
    · exact .inl (.inr ⟨h₁, h₂.symm⟩)
    · exact .inr h₂

theorem CtlOk.of_update {u : Cpu} {d : C} (h : CtlOk s d) (hd : d ≠ c)
    (hlk : s.lock = some d → lk = some d) : CtlOk (⟨T, lk, update s.cpu c u, fi⟩ : Kernel C) d := by
  unfold CtlOk at h ⊢
  simp only [update_of_ne hd]
  split <;> simp_all
  exact h.2.2.imp_right fun h' => ⟨h'.1, hlk h'.2⟩

theorem CpuOk.keep (h : Inv s) {o : Option Slot} {k : Ctl} (ho : (s.cpu c).thread = o)
    (htr : ∀ t, Trans (s.table.thread t) (T.thread t))
    (hlk : ∀ d, d ≠ c → s.lock = some d → lk = some d)
    (hctl : CtlOk (⟨T, lk, update s.cpu c ⟨o, k⟩, fi⟩ : Kernel C) c) :
    CpuOk (⟨T, lk, update s.cpu c ⟨o, k⟩, fi⟩ : Kernel C) := by
  have hthread : ∀ d, (update s.cpu c ⟨o, k⟩ d).thread = (s.cpu d).thread := fun d => by
    by_cases hdc : d = c
    · subst hdc
      simp [ho]
    · rw [update_of_ne hdc]
  refine ⟨fun d t hd => ?_, fun t ht => ?_, fun d e t hd he => ?_, fun d => ?_, fun t ht => ?_⟩
  · rw [hthread] at hd
    exact (htr t).running.2 (h.cpu.running d t hd)
  · obtain ⟨d, hd⟩ := h.cpu.onCpu t ((htr t).running.1 ht)
    exact ⟨d, (hthread d).trans hd⟩
  · rw [hthread] at hd he
    exact h.cpu.inj d e t hd he
  · by_cases hdc : d = c
    · exact hdc ▸ hctl
    · exact (h.cpu.ctl d).of_update hdc (hlk d hdc)
  · rcases (htr t).saved ht with ⟨hs, hc⟩ | hc
    · rw [hc]
      exact h.cpu.saved t hs
    · rw [hc]
      exact ⟨rfl, rfl⟩

/-- CPU `c`, running thread `me` with stack `st`, goes on with stack `st'`. -/
theorem Inv.local (h : Inv s) {me : Slot} {st st' : List Frame} (hme : (s.cpu c).thread = some me)
    (hctl : (s.cpu c).ctl = .run st) (htr : ∀ t, Trans (s.table.thread t) (T.thread t))
    (hT : TableOk T) (hborn : ∀ t, (s.table.thread t).state.alive = false →
    (T.thread t).state.alive → t.1 = me.1 ∨ (s.table.proc t.1).state = .UNUSED)
    (hemb : ∀ np, (s.table.thread (slot0 np)).state = .EMBRYO →
      (T.thread (slot0 np)).state = .EMBRYO ∨ st.any (Frame.forks np))
    (hlk : ∀ d, d ≠ c → s.lock = some d → lk = some d) (hwf : wf st')
    (hlock : free st' ∨ (held st' ∧ lk = some c))
    (hfork : ∀ np, st'.any (Frame.forks np) → (T.thread (slot0 np)).state = .EMBRYO ∧
      ((s.table.thread (slot0 np)).state ≠ .EMBRYO ∨ st.any (Frame.forks np)))
    (hexit : st'.any Frame.exiting → ∀ t, t.1 = me.1 → t ≠ me → (T.thread t).state.alive = false)
    (hinit : T.initproc = s.table.initproc)
    (hdying : st'.any Frame.dying → st.any Frame.dying ∨ me.1 ≠ s.table.initproc) :
    Inv (⟨T, lk, update s.cpu c ⟨some me, .run st'⟩, fi⟩ : Kernel C) := by
  refine ⟨hT, CpuOk.keep h hme htr hlk ?_,
    FramesOk.step h st' (.inl ⟨c, hme, hctl⟩) (fun t st₁ ht => ?_) hborn hemb hfork hexit hinit
    hdying⟩
  · simp only [CtlOk, update_self]
    exact ⟨by simp, hwf, hlock⟩
  · by_cases htm : t = me
    · subst htm
      refine .inl ⟨rfl, ?_⟩
      rcases ht with ⟨d, hd, hst⟩ | ⟨hsv, -⟩
      · by_cases hdc : d = c
        · subst hdc
          simpa [eq_comm] using hst
        · simp only [update_of_ne hdc] at hd
          exact absurd (h.cpu.inj d c t hd hme) hdc
      · rw [(htr t).running.2 (h.cpu.running c t hme)] at hsv
        exact absurd hsv (by decide)
    · exact .inr ⟨htm, ht.of_update (by simpa [eq_comm] using htm) (htr t)⟩

theorem Inv.panic (h : Inv s) {me : Slot} {st : List Frame} {m : Panic}
    (hme : (s.cpu c).thread = some me) (hctl : (s.cpu c).ctl = .run st) :
    Inv (⟨s.table, s.lock, update s.cpu c ⟨some me, .panic m⟩, fi⟩ : Kernel C) := by
  have hsame : ∀ t, Trans (s.table.thread t) (s.table.thread t) := fun _ => .same rfl rfl
  refine ⟨h.table, CpuOk.keep h hme hsame (fun _ _ hd => hd) (by simp [CtlOk]),
    h.frames.mono (fun t st₁ ht => ?_) (fun _ => id) (fun _ => id) rfl⟩
  rcases ht with ⟨d, hd, hst⟩ | hsv
  · by_cases hdc : d = c
    · subst hdc
      simp at hst
    · simp only [update_of_ne hdc] at hd hst
      exact .inl ⟨d, hd, hst⟩
  · exact .inr hsv

/-- Thread `me` on CPU `c` gives the CPU back, with stack `st'` or for good. -/
theorem Inv.sched (h : Inv s) {me : Slot} {st : List Frame} (st' : List Frame) {p : ProcId} {i : ℕ}
    (hme : (s.cpu c).thread = some me) (hctl : (s.cpu c).ctl = .run st) (hlock : s.lock = some c)
    (htr : ∀ t, t ≠ me → Trans (s.table.thread t) (T.thread t)) (hT : TableOk T)
    (hx : (T.thread me).state = .ZOMBIE_T ∨ ((T.thread me).state.saved ∧
      (T.thread me).context = st' ∧ wf st' ∧ held st'))
    (hborn : ∀ t, (s.table.thread t).state.alive = false → (T.thread t).state.alive = false)
    (hemb : ∀ t, (s.table.thread t).state = .EMBRYO → (T.thread t).state = .EMBRYO)
    (hfork : ∀ np, st'.any (Frame.forks np) → st.any (Frame.forks np))
    (hexit : st'.any Frame.exiting → st.any Frame.exiting) (hinit : T.initproc = s.table.initproc)
    (hdying : st'.any Frame.dying → st.any Frame.dying) :
    Inv (⟨T, s.lock, update s.cpu c ⟨none, .scanThread p i⟩, fi⟩ : Kernel C) := by
  have hstk : Stk s me st := .inl ⟨c, hme, hctl⟩
  have hnr : (T.thread me).state ≠ .RUNNING := by
    rcases hx with hx | ⟨hx, -⟩ <;> intro hr
    · simp [hr] at hx
    · simp [hr] at hx
  -- the other CPUs run other threads
  have hother : ∀ d t, (update s.cpu c ⟨none, .scanThread p i⟩ d).thread = some t →
      d ≠ c ∧ (s.cpu d).thread = some t ∧ t ≠ me := fun d t hd => by
    by_cases hdc : d = c
    · subst hdc
      simp at hd
    · rw [update_of_ne hdc] at hd
      refine ⟨hdc, hd, ?_⟩
      rintro rfl
      exact hdc (h.cpu.inj d c t hd hme)
  refine ⟨hT, ⟨fun d t hd => ?_, fun t ht => ?_, fun d e t hd he => ?_, fun d => ?_,
    fun t ht => ?_⟩, FramesOk.step h st' hstk (fun t st₁ ht => ?_) (fun t h₁ h₂ =>
    ?_) (fun np hnp => .inl (hemb _ hnp))
      (fun np hnp => ?_) (fun hx' t hp hne => ?_) hinit fun hx' => .inl (hdying hx')⟩
  · obtain ⟨-, hd, htm⟩ := hother d t hd
    exact (htr t htm).running.2 (h.cpu.running d t hd)
  · have htm : t ≠ me := by
      rintro rfl
      exact hnr ht
    obtain ⟨d, hd⟩ := h.cpu.onCpu t ((htr t htm).running.1 ht)
    refine ⟨d, ?_⟩
    have hdc : d ≠ c := by
      rintro rfl
      rw [hme] at hd
      exact htm (Option.some.inj hd).symm
    simpa [hdc] using hd
  · exact h.cpu.inj d e t (hother d t hd).2.1 (hother e t he).2.1
  · by_cases hdc : d = c
    · subst hdc
      simpa [CtlOk] using hlock
    · exact (h.cpu.ctl d).of_update hdc id
  · by_cases htm : t = me
    · subst htm
      rcases hx with hx | ⟨-, hc, hw, hh⟩
      · simp [hx] at ht
      · rw [hc]
        exact ⟨hw, hh⟩
    · rcases (htr t htm).saved ht with ⟨hs, hc⟩ | hc
      · rw [hc]
        exact h.cpu.saved t hs
      · rw [hc]
        exact ⟨rfl, rfl⟩
  · by_cases htm : t = me
    · subst htm
      refine .inl ⟨rfl, ?_⟩
      rcases ht with ⟨d, hd, -⟩ | ⟨hsv, hc⟩
      · exact absurd rfl (hother d t hd).2.2
      · rcases hx with hx | ⟨-, hc', -⟩
        · simp [hx] at hsv
        · exact hc.symm.trans hc'
    · exact .inr ⟨htm, ht.of_update (by simp) (htr t htm)⟩
  · rw [hborn t h₁] at h₂
    exact absurd h₂ (by decide)
  · exact ⟨hemb _ (h.frames.forking me st np hstk (hfork np hnp)), .inr (hfork np hnp)⟩
  · exact hborn t (h.frames.exiting me st hstk (hexit hx') t hp hne)

end Cpu

end Xv6.Ptable
