import Xv6.Ptable.Invariant

/-!
# What the sections do to the table

`Wakes` covers the sections that only wake sleepers and set flags and channels.  The others create
threads, take or free processes; `Keeps` is what the invariant asks of them.
-/

namespace Xv6.Ptable

open Function Table Prod

attribute [local simp] Table.setProc Table.setThread Table.free Table.fork

/-! ## Sections that wake threads -/

/-- Some sleeping threads are woken, and flags and channels change. -/
structure Wakes (T T' : Table) : Prop where
  state : ∀ t, (T'.thread t).state = (T.thread t).state ∨
    ((T.thread t).state = .SLEEPING ∧ (T'.thread t).state = .RUNNABLE)
  context : ∀ t, (T'.thread t).context = (T.thread t).context
  kstack : ∀ t, (T'.thread t).kstack = (T.thread t).kstack
  proc : ∀ p, ∃ b, T'.proc p = { T.proc p with killed := b }
  initproc : T'.initproc = T.initproc
  nextpid : T'.nextpid = T.nextpid
  fresh : T'.fresh = T.fresh
  freed : T'.freed = T.freed
  reaped : T'.reaped = T.reaped

namespace Wakes

variable {T T' T'' : Table}

theorem refl (T : Table) : Wakes T T :=
  ⟨fun _ => .inl rfl, fun _ => rfl, fun _ => rfl, fun p => ⟨(T.proc p).killed, rfl⟩, rfl, rfl, rfl,
    rfl, rfl⟩

section

variable (h : Wakes T T')

include h

theorem trans (h' : Wakes T' T'') : Wakes T T'' where
  state t := by
    rcases h'.state t with e | ⟨e₁, e₂⟩
    · rw [e]
      exact h.state t
    · rcases h.state t with e | ⟨-, e⟩
      · exact .inr ⟨e ▸ e₁, e₂⟩
      · rw [e] at e₁
        exact absurd e₁ (by decide)
  context t := (h'.context t).trans (h.context t)
  kstack t := (h'.kstack t).trans (h.kstack t)
  proc p := by
    obtain ⟨b, hb⟩ := h.proc p
    obtain ⟨b', hb'⟩ := h'.proc p
    exact ⟨b', by rw [hb', hb]⟩
  initproc := h'.initproc.trans h.initproc
  nextpid := h'.nextpid.trans h.nextpid
  fresh := h'.fresh.trans h.fresh
  freed := h'.freed.trans h.freed
  reaped := h'.reaped.trans h.reaped

theorem toTrans (t : Slot) : Trans (T.thread t) (T'.thread t) := by
  rcases h.state t with e | ⟨e₁, e₂⟩
  · exact .same e (h.context t)
  · exact .wake e₁ e₂ (h.context t)

theorem alive (t : Slot) : (T'.thread t).state.alive = (T.thread t).state.alive := by
  rcases h.state t with e | ⟨e₁, e₂⟩
  · rw [e]
  · rw [e₁, e₂]
    rfl

theorem eq_of_ne {t : Slot} (ht : (T.thread t).state ≠ .SLEEPING) :
    (T'.thread t).state = (T.thread t).state :=
  (h.state t).resolve_right fun e => ht e.1

theorem unused_iff (t : Slot) :
    (T'.thread t).state = .UNUSED_T ↔ (T.thread t).state = .UNUSED_T := by
  rcases h.state t with e | ⟨e₁, e₂⟩
  · rw [e]
  · simp [e₁, e₂]

theorem embryo_iff (t : Slot) : (T'.thread t).state = .EMBRYO ↔ (T.thread t).state = .EMBRYO := by
  rcases h.state t with e | ⟨e₁, e₂⟩
  · rw [e]
  · simp [e₁, e₂]

theorem procState (p : ProcId) : (T'.proc p).state = (T.proc p).state := by
  obtain ⟨b, hb⟩ := h.proc p
  rw [hb]

theorem tNum (p : ProcId) : (T'.proc p).tNum = (T.proc p).tNum := by
  obtain ⟨b, hb⟩ := h.proc p
  rw [hb]

theorem below (t : Slot) : T'.below t = T.below t := by
  rw [Table.below, Table.below, h.tNum]

theorem tableOk (hT : TableOk T) : TableOk T' where
  tNum p := by rw [h.tNum]; exact hT.tNum p
  above t := by rw [h.below, h.unused_iff]; exact hT.above t
  unused t := by rw [h.procState, h.unused_iff]; exact hT.unused t
  alive t := by rw [h.alive, h.procState]; exact hT.alive t
  embryo t := by rw [h.embryo_iff, h.context, h.tNum]; exact hT.embryo t

end

theorem mapThread {f : Slot → Thread → Thread}
    (hs : ∀ t, (f t (T.thread t)).state = (T.thread t).state ∨
      ((T.thread t).state = .SLEEPING ∧ (f t (T.thread t)).state = .RUNNABLE))
    (hc : ∀ t, (f t (T.thread t)).context = (T.thread t).context)
    (hk : ∀ t, (f t (T.thread t)).kstack = (T.thread t).kstack) : Wakes T (T.mapThread f) :=
  ⟨hs, hc, hk, fun p => ⟨(T.proc p).killed, rfl⟩, rfl, rfl, rfl, rfl, rfl⟩

theorem wakeup1 (T : Table) (chan : Chan) : Wakes T (T.wakeup1 chan) := by
  refine mapThread (fun t => ?_) (fun t => ?_) fun t => ?_ <;> split_ifs with hc
  · simp only [Bool.and_eq_true, beq_iff_eq] at hc
    exact .inr ⟨hc.2.1, rfl⟩
  all_goals simp

theorem wake_state (th : Thread) :
    th.wake.state = th.state ∨ (th.state = .SLEEPING ∧ th.wake.state = .RUNNABLE) := by
  unfold Thread.wake
  split_ifs with h
  · exact .inr ⟨h, rfl⟩
  · exact .inl rfl

theorem wake_frame (th : Thread) : th.wake.context = th.context ∧ th.wake.kstack = th.kstack := by
  unfold Thread.wake
  split_ifs <;> exact ⟨rfl, rfl⟩

theorem killThreads (T : Table) (p : ProcId) : Wakes T (T.killThreads p) := by
  refine mapThread (fun t => ?_) (fun t => ?_) fun t => ?_ <;> split_ifs
  · exact wake_state _
  · exact .inl rfl
  · exact (wake_frame _).1
  · rfl
  · exact (wake_frame _).2
  · rfl

theorem execWake (T : Table) (me : Slot) : Wakes T (T.execWake me) := by
  refine mapThread (fun t => ?_) (fun t => ?_) fun t => ?_ <;> split_ifs
  · exact wake_state _
  · exact .inl rfl
  · exact (wake_frame _).1
  · rfl
  · exact (wake_frame _).2
  · rfl

theorem setThread {t : Slot} {f : Thread → Thread}
    (hs : (f (T.thread t)).state = (T.thread t).state)
    (hc : (f (T.thread t)).context = (T.thread t).context)
    (hk : (f (T.thread t)).kstack = (T.thread t).kstack) : Wakes T (T.setThread t f) := by
  have key : ∀ u, (update T.thread t (f (T.thread t)) u).state = (T.thread u).state ∧
      (update T.thread t (f (T.thread t)) u).context = (T.thread u).context ∧
      (update T.thread t (f (T.thread t)) u).kstack = (T.thread u).kstack :=
    (forall_update_iff T.thread fun u th => th.state = (T.thread u).state ∧
      th.context = (T.thread u).context ∧ th.kstack = (T.thread u).kstack).2
      ⟨⟨hs, hc, hk⟩, fun _ _ => ⟨rfl, rfl, rfl⟩⟩
  exact ⟨fun u => .inl (key u).1, fun u => (key u).2.1, fun u => (key u).2.2,
    fun p => ⟨(T.proc p).killed, rfl⟩, rfl, rfl, rfl, rfl, rfl⟩

theorem setKilled (T : Table) (p : ProcId) (b : Bool) :
    Wakes T (T.setProc p fun q => { q with killed := b }) := by
  refine ⟨fun _ => .inl rfl, fun _ => rfl, fun _ => rfl, fun q => ?_, rfl, rfl, rfl, rfl, rfl⟩
  by_cases hq : q = p
  · subst hq
    exact ⟨b, by simp⟩
  · exact ⟨(T.proc q).killed, by simp [hq]⟩

theorem kill (T : Table) (pid : ℤ) : Wakes T (T.kill pid).1 := by
  unfold Table.kill
  split
  · exact refl T
  · exact (setKilled T _ true).trans (killThreads _ _)

theorem exit (T : Table) (me : Slot) : Wakes T (T.exit me).1 := by
  unfold Table.exit
  split_ifs
  · exact refl T
  · exact killThreads T me.1

theorem exitThread (T : Table) (me : Slot) : Wakes T (T.exitThread me).1 := by
  simp only [Table.exitThread]
  split_ifs
  · exact refl T
  · exact wakeup1 T _
  · exact refl T
  · exact (wakeup1 T _).trans (wakeup1 _ _)
  · exact wakeup1 T _

theorem sleep (T : Table) (me : Slot) (chan : Chan) (fs : List Frame) :
    Wakes T (T.sleep me chan fs).1 :=
  setThread (t := me) (f := fun th => { th with chan := chan }) rfl rfl rfl

end Wakes

/-! ## Creating threads and processes -/

/-- What a section does to the table besides the state of its own thread. -/
structure Keeps (T T' : Table) (me : Slot) : Prop where
  trans : ∀ t, Trans (T.thread t) (T'.thread t)
  ok : TableOk T'
  born : ∀ t, (T.thread t).state.alive = false → (T'.thread t).state.alive →
    t.1 = me.1 ∨ (T.proc t.1).state = .UNUSED
  init : T'.initproc = T.initproc

theorem Wakes.keeps {T T' : Table} (h : Wakes T T') (hT : TableOk T) (me : Slot) : Keeps T T' me :=
  ⟨h.toTrans, h.tableOk hT, fun t h₁ h₂ => by
    rw [h.alive, h₁] at h₂
    exact absurd h₂ (by decide), h.initproc⟩

namespace Table

/-- The thread `allocthread` makes of a slot. -/
def newThread (T : Table) (p : ProcId) (first ok : Bool) (th : Thread) : Thread :=
  if ok then
    { th with
      kstack := some T.fresh, state := if first then .EMBRYO else .RUNNABLE, killed := false
      tid := (T.proc p).tNum + 1, context := [.forkret] }
  else { th with kstack := none, state := .UNUSED_T, killed := false, tid := (T.proc p).tNum + 1 }

variable {T : Table} {p : ProcId} {first ok : Bool}

theorem allocthread_thread (hn : (T.proc p).tNum < NTHREADS) :
    (T.allocthread p first ok).thread = update T.thread (p, ⟨(T.proc p).tNum, hn⟩)
      (T.newThread p first ok (T.thread (p, ⟨(T.proc p).tNum, hn⟩))) := by
  cases ok <;> simp [allocthread, hn, newThread]

theorem allocthread_initproc (hn : (T.proc p).tNum < NTHREADS) :
    (T.allocthread p first ok).initproc = T.initproc := by
  cases ok <;> simp [allocthread, hn]

theorem allocthread_rest (first ok : Bool) (hn : (T.proc p).tNum < NTHREADS) :
    (T.allocthread p first ok).nextpid = T.nextpid ∧
      (T.allocthread p first ok).fresh = (if ok then T.fresh + 1 else T.fresh) ∧
      (T.allocthread p first ok).freed = T.freed ∧
      (T.allocthread p first ok).reaped = T.reaped := by
  cases ok <;> simp [allocthread, hn]

theorem allocthread_proc (hn : (T.proc p).tNum < NTHREADS) : (T.allocthread p first ok).proc =
      update T.proc p { T.proc p with tNum := (T.proc p).tNum + 1 } := by
  cases ok <;> simp [allocthread, hn]

theorem kthreadCreate_fst (T : Table) (me : Slot) (ok : Bool) :
    (T.kthreadCreate me ok).1 = T.allocthread me.1 false ok := by
  unfold kthreadCreate
  cases ok <;> rfl

end Table

/-- One process changes, with its threads. -/
theorem TableOk.setProc {T T' : Table} (hT : TableOk T) (p : ProcId)
    (hproc : ∀ q, q ≠ p → T'.proc q = T.proc q) (hthread : ∀ t, t.1 ≠ p → T'.thread t = T.thread t)
    (htn : (T'.proc p).tNum ≤ NTHREADS)
    (hslot : ∀ t, t.1 = p → (T'.thread t).state = .UNUSED_T ∨ T'.below t ∧
    (T'.proc p).state = .USED ∧
    ((T'.thread t).state = .EMBRYO → (T'.thread t).context = [.forkret] ∧ (T'.proc p).tNum = 1)) :
    TableOk T' := by
  refine ⟨fun q => ?_, fun t hb => ?_, fun t hu => ?_, fun t ha => ?_, fun t he => ?_⟩
  · by_cases hq : q = p
    · rwa [hq]
    · rw [hproc q hq]
      exact hT.tNum q
  · by_cases hq : t.1 = p
    · exact (hslot t hq).resolve_right fun h => by simp [hb] at h
    · rw [below, hproc _ hq] at hb
      rw [hthread t hq]
      exact hT.above t hb
  · by_cases hq : t.1 = p
    · exact (hslot t hq).resolve_right fun h => by simp [← hq, hu] at h
    · rw [hproc _ hq] at hu
      rw [hthread t hq]
      exact hT.unused t hu
  · by_cases hq : t.1 = p
    · rw [hq]
      exact ((hslot t hq).resolve_left fun h => by simp [h, ThreadState.alive] at ha).2.1
    · rw [hthread t hq] at ha
      rw [hproc _ hq]
      exact hT.alive t ha
  · by_cases hq : t.1 = p
    · rw [hq]
      exact ((hslot t hq).resolve_left fun h => by simp [h] at he).2.2 he
    · rw [hthread t hq] at he ⊢
      rw [hproc _ hq]
      exact hT.embryo t he

section

variable {T : Table}

theorem TableOk.below (hT : TableOk T) {t : Slot} (ht : (T.thread t).state ≠ .UNUSED_T) :
    T.below t := by
  by_contra hb
  exact ht (hT.above t (by simpa using hb))

/-- `allocthread` on a process in use with a slot left and no thread in EMBRYO. -/
theorem TableOk.allocthread (hT : TableOk T) {p : ProcId} {first ok : Bool}
    (hp : (T.proc p).state = .USED) (hn : (T.proc p).tNum < NTHREADS)
    (hfirst : first → (T.proc p).tNum = 0)
    (hemb : ∀ t, t.1 = p → (T.thread t).state ≠ .EMBRYO) : TableOk (T.allocthread p first ok) := by
  have hproc : (T.allocthread p first ok).proc p = { T.proc p with tNum :=
    (T.proc p).tNum + 1 } := by
    rw [Table.allocthread_proc hn, update_self]
  have hother : ∀ t, t ≠ (p, ⟨(T.proc p).tNum, hn⟩) →
    (T.allocthread p first ok).thread t = T.thread t := fun t ht => by
    rw [Table.allocthread_thread hn, update_of_ne ht]
  refine hT.setProc p (fun q hq => by rw [Table.allocthread_proc hn, update_of_ne hq])
    (fun t ht => hother t fun h => ht (congrArg fst h)) (by rw [hproc]; exact hn) fun t ht => ?_
  by_cases hnew : t = (p, ⟨(T.proc p).tNum, hn⟩)
  · subst hnew
    rw [Table.allocthread_thread hn, update_self]
    cases ok with
    | false => exact .inl rfl
    | true =>
      refine .inr ⟨by simp [Table.below, hproc], by rw [hproc, hp], fun he => ⟨rfl, ?_⟩⟩
      have hf : first := by
        by_contra hf
        simp [Table.newThread, hf] at he
      rw [hproc, hfirst hf]
  · rw [hother t hnew]
    by_cases hu : (T.thread t).state = .UNUSED_T
    · exact .inl hu
    · refine .inr ⟨?_, by rw [hproc, hp], fun he => absurd he (hemb t ht)⟩
      have hb := hT.below hu
      simp only [Table.below, decide_eq_true_eq, ht, hproc] at hb ⊢
      omega

theorem Table.allocthread_trans {p : ProcId} {first ok : Bool} (hn : (T.proc p).tNum < NTHREADS)
    (h₀ : (T.thread (p, ⟨(T.proc p).tNum, hn⟩)).state = .UNUSED_T) (t : Slot) :
    Trans (T.thread t) ((T.allocthread p first ok).thread t) ∧
      (t.1 ≠ p → (T.allocthread p first ok).thread t = T.thread t) := by
  rw [allocthread_thread hn]
  by_cases ht : t = (p, ⟨(T.proc p).tNum, hn⟩)
  · subst ht
    rw [update_self]
    refine ⟨.make (.inl h₀) ?_ ?_, fun h => absurd rfl h⟩
    · cases ok <;> cases first <;> simp [newThread]
    · cases ok <;> simp [newThread]
  · rw [update_of_ne ht]
    exact ⟨.same rfl rfl, fun _ => rfl⟩

theorem Keeps.kthreadCreate (hT : TableOk T) {me : Slot} (ok : Bool)
    (hme : (T.thread me).state = .RUNNING) (hn : (T.proc me.1).tNum < NTHREADS) :
    Keeps T (T.kthreadCreate me ok).1 me ∧
      ∀ t, (T.thread t).state = .EMBRYO → ((T.kthreadCreate me ok).1.thread t).state = .EMBRYO := by
  have h₀ : (T.thread (me.1, ⟨(T.proc me.1).tNum, hn⟩)).state = .UNUSED_T :=
    hT.above _ (by simp [below])
  -- a process whose only slot is EMBRYO has no running thread
  have hemb : ∀ t, t.1 = me.1 → (T.thread t).state ≠ .EMBRYO := fun t ht he => by
    have h1 := (hT.embryo t he).2
    have hb : ∀ u : Slot, u.1 = t.1 → (T.thread u).state ≠ .UNUSED_T → u.2.val = 0 :=
      fun u hu hs => by
      by_contra h0
      refine hs (hT.above u ?_)
      simp only [below, hu, h1, decide_eq_false_iff_not]
      omega
    have : t = me := Prod.ext ht (Fin.ext ((hb t rfl (by simp [he])).trans
      (hb me ht.symm (by simp [hme])).symm))
    rw [this, hme] at he
    exact absurd he (by decide)
  rw [kthreadCreate_fst]
  refine ⟨⟨fun t => (allocthread_trans hn h₀ t).1,
    hT.allocthread (hT.alive me (by rw [hme]; rfl)) hn (by simp) hemb, fun t h₁ h₂ => ?_,
    allocthread_initproc hn⟩, fun t he => ?_⟩
  · by_contra hne
    rw [(allocthread_trans hn h₀ t).2 fun h => hne (.inl h), h₁] at h₂
    exact absurd h₂ (by decide)
  · rwa [(allocthread_trans hn h₀ t).2 fun h => hemb t h he]

theorem Table.findUnused_spec {p : ProcId} (h : T.findUnused = some p) :
    (T.proc p).state = .UNUSED := by
  simpa using List.find?_some h

theorem Table.allocproc_none (h : T.findUnused = none) (ok : Bool) : (T.allocproc ok).1 = T := by
  simp [allocproc, h]

theorem Table.allocproc_some {p : ProcId} (h : T.findUnused = some p) (ok : Bool) :
    (T.allocproc ok).1.proc = update T.proc p
        { T.proc p with tNum := 1, pid := T.nextpid, state := .USED } ∧
      (T.allocproc ok).1.thread = update T.thread (slot0 p)
        { T.thread (slot0 p) with
          kstack := if ok then some T.fresh else none
          state := if ok then .EMBRYO else .UNUSED_T
          killed := false
          tid := 1
          context := if ok then [.forkret] else (T.thread (slot0 p)).context } ∧
      (T.allocproc ok).1.reaped = T.reaped := by
  have h0 : 0 < NTHREADS := by decide
  cases ok <;> simp [allocproc, h, allocthread, slot0, h0]

theorem Keeps.allocproc (hT : TableOk T) (me : Slot) (ok : Bool) : Keeps T (T.allocproc ok).1 me ∧
      (∀ t, (T.thread t).state = .EMBRYO → ((T.allocproc ok).1.thread t).state = .EMBRYO) ∧
      ∀ p, T.findUnused = some p → ok →
        ((T.allocproc ok).1.thread (Table.slot0 p)).state = .EMBRYO := by
  unfold Table.allocproc
  split
  · rename_i hf
    exact ⟨(Wakes.refl T).keeps hT me, fun _ => id, fun p hp => by simp [hf] at hp⟩
  · rename_i p hf
    have hp := findUnused_spec hf
    set T₁ : Table := { T.setProc p fun q => { q with tNum := 0, pid := T.nextpid, state :=
      .USED } with nextpid := T.nextpid + 1 } with hT₁
    have hthread : T₁.thread = T.thread := rfl
    have hproc : ∀ q, q ≠ p → T₁.proc q = T.proc q := fun q hq => by simp [hT₁, hq]
    have hprocp : (T₁.proc p).state = .USED ∧ (T₁.proc p).tNum = 0 := by simp [hT₁]
    have hdead : ∀ t : Slot, t.1 = p → (T.thread t).state = .UNUSED_T := fun t ht =>
      hT.unused t (by rw [ht, hp])
    have hok : TableOk T₁ := hT.setProc p hproc (fun _ _ => rfl) (by simp [hprocp.2]) fun t ht =>
      .inl (hdead t ht)
    have hn : (T₁.proc p).tNum < NTHREADS := by
      rw [hprocp.2]
      decide
    have h₀ : (T₁.thread (p, ⟨(T₁.proc p).tNum, hn⟩)).state = .UNUSED_T := hdead _ rfl
    have hemb : ∀ t, t.1 = p → (T₁.thread t).state ≠ .EMBRYO := fun t ht => by
      rw [hthread, hdead t ht]
      decide
    refine ⟨⟨fun t => (allocthread_trans hn h₀ t).1,
      hok.allocthread hprocp.1 hn (fun _ => hprocp.2) hemb, fun t h₁ h₂ => ?_,
      Table.allocthread_initproc hn⟩, fun t he => ?_, ?_⟩
    · by_cases hq : t.1 = p
      · exact .inr (by rw [hq, hp])
      · rw [(allocthread_trans hn h₀ t).2 hq, hthread, h₁] at h₂
        exact absurd h₂ (by decide)
    · have hq : t.1 ≠ p := fun h => hemb t h he
      rwa [(allocthread_trans hn h₀ t).2 hq]
    · rintro q hq rfl
      obtain rfl : p = q := Option.some.inj (hf.symm.trans hq)
      have hs : Table.slot0 p = (p, ⟨(T₁.proc p).tNum, hn⟩) := by
        simp [Table.slot0, hprocp.2]
      show ((T₁.allocthread p true true).thread (Table.slot0 p)).state = .EMBRYO
      rw [hs, Table.allocthread_thread hn, update_self]
      simp [Table.newThread]

theorem Keeps.fork (hT : TableOk T) (me : Slot) {np : ProcId} (ok : Bool)
    (he : (T.thread (slot0 np)).state = .EMBRYO) : Keeps T (T.fork me np ok).1 me ∧
      ∀ t, t ≠ slot0 np → ((T.fork me np ok).1.thread t) = T.thread t := by
  have hctx := (hT.embryo _ he).1
  have htn : (T.proc np).tNum = 1 := (hT.embryo _ he).2
  have hused : (T.proc np).state = .USED := hT.alive _ (by rw [he]; rfl)
  -- the slots of the new process other than slot 0
  have hrest : ∀ t : Slot, t.1 = np → t ≠ slot0 np → (T.thread t).state = .UNUSED_T :=
    fun t ht hne => hT.above t <| by
      have h0 : t.2.val ≠ 0 := fun h0 => hne (Prod.ext ht (Fin.ext h0))
      have htn : (T.proc t.1).tNum = 1 := by rwa [ht]
      simp only [below, htn, decide_eq_false_iff_not]
      omega
  have hthread : ∀ t, t ≠ slot0 np → (T.fork me np ok).1.thread t = T.thread t := fun t ht => by
    cases ok <;> simp [ht]
  have hproc : ∀ q, q ≠ np → (T.fork me np ok).1.proc q = T.proc q := fun q hq => by
    cases ok <;> simp [hq]
  have htn' : ((T.fork me np ok).1.proc np).tNum = 1 := by
    cases ok <;> simpa using htn
  have hstate : ((T.fork me np ok).1.proc np).state = if ok then .USED else .UNUSED := by
    cases ok <;> simp [hused]
  have hnew : ((T.fork me np ok).1.thread (slot0 np)).state = if ok then .RUNNABLE else
    .UNUSED_T := by
    cases ok <;> simp
  have hnewctx : ((T.fork me np ok).1.thread (slot0 np)).context = [.forkret] := by
    cases ok <;> simpa using hctx
  refine ⟨⟨fun t => ?_,
    hT.setProc np hproc (fun t ht => hthread t fun h => ht (congrArg Prod.fst h))
    (by rw [htn']; decide) fun t ht => ?_, fun t h₁ h₂ => ?_, by cases ok <;> rfl⟩, hthread⟩
  · by_cases ht : t = slot0 np
    · subst ht
      refine .make (.inr he) ?_ fun _ => hnewctx
      rw [hnew]
      cases ok <;> simp
    · rw [hthread t ht]
      exact .same rfl rfl
  · by_cases hs : t = slot0 np
    · subst hs
      rw [hnew, hstate]
      cases ok with
      | true => exact .inr ⟨by rw [below, ht, htn']; rfl, rfl, fun h => by cases h⟩
      | false => exact .inl rfl
    · rw [hthread t hs]
      exact .inl (hrest t ht hs)
  · by_cases ht : t = slot0 np
    · subst ht
      rw [he] at h₁
      exact absurd h₁ (by decide)
    · rw [hthread t ht, h₁] at h₂
      exact absurd h₂ (by decide)

end

/-! ## Reaping -/

theorem Table.zombieChild_spec {T : Table} {p q : ProcId} (h : T.zombieChild p = some q) :
    (T.proc q).parent = .proc p ∧ (T.proc q).state = .ZOMBIE := by
  simpa using List.find?_some h

theorem TableOk.dead {T : Table} (hT : TableOk T) {t : Slot} (h : (T.proc t.1).state ≠ .USED) :
    (T.thread t).state.alive = false := by
  by_contra ha
  exact h (hT.alive t (by simpa using ha))

theorem ThreadState.dead_cases {x : ThreadState} (h : x.alive = false) : x = .UNUSED_T ∨
    x = .ZOMBIE_T := by
  cases x <;> simp [ThreadState.alive] at h ⊢

theorem Table.reap_thread (T : Table) (p q : ProcId) (n : ℕ) (t : Slot) : (T.reap p q n).thread t =
      if t.1 = q ∧ T.below t ∧ (T.thread t).state = .ZOMBIE_T then
        { T.thread t with kstack := none, tid := 0, killed := false, state := .UNUSED_T }
      else T.thread t := rfl

theorem Keeps.reap {T : Table} (hT : TableOk T) (me : Slot) {q : ProcId} (n : ℕ)
    (hq : (T.proc q).state = .ZOMBIE) : Keeps T (T.reap me.1 q n) me ∧
      ∀ t, (T.thread t).state = .EMBRYO → ((T.reap me.1 q n).thread t).state = .EMBRYO := by
  have hdead : ∀ t : Slot, t.1 = q → (T.thread t).state.alive = false := fun t ht =>
    hT.dead (by rw [ht, hq]; decide)
  have hthread : ∀ t, t.1 ≠ q → (T.reap me.1 q n).thread t = T.thread t := fun t ht => by
    rw [reap_thread, if_neg fun h => ht h.1]
  have hgone : ∀ t, t.1 = q → ((T.reap me.1 q n).thread t).state = .UNUSED_T := fun t ht => by
    rw [reap_thread]
    by_cases h : t.1 = q ∧ T.below t ∧ (T.thread t).state = .ZOMBIE_T
    · rw [if_pos h]
    · rw [if_neg h]
      rcases ThreadState.dead_cases (hdead t ht) with hs | hs
      · exact hs
      · refine hT.above t ?_
        by_contra hb
        exact h ⟨ht, by simpa using hb, hs⟩
  have hproc : ∀ r, r ≠ q → (T.reap me.1 q n).proc r = T.proc r := fun r hr => by
    simp [Table.reap, Table.mapThread, hr]
  have hprocq : ((T.reap me.1 q n).proc q).tNum = (T.proc q).tNum := by
    simp [Table.reap, Table.mapThread]
  refine ⟨⟨fun t => ?_, hT.setProc q hproc hthread (hprocq ▸ hT.tNum q) fun t ht =>
    .inl (hgone t ht), fun t h₁ h₂ => ?_, rfl⟩, fun t he => ?_⟩
  · by_cases ht : t.1 = q
    · rcases ThreadState.dead_cases (hdead t ht) with hs | hs
      · exact .make (.inl hs) (.inl (hgone t ht)) fun h => absurd (hgone t ht) h
      · exact .reap hs (hgone t ht)
    · rw [hthread t ht]
      exact .same rfl rfl
  · have ht : t.1 ≠ q := fun ht => by
      rw [hgone t ht] at h₂
      exact absurd h₂ (by decide)
    rw [hthread t ht, h₁] at h₂
    exact absurd h₂ (by decide)
  · have ht : t.1 ≠ q := fun ht => by
      have := hdead t ht
      rw [he] at this
      exact absurd this (by decide)
    rwa [hthread t ht]

/-! ## Exiting -/

theorem TableOk.running_one {T : Table} (hT : TableOk T) {me : Slot}
    (hme : (T.thread me).state = .RUNNING) (h1 : (T.running me.1).length = 1) (t : Slot)
    (ht : t.1 = me.1) (hne : t ≠ me) : (T.thread t).state.alive = false := by
  have hmem : ∀ u : Slot, u.1 = me.1 → (T.thread u).state.alive → u.2 ∈ T.running me.1 := by
    rintro ⟨p, i⟩ hp ha
    obtain rfl : p = me.1 := hp
    refine List.mem_filter.2 ⟨List.mem_finRange i, ?_⟩
    have hb : T.below (me.1, i) := hT.below fun hu => by simp [hu, ThreadState.alive] at ha
    simp [hb, ha]
  obtain ⟨j, hj⟩ := List.length_eq_one_iff.1 h1
  by_contra ha
  have h₁ := hmem t ht (by simpa using ha)
  have h₂ := hmem me rfl (by rw [hme]; rfl)
  rw [hj, List.mem_singleton] at h₁ h₂
  exact hne (Prod.ext ht (h₁.trans h₂.symm))

theorem Wakes.exitWakes (T : Table) (p : ProcId) : Wakes T (T.exitWakes p) := by
  simp only [Table.exitWakes]
  split_ifs
  · exact (Wakes.wakeup1 _ _).trans (Wakes.wakeup1 _ _)
  · exact Wakes.wakeup1 _ _

theorem Table.exitWakes_proc (T : Table) (p : ProcId) : (T.exitWakes p).proc = T.proc := by
  simp only [exitWakes]
  split_ifs <;> rfl

theorem Table.exitProcess_proc (T : Table) (me : Slot) (p : ProcId) :
    (T.exitProcess me).1.proc p =
      { T.proc p with
        killed := if p = me.1 then true else (T.proc p).killed
        state := if p = me.1 then .ZOMBIE else (T.proc p).state
        parent := if (T.proc p).parent = .proc me.1 then .proc T.initproc else (T.proc p).parent } := by
  have hi : (T.exitWakes me.1).initproc = T.initproc := (Wakes.exitWakes T me.1).initproc
  have hr : ∀ q, ((T.exitWakes me.1).reparent me.1).proc q =
      { T.proc q with
        parent := if (T.proc q).parent = .proc me.1 then .proc T.initproc else (T.proc q).parent } := by
    intro q
    simp only [reparent, exitWakes_proc, hi]
    by_cases hq : (T.proc q).parent = .proc me.1
    · rw [if_pos hq, if_pos hq]
    · rw [if_neg hq, if_neg hq]
  by_cases hp : p = me.1
  · subst hp
    simp [exitProcess, hr]
  · simp [exitProcess, hr, hp]

theorem TableOk.exitProcess {T : Table} (hT : TableOk T) {me : Slot}
    (hdead : ∀ t, t.1 = me.1 → t ≠ me → (T.thread t).state.alive = false) {T' : Table}
    (hproc : T'.proc = (T.exitProcess me).1.proc)
    (hother : ∀ t, t ≠ me → T'.thread t = (T.exitProcess me).1.thread t)
    (hself : (T'.thread me).state = .ZOMBIE_T) (hme : (T.thread me).state = .RUNNING) : TableOk T' := by
  have hw := Wakes.exitWakes T me.1
  have hthread : ∀ t, t ≠ me → T'.thread t = (T.exitWakes me.1).thread t := hother
  have htn : ∀ p, (T'.proc p).tNum = (T.proc p).tNum := fun p => by rw [hproc, exitProcess_proc]
  have hst : ∀ p, (T'.proc p).state = if p = me.1 then .ZOMBIE else (T.proc p).state := fun p => by
    rw [hproc, exitProcess_proc]
  have hbelow : ∀ t, T'.below t = T.below t := fun t => by rw [Table.below, Table.below, htn]
  refine ⟨fun p => ?_, fun t hb => ?_, fun t hu => ?_, fun t ha => ?_, fun t he => ?_⟩
  · rw [htn]
    exact hT.tNum p
  · rw [hbelow] at hb
    have ht : t ≠ me := by
      rintro rfl
      rw [hT.above t hb] at hme
      exact absurd hme (by decide)
    rw [hthread t ht, hw.unused_iff]
    exact hT.above t hb
  · rw [hst] at hu
    split_ifs at hu with hp
    have ht : t ≠ me := fun h => hp (congrArg fst h)
    rw [hthread t ht, hw.unused_iff]
    exact hT.unused t hu
  · have ht : t ≠ me := by
      rintro rfl
      rw [hself] at ha
      exact absurd ha (by decide)
    rw [hthread t ht, hw.alive] at ha
    have hp : t.1 ≠ me.1 := fun hp => by
      rw [hdead t hp ht] at ha
      exact absurd ha (by decide)
    rw [hst, if_neg hp]
    exact hT.alive t ha
  · have ht : t ≠ me := by
      rintro rfl
      rw [hself] at he
      exact absurd he (by decide)
    rw [hthread t ht, hw.embryo_iff] at he
    rw [hthread t ht, hw.context, htn]
    exact hT.embryo t he

end Xv6.Ptable
