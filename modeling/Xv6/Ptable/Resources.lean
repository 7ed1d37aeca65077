import Xv6.Ptable.TableStep
import Xv6.Lib.Ledger

/-!
# Pages, pids and parents

Every kernel stack and every page directory is a page of its own that is not free; pids are never
used twice; and the parent of a process is always a process in use.
-/

namespace Xv6.Ptable

open Function List Table Prod

attribute [local simp] Table.setProc Table.free Table.setThread Table.newThread Kernel.execDone

/-- The process has had a thread that could run, so it has a page directory of its own. -/
def Table.born (T : Table) (p : ProcId) : Prop :=
  ∃ i, (T.thread (p, i)).state ≠ .UNUSED_T ∧ (T.thread (p, i)).state ≠ .EMBRYO

/-- The pages of the kernel stacks and of the page directories. -/
def Table.ownsPage (T : Table) : Slot ⊕ ProcId → ℕ → Prop
  | .inl t, n => (T.thread t).kstack = some n
  | .inr p, n => T.born p ∧ (T.proc p).pgdir = .page n

def Table.ownsPid (T : Table) (p : ProcId) (pid : ℤ) : Prop :=
  (T.proc p).state ≠ .UNUSED ∧ (T.proc p).pid = pid

/-- What holds of the pages, pids and parents in the table. -/
structure Owned (T : Table) : Prop where
  pages : Ledger T.ownsPage T.fresh T.freed
  pids : Ledger T.ownsPid T.nextpid (T.reaped.map Reaped.pid)
  kstack : ∀ t, (T.thread t).kstack = none ↔ (T.thread t).state = .UNUSED_T
  pgdir : ∀ p, T.born p → ∃ n, (T.proc p).pgdir = .page n
  zombie : ∀ p, (T.proc p).state = .ZOMBIE → T.born p
  parent : ∀ p q, (T.proc p).parent = .proc q → (T.proc q).state = .USED ∧ T.born q
  init : (T.proc T.initproc).state = .USED ∧ T.born T.initproc

variable {T T' : Table} {me : Slot}

theorem Table.born_of_state {t : Slot} (h₁ : (T.thread t).state ≠ .UNUSED_T)
    (h₂ : (T.thread t).state ≠ .EMBRYO) : T.born t.1 :=
  ⟨t.2, h₁, h₂⟩

theorem Table.born_iff {p : ProcId}
    (h : ∀ t, t.1 = p → ((T'.thread t).state = .UNUSED_T ↔ (T.thread t).state = .UNUSED_T) ∧
      ((T'.thread t).state = .EMBRYO ↔ (T.thread t).state = .EMBRYO)) : T'.born p ↔ T.born p := by
  refine exists_congr fun i => ?_
  rw [Ne, Ne, Ne, Ne, (h (p, i) rfl).1, (h (p, i) rfl).2]

/-! ## Calm steps and exits -/

theorem Calm.born_iff (h : Calm T T') (p : ProcId) : T'.born p ↔ T.born p :=
  Table.born_iff fun t _ => ⟨h.unused t, h.embryo t⟩

theorem Owned.of_same (h : Owned T) (hk : ∀ t, (T'.thread t).kstack = (T.thread t).kstack)
    (hu : ∀ t, (T'.thread t).state = .UNUSED_T ↔ (T.thread t).state = .UNUSED_T)
    (hb : ∀ p, T'.born p ↔ T.born p)
    (hp : ∀ p, (T'.proc p).pgdir = (T.proc p).pgdir ∧ (T'.proc p).pid = (T.proc p).pid ∧
      ((T'.proc p).state = .UNUSED ↔ (T.proc p).state = .UNUSED))
    (hn : T'.nextpid = T.nextpid) (hf : T'.fresh = T.fresh) (hfr : T'.freed = T.freed)
    (hr : T'.reaped = T.reaped) (hz : ∀ p, (T'.proc p).state = .ZOMBIE → T'.born p)
    (hpar : ∀ p q, (T'.proc p).parent = .proc q → (T'.proc q).state = .USED ∧ T.born q)
    (hi : (T'.proc T'.initproc).state = .USED ∧ T.born T'.initproc) : Owned T' where
  pages := by
    rw [hf, hfr]
    refine h.pages.mono ?_
    rintro (t | p) n hn
    · exact (hk t).symm.trans hn
    · exact ⟨(hb p).1 hn.1, (hp p).1 ▸ hn.2⟩
  pids := by
    rw [hn, hr]
    exact h.pids.mono fun p a ha => ⟨fun hu => ha.1 ((hp p).2.2.2 hu), (hp p).2.1 ▸ ha.2⟩
  kstack t := by rw [hk, hu, h.kstack]
  pgdir p hbp := by
    rw [(hp p).1]
    exact h.pgdir p ((hb p).1 hbp)
  zombie := hz
  parent p q hpq := (hpar p q hpq).imp_right (hb q).2
  init := hi.imp_right (hb _).2

theorem Owned.calm (h : Owned T) (hc : Calm T T') : Owned T' := by
  have hstate : ∀ p, (T'.proc p).state = (T.proc p).state := fun p => by
    obtain ⟨b, hb⟩ := hc.proc p
    rw [hb]
  refine h.of_same hc.kstack hc.unused hc.born_iff (fun p => ?_) hc.nextpid hc.fresh hc.freed
    hc.reaped
    (fun p hz => (hc.born_iff p).2 (h.zombie p (hstate p ▸ hz))) (fun p q hpq => ?_) ?_
  · obtain ⟨b, hb⟩ := hc.proc p
    rw [hb]
    exact ⟨rfl, rfl, .rfl⟩
  · obtain ⟨b, hb⟩ := hc.proc p
    rw [hb] at hpq
    rw [hstate]
    exact h.parent p q hpq
  · rw [hstate, hc.initproc]
    exact h.init

theorem Owned.exitProcess (h : Owned T) (hinit : me.1 ≠ T.initproc)
    (hme : (T.thread me).state = .RUNNING) (hused : (T.proc me.1).state = .USED) (st : List Frame) :
    Owned (schedTable (T.exitProcess me).1 me .ZOMBIE_T st) := by
  have hcalm : Calm T (schedTable (T.exitWakes me.1) me .ZOMBIE_T st) :=
    (Wakes.exitWakes T me.1).calm.setThread (.inl hme) rfl (by simp)
  set T' := schedTable (T.exitProcess me).1 me .ZOMBIE_T st
  -- the threads do not depend on the changes of the processes
  have hthread : T'.thread = (schedTable (T.exitWakes me.1) me .ZOMBIE_T st).thread := rfl
  have hproc : ∀ p, T'.proc p = _ := fun p => exitProcess_proc T me p
  have hi : T'.initproc = T.initproc := hcalm.initproc
  have hborn : ∀ p, T'.born p ↔ T.born p := fun p =>
    born_iff fun t _ => by rw [hthread]; exact ⟨hcalm.unused t, hcalm.embryo t⟩
  refine h.of_same (fun t => by rw [hthread]; exact hcalm.kstack t)
    (fun t => by rw [hthread]; exact hcalm.unused t) hborn (fun p => ?_) hcalm.nextpid hcalm.fresh
    hcalm.freed
    hcalm.reaped (fun p hz => ?_) (fun p q hpq => ?_) ?_
  · rw [hproc]
    refine ⟨rfl, rfl, ?_⟩
    by_cases hp : p = me.1
    · subst hp
      simp [hused]
    · simp [hp]
  · rw [hborn]
    by_cases hp : p = me.1
    · subst hp
      exact born_of_state (by simp [hme]) (by simp [hme])
    · rw [hproc] at hz
      simp only [if_neg hp] at hz
      exact h.zombie p hz
  · rw [hproc] at hpq ⊢
    by_cases hp : (T.proc p).parent = .proc me.1
    · simp only [if_pos hp, ProcPtr.proc.injEq] at hpq
      subst hpq
      simp only [if_neg hinit.symm]
      exact h.init
    · simp only [if_neg hp] at hpq
      have hq : q ≠ me.1 := by
        rintro rfl
        exact hp hpq
      simp only [if_neg hq]
      exact h.parent p q hpq
  · rw [hi, hproc]
    simp only [if_neg hinit.symm]
    exact h.init

/-! ## Steps on one process -/

/-- Only the process `p` and its threads differ. -/
structure Apart (T T' : Table) (p : ProcId) : Prop where
  thread : ∀ t, t.1 ≠ p → T'.thread t = T.thread t
  proc : ∀ q, q ≠ p → T'.proc q = T.proc q
  initproc : T'.initproc = T.initproc

theorem Apart.born_iff {p q : ProcId} (h : Apart T T' p) (hq : q ≠ p) : T'.born q ↔ T.born q :=
  Table.born_iff fun t ht => by
    rw [h.thread t (ht ▸ hq)]
    exact ⟨.rfl, .rfl⟩

theorem Apart.ownsPage_inr {p q : ProcId} {n : ℕ} (h : Apart T T' p) (hq : q ≠ p)
    (hn : T'.ownsPage (.inr q) n) : T.ownsPage (.inr q) n :=
  ⟨(h.born_iff hq).1 hn.1, h.proc q hq ▸ hn.2⟩

theorem Apart.ownsPid {p q : ProcId} {a : ℤ} (h : Apart T T' p)
    (hp : q = p → T'.ownsPid p a → T.ownsPid p a) (ha : T'.ownsPid q a) : T.ownsPid q a := by
  by_cases hq : q = p
  · subst hq
    exact hp rfl ha
  · simpa only [Table.ownsPid, h.proc q hq] using ha

theorem Owned.apart (h : Owned T) {p : ProcId} (hd : Apart T T' p)
    (hpages : Ledger T'.ownsPage T'.fresh T'.freed)
    (hpids : Ledger T'.ownsPid T'.nextpid (T'.reaped.map Reaped.pid))
    (hk : ∀ t : Slot, t.1 = p → ((T'.thread t).kstack = none ↔ (T'.thread t).state = .UNUSED_T))
    (hpg : T'.born p → ∃ n, (T'.proc p).pgdir = .page n)
    (hz : (T'.proc p).state = .ZOMBIE → T'.born p)
    (hpar : ∀ q, (T'.proc p).parent = .proc q → (T.proc q).state = .USED ∧ T.born q)
    (hp : (T.proc p).state = .USED → T.born p → (T'.proc p).state = .USED ∧ T'.born p) :
    Owned T' := by
  have hkeep : ∀ q, (T.proc q).state = .USED ∧ T.born q → (T'.proc q).state = .USED ∧ T'.born q :=
    fun q hq => by
    by_cases hqp : q = p
    · subst hqp
      exact hp hq.1 hq.2
    · rw [hd.proc q hqp, hd.born_iff hqp]
      exact hq
  refine ⟨hpages, hpids, fun t => ?_, fun q hb => ?_, fun q hs => ?_, fun q r hqr => ?_, ?_⟩
  · by_cases htp : t.1 = p
    · exact hk t htp
    · rw [hd.thread t htp]
      exact h.kstack t
  · by_cases hqp : q = p
    · subst hqp
      exact hpg hb
    · rw [hd.proc q hqp]
      exact h.pgdir q ((hd.born_iff hqp).1 hb)
  · by_cases hqp : q = p
    · subst hqp
      exact hz hs
    · rw [hd.proc q hqp] at hs
      exact (hd.born_iff hqp).2 (h.zombie q hs)
  · by_cases hqp : q = p
    · subst hqp
      exact hkeep r (hpar r hqr)
    · rw [hd.proc q hqp] at hqr
      exact hkeep r (h.parent q r hqr)
  · rw [hd.initproc]
    exact hkeep _ h.init

/-! ## New threads and processes -/

theorem Owned.allocthread (h : Owned T) {p : ProcId} {first ok : Bool}
    (hn : (T.proc p).tNum < NTHREADS) (h₀ : (T.thread (p, ⟨(T.proc p).tNum, hn⟩)).state = .UNUSED_T)
    (hfirst : first ∨ T.born p) : Owned (T.allocthread p first ok) := by
  set t₀ : Slot := (p, ⟨(T.proc p).tNum, hn⟩) with ht₀
  obtain ⟨hnext, hfresh, hfreed, hreaped⟩ := allocthread_rest first ok hn
  have hother : ∀ t, t ≠ t₀ → (T.allocthread p first ok).thread t = T.thread t := fun t ht => by
    rw [allocthread_thread hn, update_of_ne ht]
  have hself : (T.allocthread p first ok).thread t₀ = T.newThread p first ok (T.thread t₀) := by
    rw [allocthread_thread hn, update_self]
  have hd : Apart T (T.allocthread p first ok) p :=
    ⟨fun t ht => hother t fun h => ht (congrArg fst h),
      fun q hq => by rw [allocthread_proc hn, update_of_ne hq], allocthread_initproc hn⟩
  have hproc : (T.allocthread p first ok).proc p = { T.proc p with tNum :=
    (T.proc p).tNum + 1 } := by
    rw [allocthread_proc hn, update_self]
  have hborn : (T.allocthread p first ok).born p ↔ T.born p := by
    constructor
    · rintro ⟨i, h₁, h₂⟩
      by_cases hi : (p, i) = t₀
      · rw [hi, hself] at h₁ h₂
        rcases hfirst with hf | hb
        · subst hf
          cases ok <;> simp at h₁ h₂
        · exact hb
      · rw [hother _ hi] at h₁ h₂
        exact ⟨i, h₁, h₂⟩
    · rintro ⟨i, h₁, h₂⟩
      have hi : (p, i) ≠ t₀ := fun hi => h₁ (hi ▸ h₀)
      exact ⟨i, by rwa [hother _ hi], by rwa [hother _ hi]⟩
  have hsub : ∀ o n, (T.allocthread p first ok).ownsPage o n →
      T.ownsPage o n ∨ (o = .inl t₀ ∧ n = T.fresh ∧ ok) := by
    rintro (t | q) n hn
    · by_cases ht : t = t₀
      · subst ht
        have hks : (T.newThread p first ok (T.thread t₀)).kstack = some n := hself ▸ hn
        cases ok with
        | true => exact .inr ⟨rfl, by simpa [eq_comm] using hks, rfl⟩
        | false => simp at hks
      · exact .inl ((congrArg Thread.kstack (hother t ht)).symm.trans hn)
    · by_cases hq : q = p
      · subst hq
        exact .inl ⟨hborn.1 hn.1, by have := hn.2; rwa [hproc] at this⟩
      · exact .inl (hd.ownsPage_inr hq hn)
  refine h.apart hd ?_ ?_ (fun t _ => ?_) (fun hb => ?_) (fun hz => ?_) (fun q hpq => ?_) fun hs
    hb => ?_
  · rw [hfresh, hfreed]
    cases ok with
    | true => exact h.pages.issue (Nat.lt_succ_self _) (.inl t₀) fun o n hn =>
        (hsub o n hn).imp_right fun hn => ⟨hn.1, hn.2.1⟩
    | false => exact h.pages.mono fun o n hn => (hsub o n hn).resolve_right fun hn => by simp at hn
  · rw [hnext, hreaped]
    exact h.pids.mono fun q a => hd.ownsPid fun _ ha => by simpa only [ownsPid, hproc] using ha
  · by_cases ht : t = t₀
    · rw [ht, hself]
      cases ok <;> cases first <;> simp
    · rw [hother t ht]
      exact h.kstack t
  · rw [hproc]
    exact h.pgdir p (hborn.1 hb)
  · rw [hproc] at hz
    exact hborn.2 (h.zombie p hz)
  · rw [hproc] at hpq
    exact h.parent p q hpq
  · rw [hproc, hborn]
    exact ⟨hs, hb⟩

theorem Owned.kthreadCreate (h : Owned T) (hT : TableOk T) {ok : Bool}
    (hme : (T.thread me).state = .RUNNING) (hn : (T.proc me.1).tNum < NTHREADS) :
    Owned (T.kthreadCreate me ok).1 := by
  rw [kthreadCreate_fst]
  exact h.allocthread hn (hT.above _ (by simp [below]))
    (.inr (born_of_state (by simp [hme]) (by simp [hme])))

theorem Owned.allocproc (h : Owned T) (hT : TableOk T) {ok : Bool} : Owned (T.allocproc ok).1 := by
  unfold Table.allocproc
  split
  · exact h
  · rename_i p hf
    have hp := findUnused_spec hf
    have hdead : ∀ t : Slot, t.1 = p → (T.thread t).state = .UNUSED_T := fun t ht =>
      hT.unused t (by rw [ht, hp])
    set T₁ : Table := { T.setProc p fun q => { q with tNum := 0, pid := T.nextpid, state :=
      .USED } with nextpid := T.nextpid + 1 } with hT₁
    have hprocp : T₁.proc p = { T.proc p with tNum := 0, pid := T.nextpid, state := .USED } := by
      simp [hT₁]
    have hd : Apart T T₁ p := ⟨fun _ _ => rfl, fun q hq => by simp [hT₁, hq], rfl⟩
    have hunborn : ¬ T₁.born p := by
      rintro ⟨i, h₁, -⟩
      exact h₁ (hdead (p, i) rfl)
    have h₁ : Owned T₁ := by
      refine h.apart hd (h.pages.mono ?_) (h.pids.issue (by simp [hT₁]) p fun q a ha => ?_)
        (fun t _ => h.kstack t)
        (fun hb => absurd hb hunborn) (fun hz => by simp [hprocp] at hz) (fun q hpq => ?_) fun hs
        _ => ?_
      · rintro (t | q) n hn
        · exact hn
        · refine hd.ownsPage_inr ?_ hn
          rintro rfl
          exact hunborn hn.1
      · by_cases hq : q = p
        · subst hq
          have := ha.2
          rw [hprocp] at this
          exact .inr ⟨rfl, this.symm⟩
        · exact .inl (hd.ownsPid (absurd · hq) ha)
      · rw [hprocp] at hpq
        exact h.parent p q hpq
      · simp [hp] at hs
    have hn : (T₁.proc p).tNum < NTHREADS := by
      rw [hprocp]
      exact (by decide : 0 < NTHREADS)
    exact h₁.allocthread hn (hdead _ rfl) (.inl rfl)

/-- No thread of the process that `fork` has allocated could run yet. -/
theorem TableOk.not_born (hT : TableOk T) {np : ProcId}
    (he : (T.thread (Table.slot0 np)).state = .EMBRYO) : ¬ T.born np := by
  rintro ⟨i, h₁, h₂⟩
  refine h₁ (hT.above _ ?_)
  have hi : i.val ≠ 0 := fun hi => h₂ ((congrArg (fun t => (T.thread t).state)
    (Prod.ext rfl (Fin.ext hi) : (np, i) = Table.slot0 np)).trans he)
  have h1 : (T.proc np).tNum = 1 := (hT.embryo _ he).2
  simp only [Table.below, h1, decide_eq_false_iff_not]
  omega

theorem Apart.fork (hT : TableOk T) {np : ProcId} {ok : Bool}
    (he : (T.thread (Table.slot0 np)).state = .EMBRYO) : Apart T (T.fork me np ok).1 np := by
  refine ⟨fun t ht => (Keeps.fork hT me ok he).2 t fun h => ht (congrArg fst h), fun q hq => ?_, ?_⟩
  · cases ok <;> simp [Table.fork, hq]
  · cases ok <;> rfl

theorem Owned.fork (h : Owned T) (hT : TableOk T) {np : ProcId} {ok : Bool}
    (hme : (T.thread me).state = .RUNNING) (he : (T.thread (Table.slot0 np)).state = .EMBRYO) :
    Owned (T.fork me np ok).1 := by
  have hused : (T.proc np).state = .USED := hT.alive _ (by rw [he]; rfl)
  have hunborn := hT.not_born he
  have hother : ∀ t, t ≠ Table.slot0 np → (T.fork me np ok).1.thread t = T.thread t :=
    (Keeps.fork hT me ok he).2
  have hd : Apart T (T.fork me np ok).1 np := .fork hT he
  obtain ⟨n₀, hn₀⟩ : ∃ n, (T.thread (Table.slot0 np)).kstack = some n := by
    refine Option.ne_none_iff_exists'.1 fun hk => ?_
    rw [h.kstack, he] at hk
    exact absurd hk (by decide)
  cases ok with
  | true =>
    have hself : (T.fork me np true).1.thread (Table.slot0 np) =
        { T.thread (Table.slot0 np) with state := .RUNNABLE } := by
      simp [Table.fork]
    have hprocn : (T.fork me np true).1.proc np =
        { T.proc np with pgdir := .page T.fresh, parent := .proc me.1 } := by
      simp [Table.fork]
    refine h.apart hd (h.pages.issue (Nat.lt_succ_self _) (.inr np) ?_) 
      (h.pids.mono fun q a => hd.ownsPid fun _ ha => by simpa only [Table.ownsPid, hprocn] using ha)
      (fun t _ => ?_)
      (fun _ => ⟨T.fresh, by rw [hprocn]⟩) (fun hz => ?_) (fun q hpq => ?_) fun _ hb =>
      absurd hb hunborn
    · rintro (t | q) n hn
      · refine .inl ?_
        by_cases ht : t = Table.slot0 np
        · subst ht
          exact (congrArg Thread.kstack hself).symm.trans hn
        · exact (congrArg Thread.kstack (hother t ht)).symm.trans hn
      · by_cases hq : q = np
        · subst hq
          have := hn.2
          rw [hprocn] at this
          exact .inr ⟨rfl, (PgDir.page.inj this).symm⟩
        · exact .inl (hd.ownsPage_inr hq hn)
    · by_cases ht : t = Table.slot0 np
      · subst ht
        rw [hself]
        simp [hn₀]
      · rw [hother t ht]
        exact h.kstack t
    · simp [hprocn, hused] at hz
    · rw [hprocn] at hpq
      obtain rfl : me.1 = q := ProcPtr.proc.inj hpq
      exact ⟨hT.alive me (by rw [hme]; rfl), born_of_state (by simp [hme]) (by simp [hme])⟩
  | false =>
    have hself : (T.fork me np false).1.thread (Table.slot0 np) =
        { T.thread (Table.slot0 np) with kstack := none, state := .UNUSED_T } := by
      simp [Table.fork]
    have hprocn : (T.fork me np false).1.proc np = { T.proc np with pgdir := .null, state :=
      .UNUSED } := by
      simp [Table.fork]
    have hfreed : (T.fork me np false).1.freed = [n₀] ++ T.freed := by
      simp [Table.fork, hn₀]
    have hunborn' : ¬ (T.fork me np false).1.born np := by
      rintro ⟨i, h₁, h₂⟩
      by_cases hi : (np, i) = Table.slot0 np
      · rw [hi, hself] at h₁
        exact h₁ rfl
      · rw [hother _ hi] at h₁ h₂
        exact hunborn ⟨i, h₁, h₂⟩
    -- the kernel stack that is freed was the only page of the process
    have hkept : ∀ o n, (T.fork me np false).1.ownsPage o n → T.ownsPage o n ∧
      o ≠ .inl (Table.slot0 np) := by
      rintro (t | q) n hn
      · have ht : t ≠ Table.slot0 np := by
          rintro rfl
          have : (none : Option ℕ) = some n := (congrArg Thread.kstack hself).symm.trans hn
          exact absurd this (by simp)
        exact ⟨(congrArg Thread.kstack (hother t ht)).symm.trans hn, by simpa using ht⟩
      · refine ⟨hd.ownsPage_inr ?_ hn, by simp⟩
        rintro rfl
        exact hunborn' hn.1
    refine h.apart hd ?_ (h.pids.mono fun q a => hd.ownsPid fun _ ha =>
      absurd (by rw [hprocn]) ha.1) (fun t _ => ?_)
      (fun hb => absurd hb hunborn')
      (fun hz => by simp [hprocn] at hz) (fun q hpq => ?_) fun _ hb => absurd hb hunborn
    · rw [hfreed]
      exact h.pages.retireOwners (nodup_singleton _) (· = .inl (Table.slot0 np))
        (fun a ha => ⟨_, rfl, mem_singleton.1 ha ▸ hn₀⟩) hkept
    · by_cases ht : t = Table.slot0 np
      · subst ht
        rw [hself]
        simp
      · rw [hother t ht]
        exact h.kstack t
    · rw [hprocn] at hpq
      exact h.parent np q hpq

/-! ## Reaping and `exec` -/

theorem Table.mem_zombieStacks {q : ProcId} {n : ℕ} : n ∈ T.zombieStacks q ↔
    ∃ i, T.below (q, i) ∧ (T.thread (q, i)).state = .ZOMBIE_T ∧
      (T.thread (q, i)).kstack = some n := by
  simp only [zombieStacks, mem_flatMap, mem_finRange, true_and]
  refine exists_congr fun i => ?_
  by_cases h : T.below (q, i) ∧ (T.thread (q, i)).state = .ZOMBIE_T
  · simp [h]
  · simp only [Bool.and_eq_true, beq_iff_eq, h, ↓reduceIte, not_mem_nil, false_iff]
    exact fun h' => h ⟨h'.1, h'.2.1⟩

theorem Owned.nodup_zombieStacks (h : Owned T) (q : ProcId) : (T.zombieStacks q).Nodup := by
  refine nodup_flatMap.2 ⟨fun i _ => ?_, ?_⟩
  · split_ifs
    · cases (T.thread (q, i)).kstack <;> simp
    · exact nodup_nil
  · refine (nodup_finRange NTHREADS).imp fun {i j} hij => ?_
    change List.Disjoint _ _
    rw [disjoint_left]
    intro n hi hj
    have hn : ∀ k, n ∈ (if (T.below (q, k) && (T.thread (q, k)).state == .ZOMBIE_T) then
        (T.thread (q, k)).kstack.toList else []) → T.ownsPage (.inl (q, k)) n := fun k hk => by
      split_ifs at hk
      · simpa [ownsPage] using hk
      · simp at hk
    have := h.pages.unique _ _ n (hn i hi) (hn j hj)
    exact hij (congrArg snd (Sum.inl.inj this))

theorem Owned.reap (h : Owned T) (hT : TableOk T) {p q : ProcId} {n : ℕ}
    (hq : (T.proc q).state = .ZOMBIE) (hn : (T.proc q).pgdir = .page n) : Owned (T.reap p q n) := by
  have hbq := h.zombie q hq
  have hpg : T.ownsPage (.inr q) n := ⟨hbq, hn⟩
  have hdead : ∀ t : Slot, t.1 = q → (T.thread t).state.alive = false := fun t ht =>
    hT.dead (by rw [ht, hq]; decide)
  have hd : Apart T (T.reap p q n) q := by
    refine ⟨fun t ht => ?_, fun r hr => ?_, rfl⟩
    · rw [reap_thread, if_neg fun h => ht h.1]
    · simp [Table.reap, Table.mapThread, hr]
  -- after the loop no slot of the child is in use or has a kernel stack
  have hgone : ∀ t, t.1 = q → ((T.reap p q n).thread t).state = .UNUSED_T ∧
      ((T.reap p q n).thread t).kstack = none := fun t ht => by
    rw [reap_thread]
    by_cases hc : t.1 = q ∧ T.below t ∧ (T.thread t).state = .ZOMBIE_T
    · rw [if_pos hc]
      exact ⟨rfl, rfl⟩
    · rw [if_neg hc]
      have hs : (T.thread t).state = .UNUSED_T := by
        rcases ThreadState.dead_cases (hdead t ht) with hs | hs
        · exact hs
        · exact by_contra fun hu => hc ⟨ht, hT.below hu, hs⟩
      exact ⟨hs, (h.kstack t).2 hs⟩
  have hprocq : (T.reap p q n).proc q = { T.proc q with pid := 0, parent := .null, state :=
    .UNUSED } := by
    simp [Table.reap, Table.mapThread]
  have hunborn : ¬ (T.reap p q n).born q := by
    rintro ⟨i, h₁, -⟩
    exact h₁ (hgone (q, i) rfl).1
  have hstacks : ∀ a, a ∈ T.zombieStacks q → ∃ i, T.ownsPage (.inl (q, i)) a := fun a ha => by
    obtain ⟨i, -, -, hi⟩ := mem_zombieStacks.1 ha
    exact ⟨i, hi⟩
  refine h.apart hd ?_ ?_ (fun t ht => by simp [hgone t ht]) (fun hb => absurd hb hunborn)
    (fun hz => by simp [hprocq] at hz) (fun r hr => by simp [hprocq] at hr) fun hs
    _ => by simp [hq] at hs
  · show Ledger (T.reap p q n).ownsPage T.fresh ((T.zombieStacks q ++ [n]) ++ T.freed)
    refine h.pages.retireOwners ?_ (fun o => o.elim fst id = q) ?_ ?_
    · refine nodup_append.2 ⟨h.nodup_zombieStacks q, nodup_singleton n, ?_⟩
      rintro a ha b hb rfl
      obtain ⟨i, hi⟩ := hstacks a ha
      obtain rfl := mem_singleton.1 hb
      exact absurd (h.pages.unique _ _ a hi hpg) (by simp)
    · intro a ha
      rcases mem_append.1 ha with ha | ha
      · obtain ⟨i, hi⟩ := hstacks a ha
        exact ⟨_, rfl, hi⟩
      · exact ⟨.inr q, rfl, mem_singleton.1 ha ▸ hpg⟩
    · -- what is owned afterwards belongs to other processes
      rintro (t | r) a ha
      · have ht : t.1 ≠ q := fun ht => by
          have : ((T.reap p q n).thread t).kstack = some a := ha
          rw [(hgone t ht).2] at this
          exact absurd this (by simp)
        exact ⟨(congrArg Thread.kstack (hd.thread t ht)).symm.trans ha, ht⟩
      · have hr : r ≠ q := by
          rintro rfl
          exact hunborn ha.1
        exact ⟨hd.ownsPage_inr hr ha, hr⟩
  · show Ledger (T.reap p q n).ownsPid T.nextpid ([(T.proc q).pid] ++ T.reaped.map Reaped.pid)
    refine h.pids.retireOwners (nodup_singleton _) (· = q) (fun a ha => ?_) fun r a ha => ?_
    · exact ⟨q, rfl, by simp [hq], (mem_singleton.1 ha).symm⟩
    · have hr : r ≠ q := by
        rintro rfl
        exact ha.1 (by rw [hprocq])
      exact ⟨hd.ownsPid (absurd · hr) ha, hr⟩

theorem Owned.execDone (h : Owned T) (hme : (T.thread me).state = .RUNNING) :
    Owned (Kernel.execDone T me true) := by
  have hbme : T.born me.1 := born_of_state (by simp [hme]) (by simp [hme])
  obtain ⟨n, hn⟩ := h.pgdir me.1 hbme
  have hown : T.ownsPage (.inr me.1) n := ⟨hbme, hn⟩
  set T' := Kernel.execDone T me true with hT'
  have hd : Apart T T' me.1 :=
    ⟨fun _ _ => rfl, fun r hr => by simp [hT', hr], rfl⟩
  have hprocm : T'.proc me.1 = { T.proc me.1 with pgdir := .page T.fresh } := by
    simp [hT']
  have hfreed : T'.freed = [n] ++ T.freed := by simp [hT', hn]
  refine h.apart hd ?_
    (h.pids.mono fun r a => hd.ownsPid fun _ ha => by simpa only [ownsPid, hprocm] using ha)
    (fun t _ => h.kstack t) (fun _ => ⟨T.fresh, by rw [hprocm]⟩) (fun _ => hbme) (fun q hq => ?_)
    fun hs hb => ⟨by rw [hprocm]; exact hs, hb⟩
  · -- the new page is issued, then the old one is retired
    have hissue : Ledger (fun o a => T.ownsPage o a ∨ (o = .inr me.1 ∧ a = T.fresh)) T'.fresh
      T.freed :=
      h.pages.issue (Nat.lt_succ_self _) (.inr me.1) fun o a ha => ha
    rw [hfreed]
    refine hissue.retire (nodup_singleton n) (fun a ha => ?_) ?_
    · exact ⟨.inr me.1, .inl (mem_singleton.1 ha ▸ hown)⟩
    · rintro (t | r) a ha
      · refine ⟨.inl ha, fun hm => ?_⟩
        exact absurd (h.pages.unique (.inl t) (.inr me.1) a ha (mem_singleton.1 hm ▸ hown))
          (by simp)
      · by_cases hr : r = me.1
        · subst hr
          have := ha.2
          rw [hprocm] at this
          obtain rfl : T.fresh = a := PgDir.page.inj this
          refine ⟨.inr ⟨rfl, rfl⟩, fun hm => ?_⟩
          exact lt_irrefl _ (mem_singleton.1 hm ▸ h.pages.lt _ _ hown)
        · have ha' := hd.ownsPage_inr hr ha
          refine ⟨.inl ha', fun hm => hr ?_⟩
          exact Sum.inr.inj (h.pages.unique (.inr r) (.inr me.1) a ha' (mem_singleton.1 hm ▸ hown))
  · rw [hprocm] at hq
    exact h.parent me.1 q hq

/-! ## Runs -/

theorem Owned.userinit (base : ℤ) : Owned (.userinit base) := by
  set T := Table.userinit base
  have hproc : ∀ p, (T.proc p = ⟨false, .page 1, 1, .null, .USED, 1⟩ ∧ p = T.initproc) ∨
      (T.proc p = ⟨false, .null, 0, .null, .UNUSED, 0⟩ ∧ p ≠ T.initproc) := fun p => by
    by_cases h0 : p.val = 0
    · exact .inl ⟨if_pos h0, Fin.ext h0⟩
    · exact .inr ⟨if_neg h0, fun h => h0 (congrArg Fin.val h)⟩
  have hthread : ∀ t, (T.thread t = ⟨some 0, .RUNNABLE, false, .null, 1, [.forkret]⟩ ∧
    t = Table.slot0 T.initproc) ∨
      T.thread t = ⟨none, .UNUSED_T, false, .null, 0, []⟩ := fun t => by
    by_cases h0 : t.1.val = 0 ∧ t.2.val = 0
    · exact .inl ⟨if_pos h0, Prod.ext (Fin.ext h0.1) (Fin.ext h0.2)⟩
    · exact .inr (if_neg h0)
  have hborn : ∀ p, T.born p → p = T.initproc := fun p ⟨i, h₁, _⟩ => by
    rcases hthread (p, i) with ⟨-, h0⟩ | h
    · exact congrArg Prod.fst h0
    · simp [h] at h₁
  -- pages 0 and 1 are the kernel stack and the page directory of the first process
  have hown : ∀ o n, T.ownsPage o n →
      (o = .inl (Table.slot0 T.initproc) ∧ n = 0) ∨ (o = .inr T.initproc ∧ n = 1) := by
    rintro (t | p) n hn
    · have hn' : (T.thread t).kstack = some n := hn
      rcases hthread t with ⟨h, h0⟩ | h
      · rw [h] at hn'
        exact .inl ⟨congrArg _ h0, (Option.some.inj hn').symm⟩
      · simp [h] at hn'
    · have hn' := hn.2
      rcases hproc p with ⟨h, h0⟩ | ⟨h, -⟩
      · rw [h] at hn'
        exact .inr ⟨congrArg _ h0, (PgDir.page.inj hn').symm⟩
      · simp [h] at hn'
  have hpid : ∀ p a, T.ownsPid p a → p = T.initproc ∧ a = 1 := fun p a ha => by
    rcases hproc p with ⟨h, h0⟩ | ⟨h, -⟩
    · have := ha.2
      rw [h] at this
      exact ⟨h0, this.symm⟩
    · exact absurd (by rw [h]) ha.1
  refine ⟨⟨fun o n hn => ?_, fun o o' n hn hn' => ?_, fun _ _ _ => not_mem_nil, nofun, nodup_nil⟩,
    ⟨fun p a ha => ?_, fun p q a ha hb => (hpid p a ha).1.trans (hpid q a hb).1.symm,
      fun _ _ _ => not_mem_nil, nofun, nodup_nil⟩,
    fun t => ?_, fun p hb => ?_, fun p hz => ?_, fun p q hpq => ?_, ?_⟩
  · show n < 2
    rcases hown o n hn with ⟨-, rfl⟩ | ⟨-, rfl⟩ <;> decide
  · rcases hown o n hn with ⟨rfl, rfl⟩ | ⟨rfl, rfl⟩ <;>
      rcases hown o' _ hn' with ⟨rfl, h⟩ | ⟨rfl, h⟩ <;>
      first | rfl | exact absurd h (by decide)
  · rw [(hpid p a ha).2]
    exact (by decide : (1 : ℤ) < 2)
  · rcases hthread t with ⟨h, -⟩ | h <;> simp [h]
  · rcases hproc p with ⟨h, -⟩ | ⟨-, h⟩
    · exact ⟨1, by rw [h]⟩
    · exact absurd (hborn p hb) h
  · rcases hproc p with ⟨h, -⟩ | ⟨h, -⟩ <;> simp [h] at hz
  · rcases hproc p with ⟨h, -⟩ | ⟨h, -⟩ <;> simp [h] at hpq
  · exact ⟨rfl, ⟨0, by decide⟩, nofun, nofun⟩

variable {C : Type} {s s' : Kernel C}

theorem Owned.tableStep {c : C} (h : Owned s.table) (hi : Inv s) (ht : TableStep s c T) :
    Owned T := by
  cases ht with
  | calm hc => exact h.calm hc
  | allocproc ok => exact h.allocproc hi.table
  | @fork me np st ok hme hctl =>
    have he := hi.frames.forking me _ np (.inl ⟨c, hme, hctl⟩) (by simp [Frame.forks])
    exact h.fork hi.table (hi.cpu.running c _ hme) he
  | kthreadCreate ok hme hctl hb => exact h.kthreadCreate hi.table (hi.cpu.running c _ hme) hb
  | reap hme hctl hq hn => exact h.reap hi.table (zombieChild_spec hq).2 hn
  | exitProcess st' hme hctl =>
    have hrun := hi.cpu.running c _ hme
    exact h.exitProcess (hi.frames.dying _ _ (.inl ⟨c, hme, hctl⟩) rfl) hrun
      (hi.table.alive _ (by rw [hrun]; rfl)) st'
  | execDone hme hctl => exact h.execDone (hi.cpu.running c _ hme)

theorem Table.allocproc_rest (T : Table) (ok : Bool) :
    (T.allocproc ok).1.freed = T.freed ∧ (T.allocproc ok).1.reaped = T.reaped := by
  unfold allocproc
  split
  · exact ⟨rfl, rfl⟩
  · rename_i p _
    have hn : ((({ T.setProc p fun q => { q with tNum := 0, pid := T.nextpid, state := .USED } with
        nextpid := T.nextpid + 1 } : Table)).proc p).tNum < NTHREADS := by
      simp [setProc, NTHREADS]
    exact (allocthread_rest true ok hn).2.2

theorem Table.kthreadCreate_rest (T : Table) (me : Slot) (ok : Bool)
    (hn : (T.proc me.1).tNum < NTHREADS) : (T.kthreadCreate me ok).1.freed = T.freed ∧
    (T.kthreadCreate me ok).1.reaped = T.reaped := by
  rw [kthreadCreate_fst]
  exact (allocthread_rest false ok hn).2.2

/-- A kernel stack is freed only when its thread has not run yet or never will again. -/
theorem TableStep.freed_kstack {c : C} (ht : TableStep s c T) (hi : Inv s) (h : Owned s.table)
    {t : Slot} {n : ℕ} (hk : (s.table.thread t).kstack = some n) (hn : n ∈ T.freed) :
    (s.table.thread t).state = .EMBRYO ∨ (s.table.thread t).state = .ZOMBIE_T := by
  have hlive : n ∉ s.table.freed := h.pages.live (.inl t) n hk
  cases ht with
  | calm hc => exact absurd (hc.freed ▸ hn) hlive
  | allocproc ok => exact absurd ((allocproc_rest _ ok).1 ▸ hn) hlive
  | @fork me np st ok hme hctl =>
    cases ok with
    | true => exact absurd hn hlive
    | false =>
      have hn' : n ∈ (s.table.thread (slot0 np)).kstack.toList ++ s.table.freed := hn
      rcases mem_append.1 hn' with hn' | hn'
      · have hown : s.table.ownsPage (.inl (slot0 np)) n := by simpa [ownsPage] using hn'
        obtain rfl := Sum.inl.inj (h.pages.unique (.inl t) _ n hk hown)
        exact .inl (hi.frames.forking me _ np (.inl ⟨c, hme, hctl⟩) (by simp [Frame.forks]))
      · exact absurd hn' hlive
  | kthreadCreate ok hme hctl hb => exact absurd ((kthreadCreate_rest _ _ ok hb).1 ▸ hn) hlive
  | @reap me st q m hme hctl hq hm =>
    have hn' : n ∈ (s.table.zombieStacks q ++ [m]) ++ s.table.freed := hn
    rcases mem_append.1 hn' with hn' | hn'
    · rcases mem_append.1 hn' with hn' | hn'
      · obtain ⟨i, -, hz, hki⟩ := mem_zombieStacks.1 hn'
        obtain rfl := Sum.inl.inj (h.pages.unique (.inl t) (.inl (q, i)) n hk hki)
        exact .inr hz
      · obtain rfl := mem_singleton.1 hn'
        have hpg : s.table.ownsPage (.inr q) n := ⟨h.zombie q (zombieChild_spec hq).2, hm⟩
        exact absurd (h.pages.unique (.inl t) (.inr q) n hk hpg) (by simp)
    · exact absurd hn' hlive
  | @exitProcess me st st' hme hctl =>
    exact absurd ((Wakes.exitWakes s.table me.1).freed ▸ hn) hlive
  | @execDone me st hme hctl =>
    have hrun := hi.cpu.running c _ hme
    have hb : s.table.born me.1 := born_of_state (by simp [hrun]) (by simp [hrun])
    obtain ⟨m, hm⟩ := h.pgdir _ hb
    have hn' : n ∈ [m] ++ s.table.freed := by
      simpa [hm] using hn
    rcases mem_append.1 hn' with hn' | hn'
    · obtain rfl := mem_singleton.1 hn'
      have hpg : s.table.ownsPage (.inr me.1) n := ⟨hb, hm⟩
      exact absurd (h.pages.unique (.inl t) (.inr me.1) n hk hpg) (by simp)
    · exact absurd hn' hlive

variable [DecidableEq C]

theorem Owned.of_reachable (h : (kernelSys C).ReachableVia (fun s a => sound s a) s) :
    Inv s ∧ Owned s.table := by
  refine h.invariant (I := fun s => Inv s ∧ Owned s.table) (fun s hs => ?_) fun s a s' hi hok hn =>
    ?_
  · obtain ⟨base, rfl⟩ := hs
    exact ⟨Inv.boot base, Owned.userinit base⟩
  · exact ⟨hi.1.next hok hn, hi.2.tableStep hi.1 (hi.1.tableStep (inBounds_of_sound hok) hn)⟩

end Xv6.Ptable
