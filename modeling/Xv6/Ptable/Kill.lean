import Xv6.Ptable.Death

/-!
# Kill marks

`kill(pid)` looks for a slot of the table with the pid, in use or not, and `allocproc` does not
clear the `killed` flag of the slot it takes.  Free slots have pid 0, so `kill(0)` succeeds and
marks a free slot; and a slot that `wait` has freed keeps the flag that `exit_process` set, so the
next process in it is born killed.
-/

namespace Xv6.Ptable

open Function List Table Machine.Sys Kernel Bool

variable {C : Type}

attribute [local simp] Table.setProc Table.free Table.mapThread Kernel.setCtl Frame.locked
  Table.setThread Table.userinit Kernel.boot Table.fork

/-! ## A lock that is never released -/

/-- A CPU holds `ptable.lock` in code that does not release it, or has panicked with it. -/
def Stuck (s : Kernel C) : Prop :=
  ∃ c, s.lock = some c ∧ ((∃ m, (s.cpu c).ctl = .panic m) ∨ ∃ st, (s.cpu c).ctl = .run st ∧ free st)

variable {s s' : Kernel C} {c : C} {me : Slot} {T : Table}

theorem Stuck.not_crit (h : Stuck s) (hi : Inv s) (c : C) (k : Sec) (st : List Frame) :
    (s.cpu c).ctl ≠ .run (.crit k :: st) := fun hctl => by
  obtain ⟨d, hd, hx⟩ := h
  have hlock := (hi.at_crit hctl).1
  obtain rfl : d = c := Option.some.inj (hd.symm.trans hlock)
  rcases hx with ⟨m, hm⟩ | ⟨st', hst, hfree⟩
  · simp [hctl] at hm
  · rw [hctl] at hst
    cases hst
    simp [free] at hfree

section Steps

variable [DecidableEq C]

/-- CPU `d` takes a step that leaves the lock with CPU `c`. -/
def Aside (s s' : Kernel C) (c : C) : Prop := s'.lock = s.lock ∧ s'.cpu c = s.cpu c

theorem Aside.setCtl {u : Kernel C} {d : C} (hd : d ≠ c) (h : Aside s u c) (k : Ctl) :
    Aside s (u.setCtl d k) c :=
  ⟨h.1, by rw [← h.2]; simp [Ne.symm hd]⟩

theorem Aside.release {u : Kernel C} {d : C} (hd : d ≠ c) (hl : s.lock = some c) (h : Aside s u c)
    (k : Ctl) : Aside s (u.release d k) c := by
  have hne : u.lock ≠ some d := by
    rw [h.1, hl]
    simpa using Ne.symm hd
  rw [Kernel.release, if_neg hne]
  exact h.setCtl hd _

theorem Aside.finish {u : Kernel C} {d : C} (hd : d ≠ c) (hl : s.lock = some c) (h : Aside s u c)
    {st : List Frame} {o : Out} (hn : u.finish d me st o = some s') : Aside s s' c := by
  cases o with
  | sched x fs =>
    cases hn
    have hne : u.lock ≠ some d := by
      rw [h.1, hl]
      simpa using Ne.symm hd
    rw [sched, if_neg hne]
    exact Aside.setCtl (u :=
      { u with table := u.table.setThread me fun th => { th with state := x } }) hd h _
  | spin => cases hn
  | ret _ | leak _ | goto _ | panic _ =>
    cases hn
    exact h.setCtl hd _

theorem Aside.next {d : C} {a : Act} (hd : d ≠ c) (hl : s.lock = some c)
    (hn : s.next d a = some s') : Aside s s' c := by
  have hself : ∀ T fi, Aside s ({ s with table := T, first := fi } : Kernel C) c :=
    fun _ _ => ⟨rfl, rfl⟩
  cases next_step hn with
  | crit hme hctl hn => exact (hself _ s.first).finish hd hl hn
  | acquire hk hlock => simp [hl] at hlock
  | deadlock hk hlock => exact absurd (Option.some.inj (hlock.symm.trans hl)) hd
  | @release _ _ fi hk => exact (hself s.table fi).release hd hl _
  | frame _ _ _ | push _ _ | idle _ => exact (hself _ s.first).setCtl hd _
  | panic _ _ _ => exact (hself s.table s.first).setCtl hd _
  | switch _ _ _ => exact ⟨rfl, by simp [switch, Ne.symm hd]⟩

omit [DecidableEq C] in
theorem Frame.Goes.free {ok : Bool} {f : Frame} {st fs : List Frame} (h : f.Goes s me ok T fs)
    (hf : free (f :: st)) (hx : f = .enter .exec → (s.table.thread me).killed = false) :
    free (fs ++ st) := by
  rw [Ptable.free, all_cons, and_eq_true] at hf
  rw [Ptable.free, all_append, and_eq_true]
  refine ⟨?_, hf.2⟩
  cases h with
  | enter g =>
    cases g with
    | exec =>
      simp only [Kernel.enter, hx rfl]
      rfl
    | _ => rfl
  | trapExit hfs => rcases hfs with rfl | rfl <;> rfl
  | sleepBack | kernel | mark _ | marked _ | check _ | again _ | alone _ | execDone | exitProcess _ => rfl

theorem Pushes.free {a : Act} {st fs : List Frame} (h : Pushes s c a st T fs) (hf : free st) :
    free (fs ++ st) := by
  rw [Ptable.free, all_append, and_eq_true]
  refine ⟨?_, hf⟩
  cases h <;> rfl

/-- The CPU that holds the lock goes on without it being released. -/
theorem Stuck.own {a : Act} (hl : s.lock = some c)
    (h : (∃ m, (s.cpu c).ctl = .panic m) ∨ ∃ st, (s.cpu c).ctl = .run st ∧ free st)
    (hok : sound s (c, a)) (hn : s.next c a = some s') : Stuck s' := by
  -- nothing but frames that run without the lock
  have hfree : ∀ {st}, (s.cpu c).ctl = .run st → free st := fun hctl => by
    rcases h with ⟨m, hm⟩ | ⟨st', hst, hfree⟩
    · simp [hctl] at hm
    · rw [hctl] at hst
      cases hst
      exact hfree
  have hrun : ∀ {T : Table} {st}, free st →
    Stuck ({ s with table := T }.setCtl c (.run st) : Kernel C) :=
    fun hst => ⟨c, hl, .inr ⟨_, by simp, hst⟩⟩
  have hpanic : ∀ m, Stuck (s.setCtl c (.panic m)) := fun m => ⟨c, hl, .inl ⟨m, by simp⟩⟩
  cases next_step hn with
  | crit _ hctl _ => exact absurd (hfree hctl) (by simp [free])
  | acquire _ hlock => simp [hl] at hlock
  | deadlock _ _ => exact hpanic _
  | release hk =>
    cases hk with
    | interrupt hctl | scheduler hctl => rcases h with ⟨m, hm⟩ | ⟨st, hst, -⟩ <;> simp_all
    | thread _ hctl => exact absurd (hfree hctl) (by simp [free])
    | forkret _ hctl _ => exact absurd (hfree hctl) (by simp [free])
  | frame hme hctl hf =>
    refine hrun (hf.free (hfree hctl) ?_)
    rintro rfl
    simp only [sound, and_eq_true, execUnkilled, hme, hctl] at hok
    simpa using hok.2
  | panic _ _ _ => exact hpanic _
  | push hctl hp => exact hrun (hp.free (hfree hctl))
  | idle hk => rcases h with ⟨m, hm⟩ | ⟨st, hst, -⟩ <;> simp only [*] at hk <;> cases hk
  | switch _ hctl _ => rcases h with ⟨m, hm⟩ | ⟨st, hst, -⟩ <;> simp_all

theorem Stuck.next (h : Stuck s) {d : C} {a : Act} (hok : sound s (d, a))
    (hn : s.next d a = some s') : Stuck s' := by
  obtain ⟨c, hl, hx⟩ := h
  by_cases hd : d = c
  · subst hd
    exact Stuck.own hl hx hok hn
  · obtain ⟨h₁, h₂⟩ := Aside.next hd hl hn
    exact ⟨c, h₁.trans hl, by rwa [h₂]⟩

end Steps

/-! ## Slots and marks -/

/-- The step marks process `p` killed: `kill` is called with its pid, it faults, or it is in
`exit_process`. -/
inductive Marks (s : Kernel C) : C × Act → ProcId → Prop where
  | kill {c : C} {ok : Bool} {me : Slot} {pid : ℤ} {st : List Frame} {p : ProcId}
      (hme : (s.cpu c).thread = some me) (hctl : (s.cpu c).ctl = .run (.crit (.kill pid) :: st))
      (hu : (s.table.proc p).state ≠ .UNUSED) (hp : (s.table.proc p).pid = pid) :
      Marks s (c, .go ok) p
  | fault {c : C} {me : Slot} (hme : (s.cpu c).thread = some me) : Marks s (c, .fault) me.1
  | exit {c : C} {ok : Bool} {me : Slot} {st : List Frame} (hme : (s.cpu c).thread = some me)
      (hctl : (s.cpu c).ctl = .run (.crit .exitProcess :: st)) : Marks s (c, .go ok) me.1

/-- `kill` is not given pid 0. -/
def killNonzero (s : Kernel C) (a : C × Act) : Bool :=
  match a.2, (s.cpu a.1).ctl with
  | .go _, .run (.crit (.kill pid) :: _) => decide (pid ≠ 0)
  | _, _ => true

/-- The slot that `allocproc` takes is not one that `wait` has freed. -/
def freshSlot (s : Kernel C) (a : C × Act) : Bool :=
  match a.2, (s.cpu a.1).ctl with
  | .go _, .run (.crit .allocproc :: _) =>
    s.table.findUnused.all fun p => s.table.reaped.all fun r => decide (r.child ≠ p)
  | _, _ => true

/-- Steps in bounds, with neither `kill(0)` nor a `fork` into a slot used before. -/
def orderly (s : Kernel C) (a : C × Act) : Bool := sound s a && (killNonzero s a && freshSlot s a)

theorem orderly_iff {a : C × Act} : orderly s a ↔ sound s a ∧ killNonzero s a ∧ freshSlot s a := by
  rw [orderly, and_eq_true, and_eq_true]

/-- Free slots have pid 0, and are marked killed only if `wait` has freed them. -/
def FreeSlots (T : Table) : Prop :=
  ∀ p, (T.proc p).state = .UNUSED →
    (T.proc p).pid = 0 ∧ ((T.proc p).killed → ∃ r ∈ T.reaped, r.child = p)

theorem Table.kill_some {T : Table} {pid : ℤ} {p : ProcId}
    (h : (finRange NPROC).find? (fun p => (T.proc p).pid == pid) = some p) :
    (T.kill pid).1.proc = update T.proc p { T.proc p with killed := true } ∧
    (T.kill pid).2 = .ret 0 ∧
      (T.proc p).pid = pid := by
  refine ⟨?_, ?_, by simpa using find?_some h⟩ <;> simp [kill, h, killThreads, mapThread, setProc]

theorem Table.kill_none {T : Table} {pid : ℤ}
    (h : (finRange NPROC).find? (fun p => (T.proc p).pid == pid) = none) :
    T.kill pid = (T, .ret (-1)) := by
  simp [kill, h]

theorem FreeSlots.inUse (h : FreeSlots T) {p : ProcId} (hp : (T.proc p).pid ≠ 0) :
    (T.proc p).state ≠ .UNUSED := fun hu => hp (h p hu).1

theorem Table.exitThread_proc (T : Table) (me : Slot) : (T.exitThread me).1.proc = T.proc := by
  simp only [exitThread]
  split_ifs <;> rfl

inductive ProcStep (s : Kernel C) (c : C) (a : Act) (T : Table) (p : ProcId) : Prop where
  | same (hs : (T.proc p).state = (s.table.proc p).state)
    (hp : (T.proc p).pid = (s.table.proc p).pid)
      (hk : (T.proc p).killed = (s.table.proc p).killed)
      (ht : (s.table.proc p).tNum ≤ (T.proc p).tNum)
  | mark (hm : (s.table.proc p).state ≠ .UNUSED → Marks s (c, a) p)
      (h0 : killNonzero s (c, a) → (s.table.proc p).state = .UNUSED → (s.table.proc p).pid ≠ 0)
      (hs : (T.proc p).state = (s.table.proc p).state) (hp : (T.proc p).pid = (s.table.proc p).pid)
      (ht : (T.proc p).tNum = (s.table.proc p).tNum)
  | zombie (hm : Marks s (c, a) p) (hu : (s.table.proc p).state = .USED)
    (hs : (T.proc p).state = .ZOMBIE)
      (hp : (T.proc p).pid = (s.table.proc p).pid) (ht : (T.proc p).tNum = (s.table.proc p).tNum)
  | make {ok : Bool} {st : List Frame} (ha : a = .go ok)
    (hctl : (s.cpu c).ctl = .run (.crit .allocproc :: st))
      (hf : s.table.findUnused = some p) (hs : (T.proc p).state = .USED)
      (hp : (T.proc p).pid = s.table.nextpid)
      (hk : (T.proc p).killed = (s.table.proc p).killed)
  | undo {me : Slot} {st : List Frame} (hme : (s.cpu c).thread = some me)
      (hctl : (s.cpu c).ctl = .run (.crit (.fork p) :: st)) (ha : a = .go false)
      (hs : (T.proc p).state = .UNUSED) (ht : (T.proc p).tNum = (s.table.proc p).tNum)
  | reap (hz : (s.table.proc p).state = .ZOMBIE) (hs : (T.proc p).state = .UNUSED)
    (hp : (T.proc p).pid = 0)
      (hr : ∃ r ∈ T.reaped, r.child = p)

theorem Table.allocproc_nextpid {T : Table} {p : ProcId} (h : T.findUnused = some p) (ok : Bool) :
    (T.allocproc ok).1.nextpid = T.nextpid + 1 := by
  have h0 : 0 < NTHREADS := by decide
  cases ok <;> simp [allocproc, h, allocthread, setProc, setThread, h0]

theorem Event.procStep {a : Act} (he : Event s c a T) (hi : Inv s) (p : ProcId) :
    ProcStep s c a T p ∧ s.table.nextpid ≤ T.nextpid := by
  have hsame : T.proc p = s.table.proc p → ProcStep s c a T p := fun h => by
    refine .same ?_ ?_ ?_ ?_ <;> rw [h]
  -- the process of a running thread is in use
  have hused : ∀ {me}, (s.cpu c).thread = some me → (s.table.proc me.1).state = .USED := fun hme =>
    hi.table.alive _ (by rw [hi.cpu.running c _ hme]; rfl)
  cases he with
  | quiet hq hp => exact ⟨hsame (by rw [hp]), hq.nextpid.ge⟩
  | @fault me hme =>
    refine ⟨?_, (Wakes.fault s.table me.1).nextpid.ge⟩
    by_cases hpm : p = me.1
    · subst hpm
      refine .mark (fun _ => .fault hme) (fun _ hu => by simp [hused hme] at hu) ?_ ?_ ?_ <;>
        simp [Table.fault]
    · exact hsame (by simp [Table.fault, hpm])
  | @kill me pid st ok hme hctl =>
    refine ⟨?_, (Wakes.kill s.table pid).nextpid.ge⟩
    cases hfind : (finRange NPROC).find? (fun p => (s.table.proc p).pid == pid) with
    | none => exact hsame (by rw [kill_none hfind])
    | some q =>
      obtain ⟨hproc, -, hq⟩ := kill_some hfind
      by_cases hpq : p = q
      · subst hpq
        refine .mark (fun hu => .kill hme hctl hu hq) (fun h0 _ => ?_) ?_ ?_ ?_
        · rw [hq]
          simpa [killNonzero, hctl] using h0
        all_goals rw [hproc, update_self]
      · exact hsame (by rw [hproc, update_of_ne hpq])
  | sleep ok hme hctl ho => exact ⟨hsame rfl, le_rfl⟩
  | @exitThread me st ok hme hctl hrun =>
    exact ⟨hsame (congrFun (exitThread_proc s.table me) p),
      (Wakes.exitThread s.table me).nextpid.ge⟩
  | @exitProcess me st ok st' hme hctl =>
    have hproc : (schedTable (s.table.exitProcess me).1 me .ZOMBIE_T st').proc p =
        (s.table.exitProcess me).1.proc p := rfl
    rw [exitProcess_proc] at hproc
    refine ⟨?_, (Wakes.exitWakes s.table me.1).nextpid.ge⟩
    by_cases hpm : p = me.1
    · subst hpm
      refine .zombie (.exit hme hctl) (hused hme) ?_ ?_ ?_ <;> rw [hproc]
      simp
    · refine .same ?_ ?_ ?_ ?_ <;> rw [hproc]
      · simp [hpm]
      · simp [hpm]
  | @allocproc me st ok hme hctl =>
    cases hf : s.table.findUnused with
    | none => exact ⟨hsame (by rw [allocproc_none hf]), by rw [allocproc_none hf]⟩
    | some q =>
      have hproc := (allocproc_some hf ok).1
      refine ⟨?_, (allocproc_nextpid hf ok).ge.trans' (by omega)⟩
      by_cases hpq : p = q
      · subst hpq
        refine .make rfl hctl hf ?_ ?_ ?_ <;> rw [hproc, update_self]
      · exact hsame (by rw [hproc, update_of_ne hpq])
  | @fork me np st ok hme hctl =>
    refine ⟨?_, by cases ok <;> exact le_rfl⟩
    by_cases hpn : p = np
    · subst hpn
      cases ok with
      | true => refine .same ?_ ?_ ?_ ?_ <;> simp
      | false => refine .undo hme hctl rfl ?_ ?_ <;> simp
    · exact hsame (by cases ok <;> simp [hpn])
  | @kthreadCreate me st ok hme hctl hb =>
    have hproc : (s.table.kthreadCreate me ok).1.proc = update s.table.proc me.1
        { s.table.proc me.1 with tNum := (s.table.proc me.1).tNum + 1 } := by
      rw [Table.kthreadCreate_fst, Table.allocthread_proc hb]
    refine ⟨?_, by rw [Table.kthreadCreate_fst, (Table.allocthread_rest false ok hb).1]⟩
    by_cases hpm : p = me.1
    · subst hpm
      refine .same ?_ ?_ ?_ ?_ <;> rw [hproc, update_self]
      exact Nat.le_succ _
    · exact hsame (by rw [hproc, update_of_ne hpm])
  | @reap me st q n ok hme hctl hq hn =>
    refine ⟨?_, le_rfl⟩
    by_cases hpq : p = q
    · subst hpq
      refine .reap (zombieChild_spec hq).2 ?_ ?_ ⟨_, mem_cons_self, rfl⟩ <;>
        simp [Table.reap]
    · exact hsame (by simp [Table.reap, hpq])
  | @execDone me st hme hctl =>
    refine ⟨?_, le_rfl⟩
    by_cases hpm : p = me.1
    · subst hpm
      refine .same ?_ ?_ ?_ ?_ <;> simp [Kernel.execDone]
    · exact hsame (by simp [Kernel.execDone, hpm])

theorem FreeSlots.fresh (h : FreeSlots s.table) {ok : Bool} {st : List Frame} {p : ProcId}
    (hok : freshSlot s (c, .go ok)) (hctl : (s.cpu c).ctl = .run (.crit .allocproc :: st))
    (hp : s.table.findUnused = some p) : (s.table.proc p).killed = false := by
  by_contra hk
  obtain ⟨r, hr, rfl⟩ := (h p (findUnused_spec hp)).2 (by simpa using hk)
  simp only [freshSlot, hctl, hp, Option.all_some, all_eq_true, decide_eq_true_eq] at hok
  exact hok r hr rfl

variable {a : Act}

/-- A process in use after a step that is marked killed was so before, or the step marks it. -/
theorem ProcStep.marked {p : ProcId} (h : ProcStep s c a T p)
    (hf : ∀ k st, (s.cpu c).ctl = .run (.crit k :: st) → FreeSlots s.table)
    (hok : freshSlot s (c, a)) (hu : (T.proc p).state ≠ .UNUSED) (hk : (T.proc p).killed) :
    (s.table.proc p).state ≠ .UNUSED ∧ (T.proc p).pid = (s.table.proc p).pid ∧
      ((s.table.proc p).killed ∨ Marks s (c, a) p) := by
  cases h with
  | same hs hp hk' _ => exact ⟨hs ▸ hu, hp, .inl (hk' ▸ hk)⟩
  | mark hm _ hs hp _ => exact ⟨hs ▸ hu, hp, .inr (hm (hs ▸ hu))⟩
  | zombie hm hu' _ hp _ => exact ⟨by simp [hu'], hp, .inr hm⟩
  | make ha hctl hfind hs _ hk' =>
    subst ha
    rw [hk', (hf _ _ hctl).fresh hok hctl hfind] at hk
    cases hk
  | undo _ _ _ hs _ => exact absurd hs hu
  | reap _ hs _ _ => exact absurd hs hu

theorem ProcStep.not_other {p : ProcId} (h : ProcStep s c a T p)
    (hp : (s.table.proc p).state ≠ .other) : (T.proc p).state ≠ .other := by
  cases h with
  | same hs _ _ _ => rwa [hs]
  | mark _ _ hs _ _ => rwa [hs]
  | zombie _ _ hs _ _ | make _ _ _ hs _ _ | undo _ _ _ hs _ | reap _ hs _ _ => simp [hs]

theorem FreeSlots.procStep (hf : FreeSlots s.table) (hch : ∀ p, ProcStep s c a T p)
    (hkill : killNonzero s (c, a)) (hr : ∀ r ∈ s.table.reaped, r ∈ T.reaped)
    (hno : ∀ np st, (s.cpu c).ctl = .run (.crit (.fork np) :: st) → a ≠ .go false) :
    FreeSlots T := by
  intro p hu
  cases hch p with
  | same hs hp hk _ =>
    obtain ⟨h0, hkill⟩ := hf p (hs ▸ hu)
    refine ⟨hp.trans h0, fun h => ?_⟩
    obtain ⟨r, hmem, hchild⟩ := hkill (hk ▸ h)
    exact ⟨r, hr r hmem, hchild⟩
  | mark _ h0 hs _ _ => exact absurd (hf p (hs ▸ hu)).1 (h0 hkill (hs ▸ hu))
  | zombie _ _ hs _ _ => simp [hs] at hu
  | make _ _ _ hs _ _ => simp [hs] at hu
  | undo _ hctl ha _ _ => exact absurd ha (hno _ _ hctl)
  | reap _ _ hp hr => exact ⟨hp, fun _ => hr⟩

variable [DecidableEq C]

theorem Stuck.of_fork (hi : Inv s) {np : ProcId} {st : List Frame}
    (hme : (s.cpu c).thread = some me) (hctl : (s.cpu c).ctl = .run (.crit (.fork np) :: st))
    (hn : s.next c (.go false) = some s') : Stuck s' := by
  obtain ⟨hlock, -, -, hfree⟩ := hi.at_crit hctl
  simp only [Kernel.next, Kernel.go, hctl, hme] at hn
  cases hn
  exact ⟨c, hlock, .inr ⟨st, by simp, hfree⟩⟩

/-! ## Runs -/

/-- Process `p` has been marked killed in the run `l`, by a call on it or by itself. -/
def Marked (base : ℤ) (l : List (C × Act)) (s : Kernel C) (p : ProcId) : Prop :=
  ∃ l₁ a l₂ s₁, l = l₁ ++ a :: l₂ ∧ (kernelSys C).runVia orderly (.boot C base) l₁ = some s₁ ∧
    Marks s₁ a p ∧ (s₁.table.proc p).pid = (s.table.proc p).pid

structure MarksOk (base : ℤ) (l : List (C × Act)) (s : Kernel C) : Prop where
  inv : Inv s
  owned : Owned s.table
  other : ∀ p, (s.table.proc p).state ≠ .other
  slots : Stuck s ∨ FreeSlots s.table
  marked : ∀ p, (s.table.proc p).state ≠ .UNUSED → (s.table.proc p).killed → Marked base l s p

omit [DecidableEq C] in
theorem FreeSlots.boot (base : ℤ) : FreeSlots (boot C base).table := by
  intro p hu
  by_cases hp : p.val = 0 <;> simp [hp] at hu ⊢

theorem MarksOk.boot (base : ℤ) : MarksOk base [] (boot C base) := by
  refine ⟨Inv.boot base, Owned.userinit base, fun p => ?_, .inr (.boot base), fun p _ hk => ?_⟩
  · by_cases hp : p.val = 0 <;> simp [hp]
  · by_cases hp : p.val = 0 <;> simp [hp] at hk

section

variable {base : ℤ} {l : List (C × Act)}

theorem MarksOk.at_crit (h : MarksOk base l s) {k : Sec} {st : List Frame}
    (hctl : (s.cpu c).ctl = .run (.crit k :: st)) : FreeSlots s.table :=
  h.slots.resolve_left fun hs => hs.not_crit h.inv c k st hctl

theorem MarksOk.next (h : MarksOk base l s)
    (hl : (kernelSys C).runVia orderly (.boot C base) l = some s) (hok : orderly s (c, a))
    (hn : s.next c a = some s') : MarksOk base (l ++ [(c, a)]) s' := by
  obtain ⟨hsound, hkill, hfresh⟩ := orderly_iff.1 hok
  have hf : ∀ k st, (s.cpu c).ctl = .run (.crit k :: st) → FreeSlots s.table :=
    fun k st => h.at_crit
  have he := h.inv.event (inBounds_of_sound hsound) hn
  have hch := fun p => (he.procStep h.inv p).1
  have hr : ∀ r ∈ s.table.reaped, r ∈ s'.table.reaped := fun r hr => by
    rcases (he.tableStep h.inv).reaped h.inv h.owned with e | ⟨_, _, e, -⟩ <;> rw [e]
    · exact hr
    · exact mem_cons_of_mem _ hr
  refine ⟨h.inv.next hsound hn, h.owned.tableStep h.inv (he.tableStep h.inv),
    fun p => (hch p).not_other (h.other p), ?_, fun p hu hk => ?_⟩
  · rcases h.slots with hs | hs
    · exact .inl (hs.next hsound hn)
    · by_cases hfork : ∃ np st, (s.cpu c).ctl = .run (.crit (.fork np) :: st) ∧ a = .go false
      · obtain ⟨np, st, hctl, rfl⟩ := hfork
        cases hme : (s.cpu c).thread with
        | none => simp [Kernel.next, Kernel.go, hctl, hme] at hn
        | some me => exact .inl (Stuck.of_fork h.inv hme hctl hn)
      · exact .inr (hs.procStep hch hkill hr fun np st hctl ha => hfork ⟨np, st, hctl, ha⟩)
  · obtain ⟨hu', hp, hk' | hm⟩ := (hch p).marked hf hfresh hu hk
    · obtain ⟨l₁, b, l₂, s₁, rfl, hrun, hm, hpid⟩ := h.marked p hu' hk'
      exact ⟨l₁, b, l₂ ++ [(c, a)], s₁, by simp, hrun, hm, hpid.trans hp.symm⟩
    · exact ⟨l, (c, a), [], s, rfl, hl, hm, hp.symm⟩

theorem MarksOk.of_run
    (h : (kernelSys C).runVia orderly (.boot C base) l = some s) : MarksOk base l s :=
  runVia_induction (M := kernelSys C) (I := MarksOk base) (MarksOk.boot base)
    (fun _ _ _ _ hl hI hok hn => hI.next hl hok hn) h

/-- In every run in which `kill` is not given pid 0 and `fork` takes no slot that `wait` has freed:
`kill` returns 0 if a process in use has the pid, and otherwise returns -1 and leaves the table
alone; a new process and its thread are not marked killed; and a process is marked killed only if
the run has marked it. -/
theorem kill_marks_of_orderly (h : (kernelSys C).runVia orderly (.boot C base) l = some s) :
    (∀ c pid st, (s.cpu c).ctl = .run (.crit (.kill pid) :: st) → pid ≠ 0 →
      ((s.table.kill pid).2 = .ret 0 ↔
        ∃ p, ((s.table.proc p).state = .USED ∨ (s.table.proc p).state = .ZOMBIE) ∧
          (s.table.proc p).pid = pid) ∧
      ((s.table.kill pid).2 ≠ .ret 0 → s.table.kill pid = (s.table, .ret (-1)))) ∧
    (∀ c st ok p, (s.cpu c).ctl = .run (.crit .allocproc :: st) → freshSlot s (c, .go ok) →
      s.table.findUnused = some p → ((s.table.allocproc ok).1.proc p).killed = false ∧
        ((s.table.allocproc ok).1.thread (slot0 p)).killed = false) ∧
    ∀ p, (s.table.proc p).state ≠ .UNUSED → (s.table.proc p).killed →
      ∃ l₁ a l₂ s₁, l = l₁ ++ a :: l₂ ∧ (kernelSys C).runVia orderly (.boot C base) l₁ = some s₁ ∧
        Marks s₁ a p ∧ (s₁.table.proc p).pid = (s.table.proc p).pid := by
  have hm := MarksOk.of_run h
  refine ⟨fun c pid st hctl hpid => ?_, fun c st ok p hctl hok hp => ?_, hm.marked⟩
  · have hf := hm.at_crit hctl
    cases hfind : (finRange NPROC).find? (fun p => (s.table.proc p).pid == pid) with
    | none =>
      have hnone : ∀ p, (s.table.proc p).pid ≠ pid := fun p => by
        simpa using find?_eq_none.1 hfind p (mem_finRange p)
      refine ⟨⟨fun hr => ?_, fun ⟨p, _, hp⟩ => absurd hp (hnone p)⟩, fun _ => kill_none hfind⟩
      rw [kill_none hfind] at hr
      cases hr
    | some q =>
      obtain ⟨-, hr, hq⟩ := kill_some hfind
      refine ⟨⟨fun _ => ⟨q, ?_, hq⟩, fun _ => hr⟩, fun hne => absurd hr hne⟩
      have hu := hf.inUse (hq ▸ hpid)
      have ho := hm.other q
      cases hst : (s.table.proc q).state <;> simp_all
  · obtain ⟨hproc, hthread, -⟩ := allocproc_some hp ok
    rw [hproc, hthread, update_self, update_self]
    exact ⟨(hm.at_crit hctl).fresh hok hctl hp, rfl⟩

end

/-! ## Runs of two CPUs -/

/-- Init forks a child and calls `kill` on it, up to the section of `kill`. -/
def killChild : List (Fin 2 × Act) :=
  startUser 0 ++ callOn 0 .fork (replicate 9 true) ++ callOn 0 (.kill 2) (replicate 3 true)

/-- The call returns 0, and the child is then marked killed, by this call. -/
theorem kill_marks_of_killChild :
    (∃ s, (kernelSys (Fin 2)).runVia orderly (.boot _ 0) killChild = some s ∧
      (s.table.kill 2).2 = .ret 0) ∧ ∃ s l₁ a l₂ s₁, (kernelSys (Fin 2)).runVia orderly (.boot _ 0)
      (killChild ++ [(0, .go true)]) = some s ∧ (s.table.proc second).killed ∧
      killChild ++ [(0, .go true)] = l₁ ++ a :: l₂ ∧ Marks s₁ a second ∧
      (s₁.table.proc second).pid = 2 := by
  have hcall : ((kernelSys (Fin 2)).runVia orderly (.boot _ 0) killChild).any (fun s =>
      decide ((s.cpu 0).ctl = .run [.crit (.kill 2), .trapExit] ∧
        (s.table.proc second).state = .USED ∧ (s.table.proc second).pid = 2)) := by
    decide +kernel
  have hdone : ((kernelSys (Fin 2)).runVia orderly (.boot _ 0) (killChild ++ [(0, .go true)])).any
    (fun s =>
      decide ((s.table.proc second).state = .USED ∧ (s.table.proc second).pid = 2 ∧
        (s.table.proc second).killed)) =
        true := by
    decide +kernel
  obtain ⟨s, hs, hp⟩ := (Option.any_eq_true _ _).1 hcall
  obtain ⟨s', hs', hp'⟩ := (Option.any_eq_true _ _).1 hdone
  obtain ⟨hctl, hst, hpid⟩ := of_decide_eq_true hp
  obtain ⟨hst', hpid', hk⟩ := of_decide_eq_true hp'
  obtain ⟨l₁, a, l₂, s₁, hl, -, hm, hpid₁⟩ :=
    (kill_marks_of_orderly hs').2.2 second (by rw [hst']; decide) hk
  exact ⟨⟨s, hs, ((kill_marks_of_orderly hs).1 0 2 _ hctl (by decide)).1.2 ⟨second, .inl hst,
    hpid⟩⟩,
    s', l₁, a, l₂, s₁, hs', hk, hl, hm, hpid₁.trans hpid'⟩

def killZero : List (Fin 2 × Act) := startUser 0 ++ callOn 0 (.kill 0) (replicate 3 true)

/-- Init forks a child, waits for its end, and forks again. -/
def forkTwice : List (Fin 2 × Act) := forkExitWait ++ callOn 0 .fork (replicate 3 true)

/-- `kill(0)` returns 0 although no process has pid 0, and marks a free slot; and the second child
of init is marked killed when it is made. -/
theorem kill_marks_wrong :
    (∃ s : Kernel (Fin 2), (kernelSys (Fin 2)).Reachable s ∧
      (s.cpu 0).ctl = .run [.crit (.kill 0), .trapExit] ∧
      (∀ p, (s.table.proc p).pid = 0 → (s.table.proc p).state = .UNUSED) ∧
      (s.table.kill 0).2 = .ret 0 ∧ (s.table.proc second).killed = false ∧
      ((s.table.kill 0).1.proc second).killed) ∧ ∃ s : Kernel (Fin 2),
      (kernelSys (Fin 2)).Reachable s ∧ (s.cpu 0).ctl = .run [.crit .allocproc, .trapExit] ∧
      s.table.findUnused = some second ∧ ((s.table.allocproc true).1.proc second).killed := by
  obtain ⟨s, hreach, hctl, hpid, hfind, hk⟩ : ∃ s, (kernelSys (Fin 2)).Reachable s ∧
      (s.cpu 0).ctl = .run [.crit (.kill 0), .trapExit] ∧
      (∀ p, (s.table.proc p).pid = 0 → (s.table.proc p).state = .UNUSED) ∧
      (finRange NPROC).find? (fun p => (s.table.proc p).pid == 0) = some second ∧
      (s.table.proc second).killed = false :=
    exists_reachable killZero (boot_init 0) (by decide +kernel)
  obtain ⟨hproc, hret, -⟩ := kill_some hfind
  exact ⟨⟨s, hreach, hctl, hpid, hret, hk, by rw [hproc, update_self]⟩,
    exists_reachable forkTwice (boot_init 0) (by decide +kernel)⟩

end Xv6.Ptable
