import Xv6.Ptable.Steps

/-!
# What one step does to the table

`Event` lists the ways in which a step changes the table.  `TableStep` is the coarser list: a step
creates or frees a process or a thread, or it is `Calm`.
-/

namespace Xv6.Ptable

open Function Table

attribute [local simp] Table.crit Table.setThread Table.exitThread Table.joinLoop

/-! ## The ends of the sections -/

/-- The panic is not one of `acquire`, `release` and `sched`. -/
def Ctl.quiet (k : Ctl) : Prop := k ≠ .panic .acquire ∧ k ≠ .panic .release ∧ k ≠ .panic .sched

/-- How the section `k` may end: it goes on with the lock held, returns with the lock held only in
three calls, gives the CPU back in a state it can leave or in ZOMBIE_T, and panics for other reasons
than the lock. -/
def OutOk (T : Table) (me : Slot) (ok : Bool) (k : Sec) : Out → Prop
  | .goto fs => ∃ f gs, fs = f :: gs ∧ f ≠ .sleepBack ∧ f.locked ∧ free gs
  | .leak _ =>
    (∃ np, k = .fork np ∧ ok = false) ∨ (k = .kthreadCreate ∧ ok = false) ∨
      ∃ tid, k = .kthreadJoin tid ∧ T.findTid me.1 tid = none
  | .sched x _ => x = .SLEEPING ∨ x = .RUNNABLE ∨ x = .ZOMBIE_T
  | .panic m => (Ctl.panic m).quiet
  | _ => True

theorem outOk_crit (T : Table) (me : Slot) (ok : Bool) (k : Sec) :
    OutOk T me ok k (T.crit me ok k).2 := by
  cases k with
  | allocproc =>
    simp only [crit, allocproc]
    split
    · exact trivial
    · cases ok with
      | true => exact ⟨_, _, rfl, by simp, rfl, rfl⟩
      | false => exact trivial
  | fork np =>
    cases ok with
    | true => exact trivial
    | false => exact .inl ⟨np, rfl, rfl⟩
  | wait =>
    simp only [crit]
    rcases T.wait_cases me with ⟨q, n, -, -, hr⟩ | hr | hr | hr <;> rw [hr]
    · exact trivial
    · exact ⟨by simp, by simp, by simp⟩
    · exact trivial
    · exact .inl rfl
  | kill pid =>
    simp only [crit, kill]
    split <;> exact trivial
  | exit =>
    simp only [crit, exit]
    split_ifs
    · exact ⟨_, _, rfl, by simp, rfl, rfl⟩
    · exact trivial
  | exitThread =>
    simp only [crit, exitThread]
    split_ifs
    · exact ⟨by simp, by simp, by simp⟩
    all_goals first | exact ⟨_, _, rfl, by simp, rfl, rfl⟩ | exact .inr (.inr rfl)
  | kthreadCreate =>
    cases ok with
    | true => exact trivial
    | false => exact .inr (.inl ⟨rfl, rfl⟩)
  | kthreadJoin tid =>
    simp only [crit, kthreadJoin]
    split
    · rename_i hf
      exact .inr (.inr ⟨tid, rfl, hf⟩)
    · exact ⟨_, _, rfl, by simp, rfl, rfl⟩
  | joinLoop t =>
    simp only [crit, joinLoop]
    split
    · exact trivial
    · exact trivial
    · exact .inl rfl
  | execWake => exact ⟨_, _, rfl, by simp, rfl, rfl⟩
  | exitProcess => exact .inr (.inr rfl)
  | yield => exact .inr (.inl rfl)
  | sleep _ => exact .inl rfl
  | growproc | wakeup _ => exact trivial

/-! ## Calm steps -/

/-- No thread or process is created or freed, and no ZOMBIE_T thread comes back. -/
structure Calm (T T' : Table) : Prop where
  kstack : ∀ t, (T'.thread t).kstack = (T.thread t).kstack
  unused : ∀ t, (T'.thread t).state = .UNUSED_T ↔ (T.thread t).state = .UNUSED_T
  embryo : ∀ t, (T'.thread t).state = .EMBRYO ↔ (T.thread t).state = .EMBRYO
  zombie : ∀ t, (T.thread t).state = .ZOMBIE_T → (T'.thread t).state = .ZOMBIE_T
  proc : ∀ p, ∃ b, T'.proc p = { T.proc p with killed := b }
  initproc : T'.initproc = T.initproc
  nextpid : T'.nextpid = T.nextpid
  fresh : T'.fresh = T.fresh
  freed : T'.freed = T.freed
  reaped : T'.reaped = T.reaped

variable {T T' : Table} {me : Slot}

theorem Calm.refl (T : Table) : Calm T T :=
  ⟨fun _ => rfl, fun _ => .rfl, fun _ => .rfl, fun _ => id, fun p => ⟨(T.proc p).killed, rfl⟩, rfl,
    rfl, rfl,
    rfl, rfl⟩

theorem Wakes.calm (h : Wakes T T') : Calm T T' :=
  ⟨h.kstack, h.unused_iff, h.embryo_iff, fun t ht => (h.eq_of_ne (by simp [ht])).trans ht, h.proc,
    h.initproc,
    h.nextpid, h.fresh, h.freed, h.reaped⟩

theorem Calm.setThread (h : Calm T T') {f : Thread → Thread}
    (hme : (T.thread me).state = .RUNNING ∨ (T.thread me).state = .RUNNABLE)
    (hk : (f (T'.thread me)).kstack = (T'.thread me).kstack)
    (hx : (f (T'.thread me)).state ≠ .UNUSED_T ∧ (f (T'.thread me)).state ≠ .EMBRYO) :
    Calm T (T'.setThread me f) := by
  have hself : (T'.setThread me f).thread me = f (T'.thread me) := by simp
  have hother : ∀ t, t ≠ me → (T'.setThread me f).thread t = T'.thread t := fun t ht => by
    simp [ht]
  refine ⟨fun t => ?_, fun t => ?_, fun t => ?_, fun t ht => ?_, h.proc, h.initproc, h.nextpid,
    h.fresh, h.freed, h.reaped⟩
  · by_cases htm : t = me
    · rw [htm, hself, hk, h.kstack]
    · rw [hother t htm, h.kstack]
  · by_cases htm : t = me
    · rw [htm, hself]
      rcases hme with hme | hme <;> simp [hme, hx.1]
    · rw [hother t htm, h.unused]
  · by_cases htm : t = me
    · rw [htm, hself]
      rcases hme with hme | hme <;> simp [hme, hx.2]
    · rw [hother t htm, h.embryo]
  · have htm : t ≠ me := by
      rintro rfl
      rcases hme with hme | hme <;> simp [hme] at ht
    rw [hother t htm]
    exact h.zombie t ht

/-! ## Quiet steps -/

/-- A calm step that puts no thread to sleep, ends none and leaves the ids alone. -/
structure Quiet (T T' : Table) : Prop extends Calm T T' where
  tid : ∀ t, (T'.thread t).tid = (T.thread t).tid
  asleep : ∀ t, (T'.thread t).state = .SLEEPING → (T.thread t).state = .SLEEPING ∧
    (T'.thread t).chan = (T.thread t).chan ∧ (T'.thread t).context = (T.thread t).context
  ended : ∀ t, (T'.thread t).state = .ZOMBIE_T → (T.thread t).state = .ZOMBIE_T

namespace Quiet

theorem of_wakes (h : Wakes T T') (ht : ∀ t, (T'.thread t).tid = (T.thread t).tid)
    (hc : ∀ t, (T.thread t).state = .SLEEPING → (T'.thread t).chan = (T.thread t).chan) :
    Quiet T T' where
  toCalm := h.calm
  tid := ht
  asleep t hs := by
    rcases h.state t with e | ⟨-, e⟩
    · exact ⟨e ▸ hs, hc t (e ▸ hs), h.context t⟩
    · simp [e] at hs
  ended t hz := by
    rcases h.state t with e | ⟨-, e⟩
    · exact e ▸ hz
    · simp [e] at hz

theorem refl (T : Table) : Quiet T T := of_wakes (.refl T) (fun _ => rfl) fun _ _ => rfl

theorem wakeup1_ids (T : Table) (chan : Chan) (t : Slot) :
    ((T.wakeup1 chan).thread t).tid = (T.thread t).tid ∧
      ((T.wakeup1 chan).thread t).chan = (T.thread t).chan := by
  simp only [wakeup1, mapThread]
  split_ifs <;> exact ⟨rfl, rfl⟩

theorem wakeup1 (T : Table) (chan : Chan) : Quiet T (T.wakeup1 chan) :=
  of_wakes (.wakeup1 T chan) (fun t => (wakeup1_ids T chan t).1) fun t _ => (wakeup1_ids T chan t).2

theorem wake_ids (th : Thread) : th.wake.tid = th.tid ∧ th.wake.chan = th.chan := by
  unfold Thread.wake
  split_ifs <;> exact ⟨rfl, rfl⟩

theorem killThreads_ids (T : Table) (p : ProcId) (t : Slot) :
    ((T.killThreads p).thread t).tid = (T.thread t).tid ∧
      ((T.killThreads p).thread t).chan = (T.thread t).chan := by
  simp only [killThreads, mapThread]
  split_ifs
  · exact wake_ids _
  · exact ⟨rfl, rfl⟩

theorem killThreads (T : Table) (p : ProcId) : Quiet T (T.killThreads p) :=
  of_wakes (.killThreads T p) (fun t => (killThreads_ids T p t).1) fun t _ =>
  (killThreads_ids T p t).2

theorem execWake (T : Table) (me : Slot) : Quiet T (T.execWake me) := by
  refine of_wakes (.execWake T me) (fun t => ?_) fun t _ => ?_ <;>
    simp only [Table.execWake, Table.mapThread] <;> split_ifs
  · exact (wake_ids _).1
  · rfl
  · exact (wake_ids _).2
  · rfl

theorem kill (T : Table) (pid : ℤ) : Quiet T (T.kill pid).1 := by
  refine of_wakes (.kill T pid) (fun t => ?_) fun t _ => ?_ <;> simp only [Table.kill] <;> split
  · rfl
  · exact (killThreads_ids _ _ t).1
  · rfl
  · exact (killThreads_ids _ _ t).2

theorem exitThread (T : Table) (me : Slot) : Quiet T (T.exitThread me).1 := by
  have key : ∀ t, ((T.exitThread me).1.thread t).tid = (T.thread t).tid ∧
      ((T.exitThread me).1.thread t).chan = (T.thread t).chan := fun t => by
    have htwo : ∀ c d, (((T.wakeup1 c).wakeup1 d).thread t).tid = (T.thread t).tid ∧
        (((T.wakeup1 c).wakeup1 d).thread t).chan = (T.thread t).chan := fun c d =>
      ⟨(wakeup1_ids _ d t).1.trans (wakeup1_ids T c t).1,
        (wakeup1_ids _ d t).2.trans (wakeup1_ids T c t).2⟩
    simp only [Table.exitThread]
    split_ifs
    · exact ⟨rfl, rfl⟩
    · exact wakeup1_ids T _ t
    · exact ⟨rfl, rfl⟩
    · exact htwo _ _
    · exact wakeup1_ids T _ t
  exact of_wakes (.exitThread T me) (fun t => (key t).1) fun t _ => (key t).2

theorem setThread {f : Thread → Thread}
    (hme : (T.thread me).state = .RUNNING ∨ (T.thread me).state = .RUNNABLE)
    (hk : (f (T.thread me)).kstack = (T.thread me).kstack)
    (ht : (f (T.thread me)).tid = (T.thread me).tid)
    (hx : (f (T.thread me)).state = .RUNNING ∨ (f (T.thread me)).state = .RUNNABLE) :
    Quiet T (T.setThread me f) := by
  have hself : (T.setThread me f).thread me = f (T.thread me) := by simp
  have hother : ∀ t, t ≠ me → (T.setThread me f).thread t = T.thread t := fun t ht => by
    simp [ht]
  refine ⟨(Calm.refl T).setThread hme hk (by rcases hx with hx | hx <;> simp [hx]), fun t => ?_,
    fun t hs => ?_,
    fun t hz => ?_⟩
  · by_cases htm : t = me
    · rw [htm, hself, ht]
    · rw [hother t htm]
  · have htm : t ≠ me := by
      rintro rfl
      rw [hself] at hs
      rcases hx with hx | hx <;> simp [hx] at hs
    rw [hother t htm] at hs ⊢
    exact ⟨hs, rfl, rfl⟩
  · have htm : t ≠ me := by
      rintro rfl
      rw [hself] at hz
      rcases hx with hx | hx <;> simp [hx] at hz
    rwa [hother t htm] at hz

theorem setKilled (T : Table) (t : Slot) (b : Bool) :
    Quiet T (T.setThread t fun th => { th with killed := b }) := by
  have key : ∀ u, (update T.thread t { T.thread t with killed := b } u).tid = (T.thread u).tid ∧
      (update T.thread t { T.thread t with killed := b } u).chan = (T.thread u).chan :=
    (forall_update_iff T.thread fun u th => th.tid = (T.thread u).tid ∧
      th.chan = (T.thread u).chan).2 ⟨⟨rfl, rfl⟩, fun _ _ => ⟨rfl, rfl⟩⟩
  exact of_wakes (.setThread rfl rfl rfl) (fun u => (key u).1) fun u _ => (key u).2

end Quiet

theorem Quiet.fault (T : Table) (p : ProcId) : Quiet T (T.fault p) := by
  refine of_wakes (.fault T p) (fun t => ?_) fun t _ => ?_ <;>
    simp only [Table.fault, Table.mapThread, Table.setProc] <;> split_ifs <;> rfl

/-! ## Steps -/

variable {C : Type}

/-- What a step of CPU `c` may do to the table. -/
inductive TableStep (s : Kernel C) (c : C) : Table → Prop where
  | calm {T : Table} (h : Calm s.table T) : TableStep s c T
  | allocproc (ok : Bool) : TableStep s c (s.table.allocproc ok).1
  | fork {me : Slot} {np : ProcId} {st : List Frame} (ok : Bool) (hme : (s.cpu c).thread = some me)
      (hctl : (s.cpu c).ctl = .run (.crit (.fork np) :: st)) :
      TableStep s c (s.table.fork me np ok).1
  | kthreadCreate {me : Slot} {st : List Frame} (ok : Bool) (hme : (s.cpu c).thread = some me)
      (hctl : (s.cpu c).ctl = .run (.crit .kthreadCreate :: st))
      (hb : (s.table.proc me.1).tNum < NTHREADS) : TableStep s c (s.table.kthreadCreate me ok).1
  | reap {me : Slot} {st : List Frame} {q : ProcId} {n : ℕ} (hme : (s.cpu c).thread = some me)
      (hctl : (s.cpu c).ctl = .run (.crit .wait :: st)) (hq : s.table.zombieChild me.1 = some q)
      (hn : (s.table.proc q).pgdir = .page n) : TableStep s c (s.table.reap me.1 q n)
  | exitProcess {me : Slot} {st : List Frame} (st' : List Frame) (hme : (s.cpu c).thread = some me)
      (hctl : (s.cpu c).ctl = .run (.crit .exitProcess :: st)) :
      TableStep s c (schedTable (s.table.exitProcess me).1 me .ZOMBIE_T st')
  | execDone {me : Slot} {st : List Frame} (hme : (s.cpu c).thread = some me)
      (hctl : (s.cpu c).ctl = .run (.execDone :: st)) :
      TableStep s c (Kernel.execDone s.table me true)

theorem Trans.zombie {a b : Thread} (h : Trans a b) (ha : a.state = .ZOMBIE_T) :
    b.state = .ZOMBIE_T ∨ b.state = .UNUSED_T := by
  cases h with
  | same hs _ => exact .inl (hs.trans ha)
  | wake h' _ _ => simp [ha] at h'
  | make h' _ _ => simp [ha] at h'
  | reap _ hb => exact .inr hb

theorem TableStep.zombie {s : Kernel C} {c : C} (hi : Inv s) (h : TableStep s c T) {t : Slot}
    (ht : (s.table.thread t).state = .ZOMBIE_T) :
    (T.thread t).state = .ZOMBIE_T ∨ (T.thread t).state = .UNUSED_T := by
  cases h with
  | calm hc => exact .inl (hc.zombie t ht)
  | allocproc ok => exact ((Keeps.allocproc hi.table t ok).1.trans t).zombie ht
  | @fork me np st ok hme hctl =>
    have he := hi.frames.forking me _ np (.inl ⟨c, hme, hctl⟩) (by simp [Frame.forks])
    exact ((Keeps.fork hi.table me ok he).1.trans t).zombie ht
  | kthreadCreate ok hme hctl hb =>
    exact ((Keeps.kthreadCreate hi.table ok (hi.cpu.running c _ hme) hb).1.trans t).zombie ht
  | reap hme hctl hq hn =>
    exact ((Keeps.reap hi.table _ _ (zombieChild_spec hq).2).1.trans t).zombie ht
  | @exitProcess me st st' hme hctl =>
    have htm : t ≠ me := by
      rintro rfl
      exact absurd (ht.symm.trans (hi.cpu.running c t hme)) (by decide)
    rw [schedTable_thread, update_of_ne htm]
    exact ((Wakes.exitWakes s.table me.1).toTrans t).zombie ht
  | execDone hme hctl => exact .inl ht

variable [DecidableEq C] {s s' : Kernel C} {c : C} {st : List Frame}

theorem Kernel.crit_table {ok : Bool} {k : Sec} (hlock : s.lock = some c)
    (hn : s.crit c me ok k st = some s') :
    ((∀ x fs, (s.table.crit me ok k).2 ≠ .sched x fs) ∧ s'.table = (s.table.crit me ok k).1) ∨
      ∃ x fs, (s.table.crit me ok k).2 = .sched x fs ∧
        s'.table = schedTable (s.table.crit me ok k).1 me x (fs ++ st) := by
  have heq : s.crit c me ok k st =
      ({ s with table := (s.table.crit me ok k).1 } : Kernel C).finish c me st
      (s.table.crit me ok k).2 := rfl
  rw [heq] at hn
  cases ho : (s.table.crit me ok k).2 with
  | sched x fs =>
    rw [ho] at hn
    simp only [Kernel.finish, Option.some.injEq] at hn
    rw [Kernel.sched_eq hlock] at hn
    exact .inr ⟨x, fs, rfl, by rw [← hn]⟩
  | ret _ | leak _ | goto _ | panic _ =>
    rw [ho] at hn
    cases hn
    exact .inl ⟨by simp, rfl⟩
  | spin =>
    rw [ho] at hn
    cases hn

/-! ## Events -/

omit [DecidableEq C] in
theorem Quiet.crit (T : Table) (me : Slot) (ok : Bool) {k : Sec}
    (hk : k = .growproc ∨ k = .exit ∨ k = .execWake ∨ (∃ tid, k = .kthreadJoin tid) ∨
    ∃ chan, k = .wakeup chan) : Quiet T (T.crit me ok k).1 ∧ (T.crit me ok k).1.proc = T.proc ∧
      ∀ x fs, (T.crit me ok k).2 ≠ .sched x fs := by
  rcases hk with rfl | rfl | rfl | ⟨tid, rfl⟩ | ⟨chan, rfl⟩
  · exact ⟨.refl T, rfl, by simp⟩
  · simp only [Table.crit, Table.exit]
    split_ifs
    · exact ⟨.refl T, rfl, by simp⟩
    · exact ⟨.killThreads T me.1, rfl, by simp⟩
  · exact ⟨.execWake T me, rfl, by simp⟩
  · simp only [Table.crit, Table.kthreadJoin]
    split <;> exact ⟨.refl T, rfl, by simp⟩
  · exact ⟨.wakeup1 T chan, rfl, by simp⟩

inductive Event (s : Kernel C) (c : C) : Act → Table → Prop where
  | quiet {a : Act} {T : Table} (hq : Quiet s.table T) (hp : T.proc = s.table.proc) : Event s c a T
  | fault {me : Slot} (hme : (s.cpu c).thread = some me) : Event s c .fault (s.table.fault me.1)
  | kill {me : Slot} {pid : ℤ} {st : List Frame} (ok : Bool) (hme : (s.cpu c).thread = some me)
      (hctl : (s.cpu c).ctl = .run (.crit (.kill pid) :: st)) :
      Event s c (.go ok) (s.table.kill pid).1
  | sleep {me : Slot} {k : Sec} {st : List Frame} (ok : Bool) {chan : Chan} {fs : List Frame}
      (hme : (s.cpu c).thread = some me) (hctl : (s.cpu c).ctl = .run (.crit k :: st))
      (ho : s.table.crit me ok k = s.table.sleep me chan fs) : Event s c (.go ok)
        (schedTable (s.table.sleep me chan fs).1 me .SLEEPING (.sleepBack :: fs ++ st))
  | exitThread {me : Slot} {st : List Frame} (ok : Bool) (hme : (s.cpu c).thread = some me)
      (hctl : (s.cpu c).ctl = .run (.crit .exitThread :: st))
      (hrun : (s.table.running me.1).length ≠ 0 ∧ (s.table.running me.1).length ≠ 1) :
      Event s c (.go ok) (schedTable (s.table.exitThread me).1 me .ZOMBIE_T st)
  | exitProcess {me : Slot} {st : List Frame} (ok : Bool) (st' : List Frame)
      (hme : (s.cpu c).thread = some me) (hctl : (s.cpu c).ctl = .run (.crit .exitProcess :: st)) :
      Event s c (.go ok) (schedTable (s.table.exitProcess me).1 me .ZOMBIE_T st')
  | allocproc {me : Slot} {st : List Frame} (ok : Bool) (hme : (s.cpu c).thread = some me)
      (hctl : (s.cpu c).ctl = .run (.crit .allocproc :: st)) :
      Event s c (.go ok) (s.table.allocproc ok).1
  | fork {me : Slot} {np : ProcId} {st : List Frame} (ok : Bool) (hme : (s.cpu c).thread = some me)
      (hctl : (s.cpu c).ctl = .run (.crit (.fork np) :: st)) :
      Event s c (.go ok) (s.table.fork me np ok).1
  | kthreadCreate {me : Slot} {st : List Frame} (ok : Bool) (hme : (s.cpu c).thread = some me)
      (hctl : (s.cpu c).ctl = .run (.crit .kthreadCreate :: st))
      (hb : (s.table.proc me.1).tNum < NTHREADS) :
      Event s c (.go ok) (s.table.kthreadCreate me ok).1
  | reap {me : Slot} {st : List Frame} {q : ProcId} {n : ℕ} (ok : Bool)
    (hme : (s.cpu c).thread = some me)
      (hctl : (s.cpu c).ctl = .run (.crit .wait :: st)) (hq : s.table.zombieChild me.1 = some q)
      (hn : (s.table.proc q).pgdir = .page n) : Event s c (.go ok) (s.table.reap me.1 q n)
  | execDone {me : Slot} {st : List Frame} (hme : (s.cpu c).thread = some me)
      (hctl : (s.cpu c).ctl = .run (.execDone :: st)) :
      Event s c (.go true) (Kernel.execDone s.table me true)

omit [DecidableEq C] in
theorem Event.tableStep {a : Act} (hi : Inv s) (h : Event s c a T) : TableStep s c T := by
  cases h with
  | quiet hq hp => exact .calm hq.toCalm
  | fault hme => exact .calm (Quiet.fault _ _).toCalm
  | kill ok hme hctl => exact .calm (Quiet.kill _ _).toCalm
  | sleep ok hme hctl ho =>
    exact .calm ((Wakes.sleep _ _ _ _).calm.setThread (.inl (hi.cpu.running c _ hme)) rfl (by simp))
  | exitThread ok hme hctl hrun =>
    exact .calm ((Wakes.exitThread _ _).calm.setThread (.inl (hi.cpu.running c _ hme)) rfl
      (by simp))
  | exitProcess ok st' hme hctl => exact .exitProcess st' hme hctl
  | allocproc ok hme hctl => exact .allocproc ok
  | fork ok hme hctl => exact .fork ok hme hctl
  | kthreadCreate ok hme hctl hb => exact .kthreadCreate ok hme hctl hb
  | reap ok hme hctl hq hn => exact .reap hme hctl hq hn
  | execDone hme hctl => exact .execDone hme hctl

theorem Inv.crit_asleep (hi : Inv s) (hme : (s.cpu c).thread = some me) {ok : Bool} {k : Sec}
    (chan : Chan) (fs : List Frame) (hctl : (s.cpu c).ctl = .run (.crit k :: st))
    (ho : s.table.crit me ok k = s.table.sleep me chan fs) (hn : s.crit c me ok k st = some s') :
    Event s c (.go ok) s'.table := by
  rcases Kernel.crit_table (hi.at_crit hctl).1 hn with ⟨h, -⟩ | ⟨x, fs', h, he⟩
  · exact absurd (congrArg Prod.snd ho) (h _ _)
  · rw [ho] at h he
    cases h
    rw [he]
    exact .sleep ok hme hctl ho

theorem Inv.crit_event (hi : Inv s) (hme : (s.cpu c).thread = some me) {ok : Bool} {k : Sec}
    (hctl : (s.cpu c).ctl = .run (.crit k :: st))
    (hb : k = .kthreadCreate → (s.table.proc me.1).tNum < NTHREADS)
    (hn : s.crit c me ok k st = some s') : Event s c (.go ok) s'.table := by
  have ht := Kernel.crit_table (hi.at_crit hctl).1 hn
  -- a section that returns
  have hret : ∀ {T o}, s.table.crit me ok k = (T, o) → (∀ x fs, o ≠ .sched x fs) →
    Event s c (.go ok) T →
      Event s c (.go ok) s'.table := fun {T o} h hno hT => by
    rw [h] at ht
    rcases ht with ⟨-, he⟩ | ⟨x, fs, ho, -⟩
    · rw [he]
      exact hT
    · exact absurd ho (hno x fs)
  have hquiet : (k = .growproc ∨ k = .exit ∨ k = .execWake ∨ (∃ tid, k = .kthreadJoin tid) ∨
      ∃ chan, k = .wakeup chan) → Event s c (.go ok) s'.table := fun hk => by
    obtain ⟨hq, hp, hno⟩ := Quiet.crit s.table me ok hk
    exact hret rfl hno (.quiet hq hp)
  cases k with
  | allocproc =>
    have hno : ∀ x fs, (s.table.allocproc ok).2 ≠ .sched x fs := fun x fs => by
      unfold Table.allocproc
      split
      · simp
      · split_ifs <;> simp
    exact hret rfl hno (.allocproc ok hme hctl)
  | fork np => exact hret rfl (fun x fs h => by cases ok <;> cases h) (.fork ok hme hctl)
  | kthreadCreate =>
    exact hret rfl (fun x fs h => by cases ok <;> cases h) (.kthreadCreate ok hme hctl (hb rfl))
  | kill pid =>
    have hno : ∀ x fs, (s.table.kill pid).2 ≠ .sched x fs := fun x fs => by
      unfold Table.kill
      split <;> simp
    exact hret rfl hno (.kill ok hme hctl)
  | exitProcess =>
    rcases ht with ⟨hns, -⟩ | ⟨x, fs, ho, he⟩
    · exact absurd rfl (hns _ _)
    · cases ho
      rw [he]
      exact .exitProcess ok _ hme hctl
  | wait =>
    rcases s.table.wait_cases me with ⟨q, n, hq, hpg, hr⟩ | hr | hr | hr
    · exact hret hr (by simp) (.reap ok hme hctl hq hpg)
    · exact hret hr (by simp) (.quiet (.refl _) rfl)
    · exact hret hr (by simp) (.quiet (.refl _) rfl)
    · exact hi.crit_asleep hme _ _ hctl hr hn
  | joinLoop t =>
    cases hst : (s.table.thread t).state with
    | ZOMBIE_T =>
      exact hret (o := .ret 0) (by simp [hst]) (by simp) (.quiet (.refl _) rfl)
    | UNUSED_T =>
      exact hret (o := .spin) (by simp [hst]) (by simp) (.quiet (.refl _) rfl)
    | _ =>
      refine hi.crit_asleep hme (.thread t) [.crit (.joinLoop t)] hctl ?_ hn
      simp [hst]
  | sleep chan => exact hi.crit_asleep hme chan [.release] hctl rfl hn
  | yield =>
    rcases ht with ⟨hns, -⟩ | ⟨x, fs, ho, he⟩
    · exact absurd rfl (hns _ _)
    · cases ho
      rw [he]
      exact .quiet (.setThread (.inl (hi.cpu.running c me hme)) rfl rfl (.inr rfl)) rfl
  | exitThread =>
    by_cases h0 : (s.table.running me.1).length = 0
    · have hout : s.table.crit me ok .exitThread = (s.table, .panic .noRunningThread) := by
        simp [h0]
      exact hret hout (by simp) (.quiet (.refl _) rfl)
    · by_cases h1 : (s.table.running me.1).length = 1
      · have hout : s.table.crit me ok .exitThread = (s.table, .goto [.release, .exitProcess]) := by
          simp [h1]
        exact hret hout (by simp) (.quiet (.refl _) rfl)
      · have hout : (s.table.crit me ok .exitThread).2 = .sched .ZOMBIE_T [] := by
          simp [h0, h1]
        rcases ht with ⟨hns, -⟩ | ⟨x, fs, ho, he⟩
        · exact absurd hout (hns _ _)
        · rw [hout] at ho
          cases ho
          rw [he]
          exact .exitThread ok hme hctl ⟨h0, h1⟩
  | growproc => exact hquiet (.inl rfl)
  | exit => exact hquiet (.inr (.inl rfl))
  | execWake => exact hquiet (.inr (.inr (.inl rfl)))
  | kthreadJoin tid => exact hquiet (.inr (.inr (.inr (.inl ⟨tid, rfl⟩))))
  | wakeup chan => exact hquiet (.inr (.inr (.inr (.inr ⟨chan, rfl⟩))))

omit [DecidableEq C] in
theorem Frame.Goes.event (hi : Inv s) (hme : (s.cpu c).thread = some me) {ok : Bool} {f : Frame}
    {fs : List Frame} (hctl : (s.cpu c).ctl = .run (f :: st)) (h : f.Goes s me ok T fs) :
    Event s c (.go ok) T := by
  cases h with
  | sleepBack =>
    have hrun := hi.cpu.running c me hme
    exact .quiet (.setThread (f := fun th => { th with chan := .null }) (.inl hrun) rfl rfl
      (.inl hrun)) rfl
  | mark _ =>
    unfold Table.execMark
    split_ifs
    · exact .quiet (.setKilled _ _ true) rfl
    · exact .quiet (.refl _) rfl
  | execDone =>
    cases ok with
    | true => exact .execDone hme hctl
    | false => exact .quiet (.refl _) rfl
  | trapExit _ | enter _ | kernel | marked _ | check _ | again _ | alone _ | exitProcess _ =>
    exact .quiet (.refl _) rfl

theorem Inv.event (hi : Inv s) {a : Act} (hok : inBounds s (c, a)) (hn : s.next c a = some s') :
    Event s c a s'.table := by
  cases Kernel.next_step hn with
  | crit hme hctl hn =>
    refine hi.crit_event hme hctl ?_ hn
    rintro rfl
    simpa [inBounds, hme, hctl] using hok
  | acquire _ _ | deadlock _ _ | panic _ _ _ => exact .quiet (.refl _) rfl
  | release _ =>
    rw [Kernel.release_table]
    exact .quiet (.refl _) rfl
  | frame hme hctl hf => exact hf.event hi hme hctl
  | push _ h =>
    cases h with
    | fault hme => exact .fault hme
    | syscall _ | tick | timer _ | interrupt _ _ | sleep _ | wakeup _ => exact .quiet (.refl _) rfl
  | idle h =>
    generalize (s.cpu c).ctl = k at h
    cases h with
    | wakeup n => exact .quiet (.wakeup1 _ _) rfl
    | interrupt _ | used _ | unused _ | thread _ _ | proc _ _ => exact .quiet (.refl _) rfl
  | switch hi hctl hr =>
    exact .quiet (.setThread (f := fun th => { th with state := .RUNNING }) (.inr hr) rfl rfl
      (.inl rfl)) rfl

theorem Inv.tableStep (hi : Inv s) {a : Act} (hok : inBounds s (c, a))
    (hn : s.next c a = some s') : TableStep s c s'.table :=
  (hi.event hok hn).tableStep hi

end Xv6.Ptable
