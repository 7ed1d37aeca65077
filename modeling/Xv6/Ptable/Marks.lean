import Xv6.Ptable.Exclusive
import Xv6.Ptable.Kill

/-!
# Marking all threads of a process

`exit` and `kill` mark all threads of a process killed, in one section.  A thread that is already in
`kthread_create` then may still make a new one, which is not marked (`exit_misses_thread`).
-/

namespace Xv6.Ptable

open Function Table Machine.Sys Kernel Option Bool

variable {C : Type} {s s' : Kernel C} {c : C} {me t : Slot} {T T' : Table} {a : Act} {p : ProcId}
    {st : List Frame}

/-! ## Marks stay -/

/-- No thread that is alive loses its mark. -/
def KillKept (T T' : Table) : Prop :=
  ∀ t, (T.thread t).state.alive → (T.thread t).killed → (T'.thread t).killed

theorem KillKept.refl (T : Table) : KillKept T T := fun _ _ hk => hk

theorem KillKept.mapThread {f : Slot → Thread → Thread}
    (h : ∀ t, (T.thread t).killed → (f t (T.thread t)).killed) : KillKept T (T.mapThread f) :=
  fun t _ hk => h t hk

theorem KillKept.setThread {f : Thread → Thread}
    (h : (T.thread t).killed → (f (T.thread t)).killed) : KillKept T (T.setThread t f) := by
  intro u _ hk
  by_cases hut : u = t
  · subst hut
    simpa [Table.setThread] using h hk
  · simpa [Table.setThread, hut] using hk

theorem Thread.wake_killed (th : Thread) : th.wake.killed = th.killed := by
  unfold Thread.wake
  split_ifs <;> rfl

theorem Table.wakeup1_killed (T : Table) (chan : Chan) (t : Slot) :
    ((T.wakeup1 chan).thread t).killed = (T.thread t).killed := by
  simp only [wakeup1, mapThread]
  split_ifs <;> rfl

theorem Table.killThreads_killed (T : Table) (p : ProcId) (t : Slot) :
    ((T.killThreads p).thread t).killed = (decide (t.1 = p ∧ T.below t) ||
      (T.thread t).killed) := by
  simp only [killThreads, mapThread]
  split_ifs with h <;> simp [h]

theorem KillKept.crit (hT : TableOk T) (me : Slot) (ok : Bool) {k : Sec}
    (hb : k = .kthreadCreate → (T.proc me.1).tNum < NTHREADS) : KillKept T (T.crit me ok k).1 := by
  have hsleep : ∀ chan fs, KillKept T (T.sleep me chan fs).1 := fun chan fs =>
    .setThread (f := fun th => { th with chan := chan }) id
  have hwake : ∀ chan, KillKept T (T.wakeup1 chan) := fun chan t _ hk => by rwa [wakeup1_killed]
  -- a thread that is alive is not in the slot of a new one
  have hnew : ∀ {t u : Slot} {th : Thread}, (T.thread u).state.alive = false →
    (T.thread t).state.alive →
      (T.thread t).killed → (update T.thread u th t).killed := fun hu ht hk => by
    rw [update_of_ne]
    · exact hk
    · rintro rfl
      simp [hu] at ht
  cases k with
  | allocproc =>
    intro t ht hk
    simp only [Table.crit]
    cases hf : T.findUnused with
    | none => rwa [allocproc_none hf]
    | some q =>
      rw [(allocproc_some hf ok).2.1]
      refine hnew ?_ ht hk
      rw [hT.unused _ (show (T.proc (Table.slot0 q).1).state = .UNUSED from findUnused_spec hf)]
      rfl
  | kthreadCreate =>
    intro t ht hk
    simp only [Table.crit]
    rw [Table.kthreadCreate_fst, Table.allocthread_thread (hb rfl)]
    refine hnew ?_ ht hk
    rw [hT.above _ (by simp [Table.below])]
    rfl
  | fork np =>
    cases ok with
    | true =>
      exact KillKept.setThread (T := T.setProc np _) (f := fun th => { th with state := .RUNNABLE })
        id
    | false =>
      exact KillKept.setThread (T := (T.free _).setProc np _)
        (f := fun th => { th with kstack := none, state := .UNUSED_T }) id
  | wait =>
    simp only [Table.crit]
    rcases T.wait_cases me with ⟨q, n, -, -, hr⟩ | hr | hr | hr <;> rw [hr]
    · intro t ht hk
      rw [reap_thread, if_neg]
      · exact hk
      · rintro ⟨-, -, hz⟩
        simp [hz, ThreadState.alive] at ht
    · exact .refl T
    · exact .refl T
    · exact hsleep _ _
  | kill pid =>
    simp only [Table.crit, Table.kill]
    split
    · exact .refl T
    · intro t _ hk
      rw [killThreads_killed]
      simp [Table.setProc, hk]
  | exit =>
    simp only [Table.crit, Table.exit]
    split_ifs
    · exact .refl T
    · intro t _ hk
      rw [killThreads_killed]
      simp [hk]
  | exitThread =>
    intro t _ hk
    simp only [Table.crit, Table.exitThread]
    split_ifs <;> simpa only [wakeup1_killed] using hk
  | exitProcess =>
    intro t _ hk
    show ((T.exitWakes me.1).thread t).killed
    simp only [Table.exitWakes]
    split_ifs <;> simpa only [wakeup1_killed] using hk
  | kthreadJoin tid =>
    simp only [Table.crit, Table.kthreadJoin]
    split <;> exact .refl T
  | joinLoop u =>
    simp only [Table.crit, Table.joinLoop]
    split
    · exact .refl T
    · exact .refl T
    · exact hsleep _ _
  | execWake =>
    refine .mapThread fun t hk => ?_
    split_ifs
    · rwa [Thread.wake_killed]
    · exact hk
  | sleep chan => exact hsleep _ _
  | wakeup chan => exact hwake chan
  | growproc | yield => exact .refl T

section Steps

variable [DecidableEq C]

theorem KillKept.next (hi : Inv s) (hok : inBounds s (c, a)) (hn : s.next c a = some s') :
    KillKept s.table s'.table := by
  cases next_step hn with
  | @crit me ok k st _ hme hctl hn =>
    have hkept := KillKept.crit hi.table me ok (k := k) fun hk => by
      simpa [inBounds, hme, hctl, hk] using hok
    rcases crit_table (hi.at_crit hctl).1 hn with ⟨-, he⟩ | ⟨x, fs, -, he⟩ <;> rw [he]
    · exact hkept
    · intro t ht hk
      rw [schedTable_thread]
      by_cases htm : t = me
      · subst htm
        simpa using hkept t ht hk
      · rw [update_of_ne htm]
        exact hkept t ht hk
  | acquire _ _ | deadlock _ _ | panic _ _ _ => exact .refl _
  | release _ =>
    rw [release_table]
    exact .refl _
  | @frame _ ok _ _ _ _ _ _ hf =>
    cases hf with
    | sleepBack => exact .setThread (f := fun th => { th with chan := .null }) id
    | mark _ =>
      show KillKept s.table (execMark _ _ _)
      unfold execMark
      split_ifs
      · exact .setThread fun _ => rfl
      · exact .refl _
    | execDone => cases ok <;> exact .refl _
    | trapExit _ | enter _ | kernel | marked _ | check _ | again _ | alone _ | exitProcess _ =>
      exact .refl _
  | push _ hp =>
    cases hp with
    | fault hme =>
      intro t _ hk
      show (if _ then _ else _ : Thread).killed
      split_ifs
      · rfl
      · exact hk
    | syscall _ | tick | timer _ | interrupt _ _ | sleep _ | wakeup _ => exact .refl _
  | idle hk =>
    generalize (s.cpu c).ctl = k₀ at hk
    cases hk with
    | wakeup n =>
      intro t _ hk
      show ((s.table.wakeup1 _).thread t).killed
      rwa [wakeup1_killed]
    | interrupt _ | used _ | unused _ | thread _ _ | proc _ _ => exact .refl _
  | switch _ _ _ => exact .setThread (f := fun th => { th with state := .RUNNING }) id

end Steps

/-! ## New threads -/

/-- A thread comes to life only in `kthread_create`, in the next slot of the process, and in
`allocproc`. -/
theorem Event.born (he : Event s c a T) (hi : Inv s) (ht : (s.table.thread t).state.alive = false)
    (ht' : (T.thread t).state.alive) :
    (∃ me st, (s.cpu c).thread = some me ∧ (s.cpu c).ctl = .run (.crit .kthreadCreate :: st) ∧
      (∃ ok, a = .go ok) ∧ t.1 = me.1 ∧ t.2.val = (s.table.proc me.1).tNum) ∨
    (s.table.proc t.1).state = .UNUSED ∧ ∃ st, (s.cpu c).ctl = .run (.crit .allocproc :: st) := by
  have hcalm : Calm s.table T → False := fun hc => by
    rcases ThreadState.dead_cases ht with h | h
    · simp [(hc.unused t).2 h, ThreadState.alive] at ht'
    · simp [hc.zombie t h, ThreadState.alive] at ht'
  have hsame : (T.thread t).state = (s.table.thread t).state → False :=
    fun h => by simp [h, ht] at ht'
  have hstep := he.tableStep hi
  cases he with
  | quiet hq _ => exact (hcalm hq.toCalm).elim
  | fault hme => exact (hcalm (Quiet.fault _ _).toCalm).elim
  | kill ok hme hctl => exact (hcalm (Quiet.kill _ _).toCalm).elim
  | sleep ok hme hctl ho =>
    exact (hcalm ((Wakes.sleep _ _ _ _).calm.setThread (.inl (hi.cpu.running c _ hme)) rfl
      (by simp))).elim
  | exitThread ok hme hctl hrun =>
    exact (hcalm ((Wakes.exitThread _ _).calm.setThread (.inl (hi.cpu.running c _ hme)) rfl
      (by simp))).elim
  | @exitProcess me st ok st' hme hctl =>
    rw [schedTable_thread] at ht'
    by_cases htm : t = me
    · subst htm
      simp [ThreadState.alive] at ht'
    · rw [update_of_ne htm] at ht'
      exact absurd ((Wakes.exitWakes s.table me.1).alive t ▸ ht') (by simp [ht])
  | @allocproc me st ok hme hctl =>
    refine .inr ⟨?_, st, hctl⟩
    cases hf : s.table.findUnused with
    | none => exact (hsame (by rw [allocproc_none hf])).elim
    | some q =>
      by_cases htq : t = Table.slot0 q
      · rw [htq]
        exact findUnused_spec hf
      · refine (hsame ?_).elim
        rw [(allocproc_some hf ok).2.1, update_of_ne htq]
  | @fork me np st ok hme hctl =>
    have hemb := hi.frames.forking me _ np (.inl ⟨c, hme, hctl⟩) (by simp [Frame.forks])
    have htn : t ≠ Table.slot0 np := by
      rintro rfl
      simp [hemb, ThreadState.alive] at ht
    refine (hsame ?_).elim
    cases ok <;> simp [Table.fork, Table.setThread, Table.setProc, Table.free, htn]
  | @kthreadCreate me st ok hme hctl hb =>
    refine .inl ⟨me, st, hme, hctl, ⟨ok, rfl⟩, ?_⟩
    rw [Table.kthreadCreate_fst, Table.allocthread_thread hb] at ht'
    by_cases htn : t = (me.1, ⟨(s.table.proc me.1).tNum, hb⟩)
    · rw [htn]
      exact ⟨rfl, rfl⟩
    · rw [update_of_ne htn] at ht'
      simp [ht] at ht'
  | @reap me st q n ok hme hctl hq hn =>
    rw [reap_thread] at ht'
    split_ifs at ht'
    · simp [ThreadState.alive] at ht'
    · simp [ht] at ht'
  | execDone hme hctl => exact (hsame rfl).elim

/-! ## Pids -/

/-- Processes in use have positive pids, and free slots have pid 0, as long as sections can run. -/
structure PidsOk (s : Kernel C) : Prop where
  next : 0 < s.table.nextpid
  used : ∀ p, (s.table.proc p).state ≠ .UNUSED → 0 < (s.table.proc p).pid
  free : Stuck s ∨ ∀ p, (s.table.proc p).state = .UNUSED → (s.table.proc p).pid = 0

theorem PidsOk.boot (base : ℤ) : PidsOk (Kernel.boot C base) := by
  refine ⟨by simp [Kernel.boot, userinit], fun p hu => ?_, .inr fun p hu => ?_⟩
  · by_cases hp : p.val = 0 <;> simp [Kernel.boot, userinit, hp] at hu ⊢
  · by_cases hp : p.val = 0 <;> simp [Kernel.boot, userinit, hp] at hu ⊢

theorem PidsOk.next_ok [DecidableEq C] (h : PidsOk s) (hi : Inv s) (hok : sound s (c, a))
    (hn : s.next c a = some s') : PidsOk s' := by
  have hstep := (hi.event (inBounds_of_sound hok) hn).procStep hi
  refine ⟨h.next.trans_le (hstep s.table.initproc).2, fun p hu => ?_, ?_⟩
  · cases (hstep p).1 with
    | same hs hp _ _ => exact hp ▸ h.used p (hs ▸ hu)
    | mark _ _ hs hp _ => exact hp ▸ h.used p (hs ▸ hu)
    | zombie _ hu' _ hp _ => exact hp ▸ h.used p (by simp [hu'])
    | make _ _ _ _ hp _ => exact hp ▸ h.next
    | undo _ _ _ hs _ => exact absurd hs hu
    | reap _ hs _ _ => exact absurd hs hu
  · rcases h.free with hstuck | hfree
    · exact .inl (hstuck.next hok hn)
    · by_cases hfork : ∃ np st, (s.cpu c).ctl = .run (.crit (.fork np) :: st) ∧ a = .go false
      · obtain ⟨np, st, hctl, rfl⟩ := hfork
        cases hme : (s.cpu c).thread with
        | none => simp [Kernel.next, Kernel.go, hctl, hme] at hn
        | some me => exact .inl (Stuck.of_fork hi hme hctl hn)
      · refine .inr fun p hu => ?_
        cases (hstep p).1 with
        | same hs hp _ _ => exact hp.trans (hfree p (hs ▸ hu))
        | mark _ _ hs hp _ => exact hp.trans (hfree p (hs ▸ hu))
        | zombie _ _ hs _ _ => simp [hs] at hu
        | make _ _ _ hs _ _ => simp [hs] at hu
        | undo _ hctl ha _ _ => exact absurd ⟨p, _, hctl, ha⟩ hfork
        | reap _ _ hp _ => exact hp

theorem PidsOk.kill_finds (h : PidsOk s) (hi : Inv s) (ho : Owned s.table) {pid : ℤ}
    (hctl : (s.cpu c).ctl = .run (.crit (.kill pid) :: st)) (hp : (s.table.proc p).state = .USED)
    (hpid : (s.table.proc p).pid = pid) :
    (List.finRange NPROC).find? (fun q => (s.table.proc q).pid == pid) = some p := by
  have hfree := h.free.resolve_left fun hstuck => hstuck.not_crit hi c _ st hctl
  cases hf : (List.finRange NPROC).find? (fun q => (s.table.proc q).pid == pid) with
  | none => exact absurd hpid (by simpa using List.find?_eq_none.1 hf p (List.mem_finRange p))
  | some q =>
    have hq : (s.table.proc q).pid = pid := by simpa using List.find?_some hf
    have hused : (s.table.proc q).state ≠ .UNUSED := fun hu => by
      have hpos := h.used p (by simp [hp])
      rw [hpid, ← hq, hfree q hu] at hpos
      exact absurd hpos (lt_irrefl 0)
    exact congrArg some (ho.pids.unique q p pid ⟨hused, hq⟩ ⟨by simp [hp], hpid⟩)

/-! ## Marking a process -/

def Table.allKilled (T : Table) (p : ProcId) : Prop :=
  ∀ t, t.1 = p → (T.thread t).state.alive → (T.thread t).killed

/-- CPU `c` is in the section of `exit`, for a thread of `p` that is not marked, or of `kill` with
the pid of `p`. -/
inductive MarksAll (s : Kernel C) (c : C) : ProcId → Prop where
  | exit {me : Slot} {st : List Frame} (hme : (s.cpu c).thread = some me)
      (hctl : (s.cpu c).ctl = .run (.crit .exit :: st)) (hk : (s.table.thread me).killed = false) :
      MarksAll s c me.1
  | kill {me : Slot} {p : ProcId} {st : List Frame} (hme : (s.cpu c).thread = some me)
      (hctl : (s.cpu c).ctl = .run (.crit (.kill (s.table.proc p).pid) :: st))
      (hp : (s.table.proc p).state = .USED) : MarksAll s c p

/-- `kthread_create` enters its section only for a thread that is not marked killed. -/
def createUnkilled (s : Kernel C) (a : C × Act) : Bool :=
  match a.2, (s.cpu a.1).thread, (s.cpu a.1).ctl with
  | .go _, some me, .run (.crit .kthreadCreate :: _) => !(s.table.thread me).killed
  | _, _, _ => true

def careful (s : Kernel C) (a : C × Act) : Bool := sound s a && createUnkilled s a

theorem TableOk.allKilled_killThreads (hT : TableOk T) (p : ProcId) :
    (T.killThreads p).allKilled p := by
  intro t htp ht
  rw [(Wakes.killThreads T p).alive] at ht
  have hbelow : T.below t := hT.below fun h => by simp [h, ThreadState.alive] at ht
  rw [killThreads_killed]
  simp [htp, hbelow]

variable [DecidableEq C]

theorem MarksAll.allKilled (h : MarksAll s c p) (hi : Inv s) (ho : Owned s.table) (hpids : PidsOk s)
    {ok : Bool} (hn : s.next c (.go ok) = some s') : s'.table.allKilled p ∧
    (s'.table.proc p).state ≠ .UNUSED := by
  cases h with
  | @exit me st hme hctl hk =>
    have hused := hi.table.alive me (by rw [hi.cpu.running c _ hme]; rfl)
    simp only [Kernel.next, Kernel.go, hctl, hme, Kernel.frame, Kernel.crit, Table.crit, Table.exit,
      hk, false_eq_true, if_false, Kernel.finish, some.injEq] at hn
    subst hn
    exact ⟨hi.table.allKilled_killThreads
      me.1, by simp [Kernel.setCtl, Table.killThreads, Table.mapThread, hused]⟩
  | @kill me p st hme hctl hp =>
    have hfind := hpids.kill_finds hi ho hctl hp rfl
    simp only [Kernel.next, Kernel.go, hctl, hme, Kernel.frame, Kernel.crit, Table.crit, Table.kill,
      hfind, Kernel.finish, some.injEq] at hn
    subst hn
    have hT := (Wakes.setKilled s.table p true).tableOk hi.table
    exact ⟨hT.allKilled_killThreads p, by
      simp [Kernel.setCtl, Table.killThreads, Table.mapThread, Table.setProc, hp]⟩

theorem allKilled_next (hi : Inv s) (hall : s.table.allKilled p)
    (hp : (s.table.proc p).state ≠ .UNUSED ∨ Stuck s) (hz : (s.table.proc p).state ≠ .ZOMBIE)
    (hok : careful s (c, a)) (hn : s.next c a = some s') :
    s'.table.allKilled p ∧ ((s'.table.proc p).state ≠ .UNUSED ∨ Stuck s') := by
  obtain ⟨hsound, hcreate⟩ := (and_eq_true _ _).mp hok
  have he := hi.event (inBounds_of_sound hsound) hn
  constructor
  · intro t htp ht'
    cases ht : (s.table.thread t).state.alive with
    | true => exact KillKept.next hi (inBounds_of_sound hsound) hn t ht (hall t htp ht)
    | false =>
      rcases he.born hi ht ht' with ⟨me, st, hme, hctl, ⟨ok, rfl⟩, htm, -⟩ | ⟨hu, st, hctl⟩
      · -- the thread that makes it is marked
        have hk := hall me (htm.symm.trans htp) (by rw [hi.cpu.running c _ hme]; rfl)
        simp [createUnkilled, hme, hctl, hk] at hcreate
      · have hstuck := hp.resolve_left fun h => h (htp ▸ hu)
        exact absurd hctl (hstuck.not_crit hi c _ st)
  · rcases hp with hp | hstuck
    · cases (he.procStep hi p).1 with
      | same hs _ _ _ => exact .inl (hs ▸ hp)
      | mark _ _ hs _ _ => exact .inl (hs ▸ hp)
      | zombie _ _ hs _ _ => exact .inl (by simp [hs])
      | make _ _ _ hs _ _ => exact .inl (by simp [hs])
      | undo hme hctl ha _ _ =>
        subst ha
        exact .inr (Stuck.of_fork hi hme hctl hn)
      | reap hz' _ _ _ => exact absurd hz' hz
    · exact .inr (hstuck.next hsound hn)

theorem PidsOk.of_reachable (h : (kernelSys C).ReachableVia (fun s a => sound s a) s) :
    Inv s ∧ Owned s.table ∧ PidsOk s := by
  refine h.invariant (I := fun s => Inv s ∧ Owned s.table ∧ PidsOk s) (fun s hs => ?_)
    fun s a s' ⟨hi, ho, hp⟩ hok hn => ?_
  · obtain ⟨base, rfl⟩ := hs
    exact ⟨Inv.boot base, Owned.userinit base, PidsOk.boot base⟩
  · exact ⟨hi.next hok hn, ho.tableStep hi (hi.tableStep (inBounds_of_sound hok) hn),
      hp.next_ok hi hok hn⟩

/-- Once `exit` or `kill` has left its section, every thread of the process that is alive is marked
killed, in every state up to the one where the process is a ZOMBIE. -/
theorem exit_kill_reach_all (h : (kernelSys C).ReachableVia (fun s a => careful s a) s)
    (hm : MarksAll s c p) {ok : Bool} {s₁ : Kernel C} (hn : s.next c (.go ok) = some s₁)
    {l : List (C × Act)}
    (hl : (kernelSys C).runVia (fun s a => careful s a && (s.table.proc p).state != .ZOMBIE) s₁ l =
    some s') : ∀ t, t.1 = p → (s'.table.thread t).state.alive → (s'.table.thread t).killed := by
  obtain ⟨hi, ho, hpids⟩ := PidsOk.of_reachable (h.mono fun s a hok => ((and_eq_true _ _).mp hok).1)
  have hsound : sound s (c, .go ok) := by
    cases hm with
    | exit hme hctl hk => simp [sound, inBounds, execUnkilled, hme, hctl]
    | kill hme hctl hp => simp [sound, inBounds, execUnkilled, hme, hctl]
  obtain ⟨hall, hp⟩ := hm.allKilled hi ho hpids hn
  have hrun := runVia_induction (M := kernelSys C)
    (I := fun _ u => Inv u ∧ u.table.allKilled p ∧ ((u.table.proc p).state ≠ .UNUSED ∨ Stuck u))
    ⟨hi.next hsound hn, hall, .inl hp⟩ (fun _ u b u' _ hI hok hu => ?_) hl
  · exact hrun.2.1
  · obtain ⟨hiu, hau, hpu⟩ := hI
    obtain ⟨hok, hz⟩ := (and_eq_true _ _).mp hok
    exact ⟨hiu.next ((and_eq_true _ _).mp hok).1 hu,
      allKilled_next hiu hau hpu (by simpa using hz) hok hu⟩

/-! ## Two threads -/

def twoThreads : List (Fin 2 × Act) :=
  startUser 0 ++ callOn 0 .kthreadCreate (List.replicate 6 true) ++ startUser 1

/-- The first thread is then about to enter the section of `kthread_create`, and the second one in
that of `exit`. -/
def createAndExit : List (Fin 2 × Act) :=
  twoThreads ++ callOn 0 .kthreadCreate [true, true] ++ callOn 1 .exit [true, true, true]

/-- `exit` by the second thread reaches the first one. -/
theorem exit_kill_reach_all_exit :
    ∃ s s₁ s' : Kernel (Fin 2), (kernelSys (Fin 2)).ReachableVia (fun s a => careful s a) s ∧
      MarksAll s 1 (initSlot 1).1 ∧ s.next 1 (.go true) = some s₁ ∧ s₁.next 1 (.go true) = some s' ∧
      (s'.table.thread (initSlot 0)).state = .RUNNING ∧ (s'.table.thread (initSlot 0)).killed := by
  have hrun : ((kernelSys (Fin 2)).runVia careful (.boot _ 0)
    (twoThreads ++ callOn 1 .exit [true, true, true])).any
      (fun s => decide ((s.cpu 1).thread = some (initSlot 1) ∧
        (s.cpu 1).ctl = .run [.crit .exit, .trapExit] ∧
        (s.table.thread (initSlot 1)).killed = false) &&
        (s.next 1 (.go true)).any fun s₁ => ((kernelSys (Fin 2)).runVia (fun s a =>
          careful s a && (s.table.proc (initSlot 1).1).state != .ZOMBIE) s₁ [(1, .go true)]).any
          fun s' =>
            decide ((s'.table.thread (initSlot 0)).state = .RUNNING)) := by decide +kernel
  obtain ⟨s, hs, hp⟩ := (any_eq_true _ _).1 hrun
  rw [and_eq_true, any_eq_true] at hp
  obtain ⟨hat, s₁, hn, hp⟩ := hp
  obtain ⟨s', hl, hst⟩ := (any_eq_true _ _).1 hp
  obtain ⟨hme, hctl, hk⟩ := of_decide_eq_true hat
  have hst := of_decide_eq_true hst
  have hreach := reachableVia_of_runVia (M := kernelSys (Fin 2)) (.init ⟨0, rfl⟩) hs
  have hn' : s₁.next 1 (.go true) = some s' := by
    simp only [runVia] at hl
    split_ifs at hl
    simpa [kernelSys, bind_eq_some_iff] using hl
  exact ⟨s, s₁, s', hreach, .exit hme hctl hk, hn, hn', hst,
    exit_kill_reach_all hreach (.exit hme hctl hk) hn hl (initSlot 0) rfl (by rw [hst]; rfl)⟩

/-- `exit` has marked both threads of the process and released the lock; the process is not a
ZOMBIE, and the thread that `kthread_create` has made meanwhile is not marked. -/
theorem exit_misses_thread :
    ∃ s s₁ s' : Kernel (Fin 2), (kernelSys (Fin 2)).Reachable s ∧ MarksAll s 1 (initSlot 1).1 ∧
      s.next 1 (.go true) = some s₁ ∧
      (kernelSys (Fin 2)).runVia (fun s _ => (s.table.proc (initSlot 1).1).state != .ZOMBIE) s₁
        [(1, .go true), (0, .go true), (0, .go true), (0, .go true)] = some s' ∧
      (s'.table.thread (initSlot 2)).state = .RUNNABLE ∧
      (s'.table.thread (initSlot 2)).killed = false := by
  have hrun : ((kernelSys (Fin 2)).run (.boot _ 0) createAndExit).any
      (fun s => decide ((s.cpu 1).thread = some (initSlot 1) ∧
        (s.cpu 1).ctl = .run [.crit .exit, .trapExit] ∧
        (s.table.thread (initSlot 1)).killed = false) &&
        (s.next 1 (.go true)).any fun s₁ => ((kernelSys (Fin 2)).runVia (fun s _ =>
          (s.table.proc (initSlot 1).1).state != .ZOMBIE) s₁
            [(1, .go true), (0, .go true), (0, .go true), (0, .go true)]).any fun s' =>
            decide ((s'.table.thread (initSlot 2)).state = .RUNNABLE ∧
              (s'.table.thread (initSlot 2)).killed = false)) := by decide +kernel
  obtain ⟨s, hreach, -, hp⟩ := reachable_of_run_any hrun
  rw [and_eq_true, any_eq_true] at hp
  obtain ⟨hat, s₁, hn, hp⟩ := hp
  obtain ⟨s', hl, hst⟩ := (any_eq_true _ _).1 hp
  obtain ⟨hme, hctl, hk⟩ := of_decide_eq_true hat
  exact ⟨s, s₁, s', hreach, .exit hme hctl hk, hn, hl, of_decide_eq_true hst⟩

end Xv6.Ptable
