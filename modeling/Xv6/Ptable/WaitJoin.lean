import Xv6.Ptable.Death
import Xv6.Ptable.Exclusive
import Xv6.Ptable.Stacks

/-!
# Waiting for a child and joining a thread

`wait` sleeps on the address of its process and `kthread_join` on that of the thread.  A child that
becomes ZOMBIE wakes the threads of its parent, in `exit_process`; a thread that becomes ZOMBIE_T
wakes those that join it, in `exit_thread`, except if it is the last one of its process, when no
thread is left that could join it.
-/

namespace Xv6.Ptable

open Function List Table Machine.Sys Prod

variable {C : Type} {s s' : Kernel C} {c : C} {me : Slot} {T T' : Table}

attribute [local simp] Table.setProc Table.setThread Table.free Table.sleep Table.fork Kernel.boot

/-! ## Kernel stacks -/

/-- `kthread_join` waits for a thread of the same process, and other code sleeps on other
channels. -/
def Frame.fits (me : Slot) : Frame → Bool
  | crit (.joinLoop t) | acquire (.joinLoop t) => t.1 == me.1
  | crit (.sleep (.other _)) | acquire (.sleep (.other _)) => true
  | crit (.sleep _) | acquire (.sleep _) => false
  | _ => true

structure Fits (s : Kernel C) : Prop where
  run : ∀ c t st, (s.cpu c).thread = some t → (s.cpu c).ctl = .run st → st.all (Frame.fits t)
  saved : ∀ t, (s.table.thread t).state.saved → (s.table.thread t).context.all (Frame.fits t)

/-- The frames with which a section goes on fit. -/
def Out.fits (me : Slot) : Out → Prop
  | .goto fs | .sched _ fs => fs.all (Frame.fits me)
  | _ => True

theorem Table.crit_fits (T : Table) (ok : Bool) {k : Sec} (hk : Frame.fits me (.crit k)) :
    (T.crit me ok k).2.fits me := by
  cases k with
  | allocproc =>
    simp only [crit, allocproc]
    split
    · exact trivial
    · cases ok with
      | true => rfl
      | false => exact trivial
  | wait =>
    simp only [crit]
    rcases T.wait_cases me with ⟨q, n, -, -, hr⟩ | hr | hr | hr <;> rw [hr]
    · exact trivial
    · exact trivial
    · exact trivial
    · rfl
  | kill pid =>
    simp only [crit, kill]
    split <;> exact trivial
  | exit =>
    simp only [crit, exit]
    split_ifs
    · rfl
    · exact trivial
  | exitThread =>
    simp only [crit, exitThread]
    split_ifs
    · exact trivial
    all_goals rfl
  | fork np | kthreadCreate => cases ok <;> exact trivial
  | kthreadJoin tid =>
    simp only [crit, kthreadJoin]
    split
    · exact trivial
    · simp [Out.fits, Frame.fits]
  | joinLoop t =>
    simp only [crit, joinLoop]
    split
    · exact trivial
    · exact trivial
    · simpa [Out.fits, Frame.fits] using hk
  | exitProcess | execWake | yield | sleep _ => rfl
  | growproc | wakeup _ => exact trivial

theorem Fits.stk (h : Fits s) {t : Slot} {st : List Frame} (hst : Stk s t st) :
    st.all (Frame.fits t) := by
  rcases hst with ⟨d, hd, hctl⟩ | ⟨hsv, rfl⟩
  · exact h.run d t st hd hctl
  · exact h.saved t hsv

theorem Frame.Next.fits {ok : Bool} {f : Frame} {fs : List Frame} (h : f.Next s me ok fs)
    (hf : Frame.fits me f) : fs.all (Frame.fits me) := by
  cases h with
  | acquire k =>
    have hk : Frame.fits me (.crit k) = Frame.fits me (.acquire k) := by
      cases k with
      | sleep chan => cases chan <;> rfl
      | _ => rfl
    simpa [hk] using hf
  | @crit k fs h =>
    have hout := s.table.crit_fits ok hf
    cases ho : (s.table.crit me ok k).2 <;> rw [ho] at h hout <;> cases h
    · rfl
    · rfl
    · exact hout
    · exact hout
  | enter g =>
    cases g with
    | exec =>
      simp only [Kernel.enter]
      split_ifs <;> rfl
    | _ => rfl
  | forkret h | trapExit h => rcases h with rfl | rfl <;> rfl
  | _ => rfl

theorem Frame.fits_of_pushed {f : Frame} (h : f.pushed) : Frame.fits me f := by
  unfold Frame.pushed at h
  split at h <;> first | rfl | cases h

theorem Fits.next [DecidableEq C] (h : Fits s) (hi : Inv s) {a : Act} (hok : inBounds s (c, a))
    (hn : s.next c a = some s') : Fits s' := by
  have key : ∀ t st', Stk s' t st' → st'.all (Frame.fits t) := fun t st' hst' => by
    rcases Stk.next hi hok hn hst' with hst | rfl | ⟨st, hstep⟩
    · exact h.stk hst
    · rfl
    · have hall := h.stk hstep.stk
      cases hstep with
      | next hme hctl hf =>
        rw [all_cons, Bool.and_eq_true] at hall
        rw [all_append, Bool.and_eq_true]
        exact ⟨hf.fits hall.1, hall.2⟩
      | push hme hctl hfs =>
        rw [all_append, Bool.and_eq_true]
        refine ⟨?_, hall⟩
        rw [all_eq_true] at hfs ⊢
        exact fun f hf => Frame.fits_of_pushed (hfs f hf)
  exact ⟨fun d t st hd hctl => key t st (.inl ⟨d, hd, hctl⟩), fun t ht => key t _ (.inr ⟨ht, rfl⟩)⟩

/-! ## Sleepers -/

/-- What holds of the threads that sleep in `wait` and in `kthread_join`, and of the fields they
read. -/
structure Heeded (T : Table) : Prop where
  wait : ∀ u st, (T.thread u).state = .SLEEPING →
    (T.thread u).context = .sleepBack :: .crit .wait :: st →
    (T.thread u).chan = .proc u.1
  join : ∀ u t st, (T.thread u).state = .SLEEPING →
    (T.thread u).context = .sleepBack :: .crit (.joinLoop t) :: st → (T.thread u).chan = .thread t
  child : ∀ u p q, (T.thread u).state = .SLEEPING → (T.thread u).chan = .proc p →
    (T.proc q).parent = .proc p → (T.proc q).state ≠ .ZOMBIE
  joined : ∀ u t, (T.thread u).state = .SLEEPING → (T.thread u).chan = .thread t →
    t.1 = u.1 ∧ (T.thread t).state ≠ .ZOMBIE_T
  self : ∀ p, (T.proc p).parent ≠ .proc p
  init : (T.proc T.initproc).parent = .null
  tid : ∀ t, T.below t → (T.proc t.1).state ≠ .UNUSED → (T.thread t).tid = t.2.val + 1

theorem Heeded.mono (h : Heeded T)
    (hs : ∀ u, (T'.thread u).state = .SLEEPING → (T.thread u).state = .SLEEPING ∧
      (T'.thread u).chan = (T.thread u).chan ∧ (T'.thread u).context = (T.thread u).context)
    (hc : ∀ u p q, (T'.thread u).state = .SLEEPING → (T'.thread u).chan = .proc p →
      (T'.proc q).parent = .proc p → (T'.proc q).state = .ZOMBIE →
      (T.proc q).parent = .proc p ∧ (T.proc q).state = .ZOMBIE)
    (he : ∀ u t, (T'.thread u).state = .SLEEPING → (T'.thread u).chan = .thread t →
      (T'.thread t).state = .ZOMBIE_T → (T.thread t).state = .ZOMBIE_T)
    (hself : ∀ p, (T'.proc p).parent ≠ .proc p) (hinit : (T'.proc T'.initproc).parent = .null)
    (htid : ∀ t, T'.below t → (T'.proc t.1).state ≠ .UNUSED → (T'.thread t).tid = t.2.val + 1) :
    Heeded T' where
  wait u st hu hctx := by
    obtain ⟨hu', hchan, hctx'⟩ := hs u hu
    rw [hchan]
    exact h.wait u st hu' (hctx' ▸ hctx)
  join u t st hu hctx := by
    obtain ⟨hu', hchan, hctx'⟩ := hs u hu
    rw [hchan]
    exact h.join u t st hu' (hctx' ▸ hctx)
  child u p q hu hchan hpar hz := by
    obtain ⟨hu', hchan', -⟩ := hs u hu
    obtain ⟨hpar', hz'⟩ := hc u p q hu hchan hpar hz
    exact h.child u p q hu' (hchan' ▸ hchan) hpar' hz'
  joined u t hu hchan := by
    obtain ⟨hu', hchan', -⟩ := hs u hu
    obtain ⟨hp, hne⟩ := h.joined u t hu' (hchan' ▸ hchan)
    exact ⟨hp, fun hz => hne (he u t hu hchan hz)⟩
  self := hself
  init := hinit
  tid := htid

theorem Heeded.of_procs (h : Heeded T)
    (hp : ∀ p, (T'.proc p).state = (T.proc p).state ∧ (T'.proc p).parent = (T.proc p).parent ∧
      (T'.proc p).tNum = (T.proc p).tNum) (hi : T'.initproc = T.initproc)
    (hs : ∀ u, (T'.thread u).state = .SLEEPING → (T.thread u).state = .SLEEPING ∧
      (T'.thread u).chan = (T.thread u).chan ∧ (T'.thread u).context = (T.thread u).context)
    (he : ∀ u t, (T'.thread u).state = .SLEEPING → (T'.thread u).chan = .thread t →
      (T'.thread t).state = .ZOMBIE_T → (T.thread t).state = .ZOMBIE_T)
    (ht : ∀ t, (T'.thread t).tid = (T.thread t).tid) : Heeded T' := by
  refine h.mono hs (fun u p q _ _ hpar hz => ?_) he (fun p => ?_) ?_ fun t hb hu => ?_
  · exact ⟨(hp q).2.1 ▸ hpar, (hp q).1 ▸ hz⟩
  · rw [(hp p).2.1]
    exact h.self p
  · rw [hi, (hp _).2.1]
    exact h.init
  · rw [below, (hp t.1).2.2] at hb
    rw [(hp t.1).1] at hu
    rw [ht]
    exact h.tid t hb hu

theorem Heeded.quiet (h : Heeded T) (hq : Quiet T T') : Heeded T' := by
  refine h.of_procs (fun p => ?_) hq.initproc hq.asleep (fun _ t _ _ => hq.ended t) hq.tid
  obtain ⟨b, hb⟩ := hq.proc p
  rw [hb]
  exact ⟨rfl, rfl, rfl⟩

theorem Table.crit_sleep_cases {ok : Bool} {k : Sec} {chan : Chan} {fs : List Frame}
    (h : T.crit me ok k = T.sleep me chan fs) :
    (k = .wait ∧ chan = .proc me.1 ∧ fs = [.crit .wait] ∧ T.zombieChild me.1 = none) ∨
    (∃ t, k = .joinLoop t ∧ chan = .thread t ∧ fs = [.crit (.joinLoop t)] ∧
      (T.thread t).state ≠ .ZOMBIE_T) ∨ (k = .sleep chan ∧ fs = [.release]) := by
  -- the channel and the frames can be read off the result
  have hinj : ∀ {chan' fs'}, T.sleep me chan' fs' = T.sleep me chan fs → chan' = chan ∧ fs' = fs :=
    fun {chan' fs'} h => by
      have h₁ := congrArg (fun r : Table × Out => (r.1.thread me).chan) h
      have h₂ := congrArg snd h
      simp only [sleep, setThread, update_self] at h₁
      simp only [sleep, Out.sched.injEq, cons.injEq, true_and] at h₂
      exact ⟨h₁, h₂⟩
  have hout : (T.crit me ok k).2 = .sched .SLEEPING (.sleepBack :: fs) := by rw [h]; rfl
  cases k with
  | wait =>
    simp only [crit, wait] at h hout
    split at h
    · split at h <;> simp at h
    · rename_i hnone
      split_ifs at h
      · simp at h
      · obtain ⟨rfl, rfl⟩ := hinj h
        exact .inl ⟨rfl, rfl, rfl, hnone⟩
  | joinLoop t =>
    simp only [crit, joinLoop] at h
    split at h
    · simp at h
    · simp at h
    · rename_i hz _
      obtain ⟨rfl, rfl⟩ := hinj h
      exact .inr (.inl ⟨t, rfl, rfl, rfl, hz⟩)
  | sleep chan' =>
    obtain ⟨rfl, rfl⟩ := hinj h
    exact .inr (.inr ⟨rfl, rfl⟩)
  | allocproc =>
    simp only [crit, allocproc] at hout
    split at hout
    · cases hout
    · split_ifs at hout
  | kill pid =>
    simp only [crit, kill] at hout
    split at hout <;> cases hout
  | exit =>
    simp only [crit, exit] at hout
    split_ifs at hout
  | exitThread =>
    simp only [crit, exitThread] at hout
    split_ifs at hout <;> simp at hout
  | kthreadJoin tid =>
    simp only [crit, kthreadJoin] at hout
    split at hout <;> cases hout
  | fork np | kthreadCreate => cases ok <;> cases hout
  | exitProcess | execWake | yield | growproc | wakeup _ => cases hout

theorem Table.zombieChild_none {p q : ProcId} (h : T.zombieChild p = none)
    (hq : (T.proc q).parent = .proc p) : (T.proc q).state ≠ .ZOMBIE := fun hz => by
  have := find?_eq_none.1 h q (mem_finRange q)
  simp [hq, hz] at this

theorem Heeded.sleep (h : Heeded T) {ok : Bool} {k : Sec} {st : List Frame} {chan : Chan}
    {fs : List Frame} (hfits : Frame.fits me (.crit k)) (ho : T.crit me ok k = T.sleep me chan fs) :
    Heeded (schedTable (T.sleep me chan fs).1 me .SLEEPING (.sleepBack :: fs ++ st)) := by
  set T' := schedTable (T.sleep me chan fs).1 me .SLEEPING (.sleepBack :: fs ++ st) with hT'
  have hself : T'.thread me = { T.thread me with
      state := .SLEEPING, chan := chan, context := .sleepBack :: fs ++ st } := by
    simp [hT', schedTable]
  have hother : ∀ t, t ≠ me → T'.thread t = T.thread t := fun t ht => by
    simp [hT', schedTable, ht]
  have hcases := crit_sleep_cases ho
  -- no thread ends, and `me` does not join itself as a thread that has
  have hended : ∀ t, (T.thread t).state ≠ .ZOMBIE_T → (T'.thread t).state ≠ .ZOMBIE_T :=
    fun t ht => by
    by_cases htm : t = me
    · rw [htm, hself]
      simp
    · rwa [hother t htm]
  refine ⟨fun u st' hu hctx => ?_, fun u t st' hu hctx => ?_, fun u p q hu hchan hpar => ?_,
    fun u t hu hchan => ?_, h.self, h.init, fun t hb hp => ?_⟩
  · by_cases hum : u = me
    · subst hum
      rw [hself] at hctx ⊢
      rcases hcases with ⟨-, rfl, -, -⟩ | ⟨t, -, -, rfl, -⟩ | ⟨-, rfl⟩
      · rfl
      · simp at hctx
      · simp at hctx
    · rw [hother u hum] at hu hctx ⊢
      exact h.wait u st' hu hctx
  · by_cases hum : u = me
    · subst hum
      rw [hself] at hctx ⊢
      rcases hcases with ⟨-, -, rfl, -⟩ | ⟨t', -, rfl, rfl, -⟩ | ⟨-, rfl⟩
      · simp at hctx
      · simp only [cons_append, nil_append, cons.injEq, Frame.crit.injEq, Sec.joinLoop.injEq,
          true_and] at hctx
        rw [hctx.1]
      · simp at hctx
    · rw [hother u hum] at hu hctx ⊢
      exact h.join u t st' hu hctx
  · by_cases hum : u = me
    · subst hum
      rw [hself] at hchan
      obtain rfl : chan = .proc p := hchan
      rcases hcases with ⟨-, hp, -, hnone⟩ | ⟨t, -, hp, -⟩ | ⟨rfl, -⟩
      · cases hp
        exact zombieChild_none hnone hpar
      · cases hp
      · simp [Frame.fits] at hfits
    · rw [hother u hum] at hu hchan
      exact h.child u p q hu hchan hpar
  · by_cases hum : u = me
    · subst hum
      rw [hself] at hchan
      obtain rfl : chan = .thread t := hchan
      rcases hcases with ⟨-, hp, -⟩ | ⟨t', rfl, hp, -, hz⟩ | ⟨rfl, -⟩
      · cases hp
      · cases hp
        exact ⟨by simpa [Frame.fits] using hfits, hended _ hz⟩
      · simp [Frame.fits] at hfits
    · rw [hother u hum] at hu hchan
      obtain ⟨hp, hz⟩ := h.joined u t hu hchan
      exact ⟨hp, hended t hz⟩
  · have htid := h.tid t hb hp
    by_cases htm : t = me
    · rw [htm] at htid ⊢
      rw [hself]
      exact htid
    · rw [hother t htm]
      exact htid

theorem TableOk.wakeup1_chan (hT : TableOk T) {chan : Chan} {u : Slot}
    (hu : ((T.wakeup1 chan).thread u).state = .SLEEPING) : (T.thread u).chan ≠ chan := fun hc => by
  simp only [wakeup1, mapThread] at hu
  split_ifs at hu with hcond
  have hb : T.below u := hT.below fun h => by simp [h] at hu
  simp [hb, hu, hc] at hcond

theorem Heeded.exitThread (h : Heeded T) (hT : TableOk T) {st : List Frame}
    (hrun : (T.running me.1).length ≠ 0 ∧ (T.running me.1).length ≠ 1) :
    Heeded (schedTable (T.exitThread me).1 me .ZOMBIE_T st) := by
  set T₁ := if (T.running me.1).length = 2 then T.wakeup1 (.proc me.1) else T with hT₁
  have heq : (T.exitThread me).1 = T₁.wakeup1 (.thread me) := by
    simp only [Table.exitThread, if_neg hrun.1, if_neg hrun.2, hT₁]
  have hok₁ : TableOk T₁ := by
    rw [hT₁]
    split_ifs
    · exact (Wakes.wakeup1 T _).tableOk hT
    · exact hT
  have hq := Quiet.exitThread T me
  have hother : ∀ t, t ≠ me → (schedTable (T.exitThread me).1 me .ZOMBIE_T st).thread t =
      (T.exitThread me).1.thread t := fun t ht => by rw [schedTable_thread, update_of_ne ht]
  -- the sleepers are those of the section, and none of them joins `me`
  have hsleep : ∀ u, ((schedTable (T.exitThread me).1 me .ZOMBIE_T st).thread u).state = .SLEEPING →
    u ≠ me :=
    fun u hu hum => by
      rw [hum, schedTable_thread, update_self] at hu
      cases hu
  refine h.of_procs (fun p => ?_) hq.initproc (fun u hu => ?_) (fun u t hu hchan hz => ?_) fun t =>
    ?_
  · obtain ⟨b, hb⟩ := hq.proc p
    have hp : (schedTable (T.exitThread me).1 me .ZOMBIE_T st).proc p = (T.exitThread me).1.proc
      p := rfl
    rw [hp, hb]
    exact ⟨rfl, rfl, rfl⟩
  · have hum := hsleep u hu
    rw [hother u hum] at hu ⊢
    exact hq.asleep u hu
  · have hum := hsleep u hu
    rw [hother u hum] at hu hchan
    by_cases htm : t = me
    · subst htm
      rw [heq] at hu hchan
      have hne := hok₁.wakeup1_chan hu
      rw [← (Quiet.wakeup1_ids T₁ (.thread t) u).2] at hne
      exact absurd hchan hne
    · rw [hother t htm] at hz
      exact hq.ended t hz
  · by_cases htm : t = me
    · rw [htm, schedTable_thread, update_self]
      exact hq.tid me
    · rw [hother t htm]
      exact hq.tid t

theorem TableOk.exitWakes_chan (hT : TableOk T) {p : ProcId} {u : Slot}
    (hu : ((T.exitWakes p).thread u).state = .SLEEPING) :
    (T.thread u).chan ≠ (T.proc p).parent.chan ∧
      ((T.zombieChild p).isSome → (T.thread u).chan ≠ .proc T.initproc) := by
  simp only [exitWakes] at hu
  have hok := (Wakes.wakeup1 T (T.proc p).parent.chan).tableOk hT
  split_ifs at hu with hz
  · have hu' := ((Quiet.wakeup1 _ _).asleep u hu).1
    have hne := hok.wakeup1_chan hu
    rw [(Quiet.wakeup1_ids T _ u).2] at hne
    exact ⟨hT.wakeup1_chan hu', fun _ => hne⟩
  · exact ⟨hT.wakeup1_chan hu, fun h => absurd h hz⟩

theorem Quiet.exitWakes (T : Table) (p : ProcId) : Quiet T (T.exitWakes p) := by
  have key : ∀ t, ((T.exitWakes p).thread t).tid = (T.thread t).tid ∧
      ((T.exitWakes p).thread t).chan = (T.thread t).chan := fun t => by
    simp only [Table.exitWakes]
    split_ifs
    · exact ⟨(wakeup1_ids _ _ t).1.trans (wakeup1_ids T _ t).1,
        (wakeup1_ids _ _ t).2.trans (wakeup1_ids T _ t).2⟩
    · exact wakeup1_ids T _ t
  exact of_wakes (.exitWakes T p) (fun t => (key t).1) fun t _ => (key t).2

attribute [local simp] Table.below

section

variable (h : Heeded T)

include h

theorem Heeded.exitProcess (hT : TableOk T) {st : List Frame}
    (hdead : ∀ t, t.1 = me.1 → t ≠ me → (T.thread t).state.alive = false)
    (hused : (T.proc me.1).state = .USED) :
    Heeded (schedTable (T.exitProcess me).1 me .ZOMBIE_T st) := by
  set T' := schedTable (T.exitProcess me).1 me .ZOMBIE_T st with hT'
  have hproc : ∀ p, T'.proc p = { T.proc p with
      killed := if p = me.1 then true else (T.proc p).killed
      state := if p = me.1 then .ZOMBIE else (T.proc p).state
      parent := if (T.proc p).parent = .proc me.1 then .proc T.initproc else (T.proc p).parent } :=
    exitProcess_proc T me
  have hother : ∀ t, t ≠ me → T'.thread t = (T.exitWakes me.1).thread t := fun t ht => by
    rw [hT', schedTable_thread, update_of_ne ht]
    rfl
  have hself : (T'.thread me).state = .ZOMBIE_T ∧ (T'.thread me).tid = (T.thread me).tid := by
    rw [hT', schedTable_thread, update_self]
    exact ⟨rfl, (Quiet.exitWakes T me.1).tid me⟩
  have hi : T'.initproc = T.initproc := (Wakes.exitWakes T me.1).initproc
  have hq := Quiet.exitWakes T me.1
  have hsleep : ∀ u, (T'.thread u).state = .SLEEPING → u ≠ me := fun u hu hum => by
    rw [hum, hself.1] at hu
    cases hu
  refine h.mono (fun u hu => ?_) (fun u p q hu hchan hpar hz => ?_) (fun u t hu hchan hz => ?_)
    (fun p => ?_) ?_
    fun t hb hp => ?_
  · have hum := hsleep u hu
    rw [hother u hum] at hu ⊢
    exact hq.asleep u hu
  · have hum := hsleep u hu
    rw [hother u hum] at hu hchan
    rw [(hq.asleep u hu).2.1] at hchan
    obtain ⟨hne, hne'⟩ := hT.exitWakes_chan hu
    rw [hproc] at hpar hz
    simp only at hpar hz
    by_cases hqm : q = me.1
    · -- the process that ends wakes its parent
      rw [hqm, if_neg (h.self me.1)] at hpar
      rw [hpar] at hne
      exact absurd hchan hne
    · rw [if_neg hqm] at hz
      split_ifs at hpar with hkid
      · -- a child that init gets is not ZOMBIE, or init is woken
        cases hpar
        refine absurd hchan (hne' ?_)
        cases hzc : T.zombieChild me.1 with
        | some _ => rfl
        | none => exact absurd hz (zombieChild_none hzc hkid)
      · exact ⟨hpar, hz⟩
  · have hum := hsleep u hu
    by_cases htm : t = me
    · -- the joiner would be another thread of the process
      rw [hother u hum] at hu hchan
      obtain ⟨hu', hchan', -⟩ := hq.asleep u hu
      rw [hchan', htm] at hchan
      have := hdead u (h.joined u me hu' hchan).1.symm hum
      rw [hu'] at this
      cases this
    · rw [hother t htm] at hz
      exact hq.ended t hz
  · rw [hproc]
    simp only
    split_ifs with hkid
    · intro hp
      cases hp
      rw [h.init] at hkid
      cases hkid
    · exact h.self p
  · rw [hproc, hi]
    simp [h.init]
  · have hb' : T.below t := by simpa [hproc] using hb
    have htid : (T'.thread t).tid = (T.thread t).tid := by
      by_cases htm : t = me
      · rw [htm]
        exact hself.2
      · rw [hother t htm]
        exact hq.tid t
    rw [htid]
    refine h.tid t hb' ?_
    by_cases hpm : t.1 = me.1
    · simp [hpm, hused]
    · simpa [hproc, hpm] using hp

theorem Heeded.setSlot {t₀ : Slot} {th : Thread} (hthread : T'.thread = update T.thread t₀ th)
    (hth : th.state ≠ .SLEEPING ∧ th.state ≠ .ZOMBIE_T) (hi : T'.initproc = T.initproc)
    (hpar : ∀ p, (T'.proc p).parent = (T.proc p).parent)
    (hz : ∀ p, (T'.proc p).state = .ZOMBIE → (T.proc p).state = .ZOMBIE)
    (htid : ∀ t, T'.below t → (T'.proc t.1).state ≠ .UNUSED → (T'.thread t).tid = t.2.val + 1) :
    Heeded T' := by
  have hself : T'.thread t₀ = th := by rw [hthread, update_self]
  have hother : ∀ t, t ≠ t₀ → T'.thread t = T.thread t :=
    fun t ht => by rw [hthread, update_of_ne ht]
  refine h.mono (fun u hu => ?_) (fun u p q _ _ hq hzq => ⟨hpar q ▸ hq, hz q hzq⟩)
    (fun u t _ _ hzt => ?_)
    (fun p => ?_) ?_ htid
  · have hut : u ≠ t₀ := fun hut => by
      rw [hut, hself] at hu
      exact hth.1 hu
    rw [hother u hut] at hu ⊢
    exact ⟨hu, rfl, rfl⟩
  · have htt : t ≠ t₀ := fun htt => by
      rw [htt, hself] at hzt
      exact hth.2 hzt
    rwa [hother t htt] at hzt
  · rw [hpar]
    exact h.self p
  · rw [hpar, hi]
    exact h.init

theorem Heeded.allocproc (ok : Bool) : Heeded (T.allocproc ok).1 := by
  cases hf : T.findUnused with
  | none => rwa [allocproc_none hf]
  | some p =>
    obtain ⟨hproc, hthread, -⟩ := allocproc_some hf ok
    have hi : (T.allocproc ok).1.initproc = T.initproc := by
      simp only [Table.allocproc, hf]
      rw [Table.allocthread_initproc (by simp [NTHREADS])]
      rfl
    refine h.setSlot hthread (by cases ok <;> simp) hi (fun q => ?_) (fun q hz => ?_) fun t hb hu =>
      ?_
    · by_cases hq : q = p
      · rw [hproc, hq, update_self]
      · rw [hproc, update_of_ne hq]
    · by_cases hq : q = p
      · rw [hproc, hq, update_self] at hz
        cases hz
      · rwa [hproc, update_of_ne hq] at hz
    · by_cases hq : t.1 = p
      · -- the one thread of the new process
        obtain ⟨q, i⟩ := t
        obtain rfl : q = p := hq
        have hi0 : i.val = 0 := by simpa [hproc] using hb
        obtain rfl : i = ⟨0, by decide⟩ := Fin.ext hi0
        have hslot : ((q, ⟨0, by decide⟩) : Slot) = Table.slot0 q := rfl
        rw [hthread, hslot, update_self]
        rfl
      · have ht : t ≠ Table.slot0 p := fun ht => hq (congrArg fst ht)
        rw [hthread, update_of_ne ht]
        rw [hproc, update_of_ne hq] at hu
        refine h.tid t ?_ hu
        simpa [hproc, update_of_ne hq] using hb

theorem Heeded.kthreadCreate (ok : Bool) (hn : (T.proc me.1).tNum < NTHREADS)
    (hused : (T.proc me.1).state = .USED) : Heeded (T.kthreadCreate me ok).1 := by
  rw [kthreadCreate_fst]
  have hproc : (T.allocthread me.1 false ok).proc =
      update T.proc me.1 { T.proc me.1 with tNum := (T.proc me.1).tNum + 1 } := allocthread_proc hn
  have hthread : (T.allocthread me.1 false ok).thread = _ := allocthread_thread hn
  refine h.setSlot hthread (by cases ok <;> simp [newThread]) (allocthread_initproc hn)
    (fun q => ?_)
    (fun q hz => ?_) fun t hb hu => ?_
  · by_cases hq : q = me.1
    · rw [hproc, hq, update_self]
    · rw [hproc, update_of_ne hq]
  · by_cases hq : q = me.1
    · rw [hproc, hq, update_self] at hz
      rw [hq]
      exact hz
    · rwa [hproc, update_of_ne hq] at hz
  · by_cases ht : t = (me.1, ⟨(T.proc me.1).tNum, hn⟩)
    · subst ht
      rw [hthread, update_self]
      cases ok <;> rfl
    · rw [hthread, update_of_ne ht]
      by_cases hq : t.1 = me.1
      · refine h.tid t ?_ (by rw [hq, hused]; decide)
        -- the slot is below the new one
        have hlt : t.2.val < (T.proc me.1).tNum + 1 := by simpa [hproc, hq] using hb
        have hne : t.2.val ≠ (T.proc me.1).tNum := fun h => ht (Prod.ext hq (Fin.ext h))
        simp only [below, hq, decide_eq_true_eq]
        omega
      · rw [hproc, update_of_ne hq] at hu
        refine h.tid t ?_ hu
        simpa [hproc, update_of_ne hq] using hb

theorem Heeded.fork (hT : TableOk T) {np : ProcId} (ok : Bool)
    (he : (T.thread (slot0 np)).state = .EMBRYO) (hme : (T.thread me).state = .RUNNING)
    (hinit : np ≠ T.initproc) : Heeded (T.fork me np ok).1 := by
  have hused : (T.proc np).state = .USED := hT.alive (slot0 np) (by rw [he]; rfl)
  -- the process of a running thread is not the new one, whose only thread is an EMBRYO
  have hnp : me.1 ≠ np := fun hp => by
    have h1 := (hT.embryo _ he).2
    have hb : T.below me := hT.below fun h => by simp [h] at hme
    have h0 : me.2.val = 0 := by
      have : (T.proc np).tNum = 1 := h1
      simpa [hp, this] using hb
    have : me = slot0 np := Prod.ext hp (Fin.ext h0)
    rw [this, he] at hme
    cases hme
  have hbelow : ∀ t, (T.fork me np ok).1.below t = T.below t := fun t => by
    by_cases hq : t.1 = np
    · cases ok <;> simp [hq]
    · cases ok <;> simp [hq]
  have hthread : ∃ th, (T.fork me np ok).1.thread = update T.thread (slot0 np) th ∧
      th.state ≠ .SLEEPING ∧ th.state ≠ .ZOMBIE_T ∧ th.tid = (T.thread (slot0 np)).tid := by
    cases ok with
    | true => exact ⟨{ T.thread (slot0 np) with state := .RUNNABLE }, rfl, by simp, by simp, rfl⟩
    | false =>
      exact ⟨{ T.thread (slot0 np) with kstack := none, state := .UNUSED_T }, rfl, by simp, by simp,
        rfl⟩
  have hproc : ∀ q, q ≠ np → (T.fork me np ok).1.proc q = T.proc q := fun q hq => by
    cases ok <;> simp [hq]
  have hnew : ((T.fork me np ok).1.proc np).state ≠ .ZOMBIE ∧
    ((T.fork me np ok).1.proc np).parent ≠ .proc np := by
    cases ok with
    | true => simp [hused, hnp]
    | false => simpa using h.self np
  obtain ⟨th, hthread, hth₁, hth₂, hth₃⟩ := hthread
  have hi : (T.fork me np ok).1.initproc = T.initproc := by cases ok <;> rfl
  have hself : (T.fork me np ok).1.thread (slot0 np) = th := by rw [hthread, update_self]
  have hother : ∀ t, t ≠ slot0 np → (T.fork me np ok).1.thread t = T.thread t := fun t ht => by
    rw [hthread, update_of_ne ht]
  refine h.mono (fun u hu => ?_) (fun u p q _ _ hpar hz => ?_) (fun u t _ _ hz => ?_) (fun p => ?_)
    ?_
    fun t hb hu => ?_
  · have hut : u ≠ slot0 np := fun hut => by
      rw [hut, hself] at hu
      exact hth₁ hu
    rw [hother u hut] at hu ⊢
    exact ⟨hu, rfl, rfl⟩
  · have hq : q ≠ np := fun hq => hnew.1 (hq ▸ hz)
    rw [hproc q hq] at hpar hz
    exact ⟨hpar, hz⟩
  · have htt : t ≠ slot0 np := fun htt => by
      rw [htt, hself] at hz
      exact hth₂ hz
    rwa [hother t htt] at hz
  · by_cases hq : p = np
    · rw [hq]
      exact hnew.2
    · rw [hproc p hq]
      exact h.self p
  · rw [hi, hproc _ (Ne.symm hinit)]
    exact h.init
  · have htid : ((T.fork me np ok).1.thread t).tid = (T.thread t).tid := by
      by_cases htt : t = slot0 np
      · rw [htt, hself, hth₃]
      · rw [hother t htt]
    rw [htid]
    refine h.tid t (hbelow t ▸ hb) ?_
    by_cases hq : t.1 = np
    · rw [hq, hused]
      decide
    · rwa [hproc _ hq] at hu

theorem Heeded.reap {p q : ProcId} {n : ℕ} (hinit : q ≠ T.initproc) : Heeded (T.reap p q n) := by
  have hproc : ∀ r, r ≠ q → (T.reap p q n).proc r = T.proc r := fun r hr => by
    simp [Table.reap, Table.mapThread, hr]
  have hnew : ((T.reap p q n).proc q).state = .UNUSED ∧ ((T.reap p q n).proc q).parent = .null := by
    simp [Table.reap, Table.mapThread]
  have hthread : ∀ t, (T.reap p q n).thread t = T.thread t ∨
      ((T.reap p q n).thread t).state = .UNUSED_T ∧ t.1 = q := fun t => by
    rw [reap_thread]
    split_ifs with hc
    · exact .inr ⟨rfl, hc.1⟩
    · exact .inl rfl
  refine h.mono (fun u hu => ?_) (fun u r t _ _ hpar hz => ?_) (fun u t _ _ hz => ?_) (fun r => ?_)
    ?_
    fun t hb hu => ?_
  · rcases hthread u with e | ⟨e, -⟩
    · rw [e] at hu ⊢
      exact ⟨hu, rfl, rfl⟩
    · rw [e] at hu
      cases hu
  · have ht : t ≠ q := fun ht => by
      rw [ht, hnew.1] at hz
      cases hz
    rw [hproc t ht] at hpar hz
    exact ⟨hpar, hz⟩
  · rcases hthread t with e | ⟨e, -⟩
    · rwa [e] at hz
    · rw [e] at hz
      cases hz
  · by_cases hr : r = q
    · rw [hr, hnew.2]
      simp
    · rw [hproc r hr]
      exact h.self r
  · show ((T.reap p q n).proc T.initproc).parent = .null
    rw [hproc _ (Ne.symm hinit)]
    exact h.init
  · have hq : t.1 ≠ q := fun hq => by
      rw [hq] at hu
      exact hu hnew.1
    rcases hthread t with e | ⟨-, e⟩
    · rw [hproc _ hq] at hu
      rw [e]
      refine h.tid t ?_ hu
      simpa [hproc _ hq] using hb
    · exact absurd e hq

theorem Heeded.execDone : Heeded (Kernel.execDone T me true) := by
  refine h.of_procs (fun p => ?_) rfl (fun u hu => ⟨hu, rfl, rfl⟩) (fun _ _ _ _ hz => hz) fun _ =>
    rfl
  by_cases hp : p = me.1
  · subst hp
    simp [Kernel.execDone]
  · simp [Kernel.execDone, hp]

end

/-! ## Runs -/

theorem Owned.not_init (ho : Owned T) (hT : TableOk T) {np : ProcId}
    (he : (T.thread (slot0 np)).state = .EMBRYO) : np ≠ T.initproc := by
  rintro rfl
  obtain ⟨-, i, hu, hne⟩ := ho.init
  have h1 : (T.proc T.initproc).tNum = 1 := (hT.embryo _ he).2
  have hb : T.below (T.initproc, i) := hT.below hu
  have hi : i.val = 0 := by simpa [h1] using hb
  have hslot : (T.initproc, i) = slot0 T.initproc := Prod.ext rfl (Fin.ext hi)
  rw [hslot] at hne
  exact hne he

theorem Event.heeded {a : Act} (he : Event s c a T) (hi : Inv s) (ho : Owned s.table) (hf : Fits s)
    (h : Heeded s.table) : Heeded T := by
  have hused : ∀ {me}, (s.cpu c).thread = some me → (s.table.proc me.1).state = .USED := fun hme =>
    hi.table.alive _ (by rw [hi.cpu.running c _ hme]; rfl)
  cases he with
  | quiet hq hp => exact h.quiet hq
  | fault hme => exact h.quiet (.fault _ _)
  | kill ok hme hctl => exact h.quiet (.kill _ _)
  | sleep ok hme hctl hout =>
    have hfits := hf.run c _ _ hme hctl
    rw [all_cons, Bool.and_eq_true] at hfits
    exact h.sleep hfits.1 hout
  | exitThread ok hme hctl hrun => exact h.exitThread hi.table hrun
  | exitProcess ok st' hme hctl =>
    exact h.exitProcess hi.table (hi.frames.exiting _ _ (.inl ⟨c, hme, hctl⟩) rfl) (hused hme)
  | allocproc ok hme hctl => exact h.allocproc ok
  | @fork me np st ok hme hctl =>
    have he := hi.frames.forking me _ np (.inl ⟨c, hme, hctl⟩) (by simp [Frame.forks])
    exact h.fork hi.table ok he (hi.cpu.running c _ hme) (ho.not_init hi.table he)
  | kthreadCreate ok hme hctl hb => exact h.kthreadCreate ok hb (hused hme)
  | @reap me st q n ok hme hctl hq hn =>
    refine h.reap fun hqi => ?_
    have hz := (zombieChild_spec hq).2
    rw [hqi, ho.init.1] at hz
    cases hz
  | execDone hme hctl => exact h.execDone

theorem Heeded.userinit (base : ℤ) : Heeded (.userinit base) := by
  have hst : ∀ t, ((Table.userinit base).thread t).state ≠ .SLEEPING := fun t => by
    by_cases h0 : t.1.val = 0 ∧ t.2.val = 0 <;> simp [Table.userinit, h0]
  have hpar : ∀ p, ((Table.userinit base).proc p).parent = .null := fun p => by
    by_cases hp : p.val = 0 <;> simp [Table.userinit, hp]
  refine ⟨fun u _ hu => absurd hu (hst u), fun u _ _ hu => absurd hu (hst u),
    fun u _ _ hu => absurd hu (hst u), fun u _ hu => absurd hu (hst u),
    fun p => by simp [hpar], hpar _, fun t hb hu => ?_⟩
  by_cases hp : t.1.val = 0
  · have h0 : t.2.val = 0 := by simpa [Table.userinit, hp] using hb
    simp [Table.userinit, hp, h0]
  · simp [Table.userinit, hp] at hu

theorem Fits.boot (base : ℤ) : Fits (Kernel.boot C base) := by
  refine ⟨fun c t st hc => by simp at hc, fun t ht => ?_⟩
  by_cases h0 : t.1.val = 0 ∧ t.2.val = 0
  · simp [userinit, h0, Frame.fits]
  · simp [userinit, h0, ThreadState.saved] at ht

variable [DecidableEq C]

theorem Heeded.of_reachable (h : (kernelSys C).ReachableVia (fun s a => sound s a) s) :
    Inv s ∧ Owned s.table ∧ Fits s ∧ Heeded s.table := by
  refine h.invariant (I := fun s => Inv s ∧ Owned s.table ∧ Fits s ∧ Heeded s.table)
    (fun s hs => ?_)
    fun s a s' ⟨hi, ho, hf, hh⟩ hok hn => ?_
  · obtain ⟨base, rfl⟩ := hs
    exact ⟨Inv.boot base, Owned.userinit base, Fits.boot base, Heeded.userinit base⟩
  · have hb := inBounds_of_sound hok
    have he := hi.event hb hn
    exact ⟨hi.next hok hn, ho.tableStep hi (he.tableStep hi), hf.next hi hb hn,
      he.heeded hi ho hf hh⟩

omit [DecidableEq C] in
theorem Heeded.findTid (h : Heeded T) {p : ProcId} (hp : (T.proc p).state ≠ .UNUSED) {tid : ℤ}
    {i : Fin NTHREADS} (hf : T.findTid p tid = some i) : tid = i.val + 1 := by
  have hmem := mem_filter.1 (mem_of_getLast? hf)
  have hi : T.below (p, i) ∧ (T.thread (p, i)).tid = tid := by simpa using hmem.2
  exact hi.2.symm.trans (h.tid (p, i) hi.1 hp)

omit [DecidableEq C] in
theorem Table.findTid_of_goto {tid : ℤ} {ok : Bool} {i : Fin NTHREADS}
    (h : (T.crit me ok (.kthreadJoin tid)).2 = .goto [.crit (.joinLoop (me.1, i))]) :
    T.findTid me.1 tid = some i := by
  simp only [crit, kthreadJoin] at h
  split at h
  · cases h
  · rename_i j hj
    simp only [Out.goto.injEq, cons.injEq, Frame.crit.injEq, Sec.joinLoop.injEq, Prod.mk.injEq,
      true_and, and_true] at h
    rw [hj, h]

omit [DecidableEq C] in
theorem Table.zombie_of_joinLoop {t : Slot} {ok : Bool}
    (h : (T.crit me ok (.joinLoop t)).2 = .ret 0) : (T.thread t).state = .ZOMBIE_T := by
  simp only [crit, joinLoop] at h
  split at h
  · assumption
  · cases h
  · cases h

/-- In every run in bounds: no child of a process is ZOMBIE while one of its threads sleeps in
`wait`, no thread is ZOMBIE_T while another sleeps to join it, and a `kthread_join` that was given
`tid` and waits for slot `i` returns 0 only when the slot belongs to its own process, has the id
`tid` and is ZOMBIE_T. -/
theorem no_event_missed (h : (kernelSys C).ReachableVia (fun s a => sound s a) s) :
    (∀ u st, (s.table.thread u).state = .SLEEPING →
      (s.table.thread u).context = .sleepBack :: .crit .wait :: st →
      (s.table.thread u).chan = .proc u.1 ∧
        ∀ q, (s.table.proc q).parent = .proc u.1 → (s.table.proc q).state ≠ .ZOMBIE) ∧
    (∀ u t st, (s.table.thread u).state = .SLEEPING →
      (s.table.thread u).context = .sleepBack :: .crit (.joinLoop t) :: st →
      (s.table.thread u).chan = .thread t ∧ (s.table.thread t).state ≠ .ZOMBIE_T) ∧
    ∀ s₀ c₀ me₀ tid st₀ i, (kernelSys C).ReachableVia (fun s a => sound s a) s₀ →
      (s₀.cpu c₀).thread = some me₀ → (s₀.cpu c₀).ctl = .run (.crit (.kthreadJoin tid) :: st₀) →
      (s₀.table.crit me₀ true (.kthreadJoin tid)).2 = .goto [.crit (.joinLoop (me₀.1, i))] →
      ∀ c me st ok, (s.cpu c).thread = some me →
      (s.cpu c).ctl = .run (.crit (.joinLoop (me₀.1, i)) :: st) →
      (s.table.crit me ok (.joinLoop (me₀.1, i))).2 = .ret 0 → me.1 = me₀.1 ∧
      (s.table.thread (me.1, i)).tid = tid ∧ (s.table.thread (me.1, i)).state = .ZOMBIE_T := by
  obtain ⟨hi, ho, hf, hh⟩ := Heeded.of_reachable h
  refine ⟨fun u st hu hctx => ?_, fun u t st hu hctx => ?_, ?_⟩
  · have hchan := hh.wait u st hu hctx
    exact ⟨hchan, fun q hq => hh.child u u.1 q hu hchan hq⟩
  · have hchan := hh.join u t st hu hctx
    exact ⟨hchan, (hh.joined u t hu hchan).2⟩
  · intro s₀ c₀ me₀ tid st₀ i h₀ hme₀ hctl₀ hfind c me st ok hme hctl hret
    obtain ⟨hi₀, -, -, hh₀⟩ := Heeded.of_reachable h₀
    have hused₀ : (s₀.table.proc me₀.1).state = .USED :=
      hi₀.table.alive _ (by rw [hi₀.cpu.running c₀ _ hme₀]; rfl)
    have hused : (s.table.proc me.1).state = .USED :=
      hi.table.alive _ (by rw [hi.cpu.running c _ hme]; rfl)
    have hp : me₀.1 = me.1 := by
      have := hf.run c me _ hme hctl
      rw [all_cons, Bool.and_eq_true] at this
      simpa [Frame.fits] using this.1
    have hz := zombie_of_joinLoop hret
    rw [hp] at hz
    have hb : s.table.below (me.1, i) := hi.table.below fun h => by simp [h] at hz
    have htid := hh.tid (me.1, i) hb (by rw [hused]; decide)
    refine ⟨hp.symm, htid.trans ?_, hz⟩
    exact (hh₀.findTid (by rw [hused₀]; decide) (findTid_of_goto hfind)).symm

/-! ## Runs of two CPUs -/

/-- Init forks a child and waits for it. -/
def forkWait : List (Fin 2 × Act) :=
  startUser 0 ++ callOn 0 .fork (replicate 9 true) ++ callOn 0 .wait (replicate 4 true)

/-- Init makes a second thread and calls `kthread_join` on it, up to the search for its id. -/
def createJoin : List (Fin 2 × Act) :=
  startUser 0 ++ callOn 0 .kthreadCreate (replicate 6 true) ++
    callOn 0 (.kthreadJoin 2) (replicate 3 true)

/-- The first thread goes to sleep, the second one runs and calls `kthread_exit`, and the first one
is back. -/
def exitJoined : List (Fin 2 × Act) :=
  replicate 4 (0, .go true) ++ callOn 0 .kthreadExit (replicate 4 true) ++
    replicate 69 (0, .go true)

theorem no_event_missed_join :
    (∃ s : Kernel (Fin 2), (kernelSys (Fin 2)).ReachableVia (fun s a => sound s a) s ∧
      (s.table.thread (initSlot 0)).state = .SLEEPING ∧
      ∀ q, (s.table.proc q).parent = .proc (initSlot 0).1 → (s.table.proc q).state ≠ .ZOMBIE) ∧
    ∃ s : Kernel (Fin 2), (kernelSys (Fin 2)).ReachableVia (fun s a => sound s a) s ∧
      (s.table.crit (initSlot 0) true (.joinLoop (initSlot 1))).2 = .ret 0 ∧
      (s.table.thread (initSlot 1)).tid = 2 ∧ (s.table.thread (initSlot 1)).state = .ZOMBIE_T := by
  obtain ⟨s₁, hr₁, hu, hctx⟩ : ∃ s, (kernelSys (Fin 2)).ReachableVia (fun s a => sound s a) s ∧
      (s.table.thread (initSlot 0)).state = .SLEEPING ∧
      (s.table.thread (initSlot 0)).context = [.sleepBack, .crit .wait, .trapExit] :=
    exists_reachableVia forkWait (boot_init 0) (by decide +kernel)
  obtain ⟨s₂, hr₂, hme₂, hctl₂, htid⟩ :
    ∃ s, (kernelSys (Fin 2)).ReachableVia (fun s a => sound s a) s ∧
      (s.cpu 0).thread = some (initSlot 0) ∧
      (s.cpu 0).ctl = .run [.crit (.kthreadJoin 2), .trapExit] ∧
      s.table.findTid (initSlot 0).1 2 = some (initSlot 1).2 :=
    exists_reachableVia createJoin (boot_init 0) (by decide +kernel)
  obtain ⟨s₃, hr₃, hme₃, hctl₃, hz⟩ :
    ∃ s, (kernelSys (Fin 2)).ReachableVia (fun s a => sound s a) s ∧
      (s.cpu 0).thread = some (initSlot 0) ∧
      (s.cpu 0).ctl = .run [.crit (.joinLoop (initSlot 1)), .trapExit] ∧
      (s.table.thread (initSlot 1)).state = .ZOMBIE_T :=
    exists_reachableVia (createJoin ++ exitJoined) (boot_init 0) (by decide +kernel)
  have hgoto : (s₂.table.crit (initSlot 0) true (.kthreadJoin 2)).2 =
    .goto [.crit (.joinLoop (initSlot 1))] := by
    simp only [crit, kthreadJoin, htid]
    rfl
  have hret : (s₃.table.crit (initSlot 0) true (.joinLoop (initSlot 1))).2 = .ret 0 := by
    simp [crit, joinLoop, hz]
  obtain ⟨-, htid', hz'⟩ :=
    (no_event_missed hr₃).2.2 s₂ 0 (initSlot 0) 2 _ (initSlot 1).2 hr₂ hme₂ hctl₂ hgoto 0 _ _ true
    hme₃ hctl₃ hret
  exact ⟨⟨s₁, hr₁, hu, ((no_event_missed hr₁).1 _ _ hu hctx).2⟩, s₃, hr₃, hret, htid', hz'⟩

end Xv6.Ptable
