import Xv6.Ptable.Kernel

/-!
# The steps of a CPU

`Step` lists what a step of CPU `c` can do.  `next_step`: there is nothing else.
-/

namespace Xv6.Ptable

open Kernel

variable {C : Type} [DecidableEq C]

def Table.fault (T : Table) (p : ProcId) : Table :=
  (T.mapThread fun t th => if t.1 = p ∧ T.below t then { th with killed := true } else th).setProc p
    fun q => { q with killed := true }

def Table.execMark (T : Table) (me t : Slot) : Table :=
  if t ≠ me ∧ (T.thread t).state ≠ .UNUSED_T then
    T.setThread t fun th => { th with killed := true } else T

/-- Code of thread `me` that leaves the lock alone, with the table and the frames after it. -/
inductive Frame.Goes (s : Kernel C) (me : Slot) (ok : Bool) : Frame → Table → List Frame →
Prop where
  | sleepBack : Goes s me ok .sleepBack (s.table.setThread me fun th => { th with chan := .null })
    []
  | trapExit {fs : List Frame} (h : fs = [] ∨ fs = [.acquire .exit]) :
    Goes s me ok .trapExit s.table fs
  | enter (g : Call) : Goes s me ok (.enter g) s.table (Kernel.enter s.table me g)
  | kernel : Goes s me ok .kernel s.table []
  | mark {i : ℕ} {t : Slot} (h : s.slotOf me i = some t) :
      Goes s me ok (.execMark i) (s.table.execMark me t) [.execMark (i + 1)]
  | marked {i : ℕ} (h : s.slotOf me i = none) :
    Goes s me ok (.execMark i) s.table [.acquire .execWake]
  | check {i : ℕ} {flag : Bool} {t : Slot} (h : s.slotOf me i = some t) :
    Goes s me ok (.execCheck i flag) s.table
      [.execCheck (i + 1) (flag || decide (t ≠ me ∧ (s.table.thread t).state.alive))]
  | again {i : ℕ} (h : s.slotOf me i = none) :
    Goes s me ok (.execCheck i true) s.table [.acquire .execWake]
  | alone {i : ℕ} (h : s.slotOf me i = none) :
    Goes s me ok (.execCheck i false) s.table [.kernel, .execDone]
  | execDone : Goes s me ok .execDone (Kernel.execDone s.table me ok) []
  | exitProcess (h : me.1 ≠ s.table.initproc) :
    Goes s me ok .exitProcess s.table [.kernel, .acquire .exitProcess]

/-- Frames that interrupts, faults, system calls and other kernel code put on the stack `st`. -/
inductive Pushes (s : Kernel C) (c : C) : Act → List Frame → Table → List Frame → Prop where
  | syscall (f : Call) : Pushes s c (.syscall f) [] s.table [.trapExit, .enter f, .trapExit]
  | tick : Pushes s c .timer [] s.table [.trapExit, .acquire .yield, .trapExit]
  | timer {st : List Frame} (h : s.interruptible c st) :
    Pushes s c .timer st s.table [.acquire .yield]
  | interrupt {st : List Frame} (n : ℕ) (h : s.interruptible c st) :
      Pushes s c (.interrupt n) st s.table [.acquire (.wakeup (.other n))]
  | fault {me : Slot} (hme : (s.cpu c).thread = some me) :
    Pushes s c .fault [] (s.table.fault me.1) [.trapExit]
  | sleep {st : List Frame} (n : ℕ) :
    Pushes s c (.sleep n) (.kernel :: st) s.table [.acquire (.sleep (.other n))]
  | wakeup {st : List Frame} (n : ℕ) :
    Pushes s c (.wakeup n) (.kernel :: st) s.table [.acquire (.wakeup (.other n))]

/-- Moves of `scheduler` between two looks at the table. -/
inductive Idles (T : Table) : Ctl → Table → Ctl → Prop where
  | interrupt (n : ℕ) : Idles T (.idle .none) T (.idle (.acquire n))
  | wakeup (n : ℕ) : Idles T (.idle (.crit n)) (T.wakeup1 (.other n)) (.idle .release)
  | used {p : ℕ} (h : p < NPROC) : Idles T (.scanProc p) T (.scanThread ⟨p, h⟩ 0)
  | unused (p : ℕ) : Idles T (.scanProc p) T (.scanProc (p + 1))
  | thread (p : ProcId) (i : ℕ) : Idles T (.scanThread p i) T (.scanThread p (i + 1))
  | proc (p : ProcId) (i : ℕ) : Idles T (.scanThread p i) T (.scanProc (p.val + 1))

/-- Code before `acquire(&ptable.lock)`, and after it. -/
inductive Takes (u : Cpu) : Ctl → Prop where
  | scheduler (h : u.ctl = .idle .none) : Takes u (.scanProc 0)
  | interrupt {n : ℕ} (h : u.ctl = .idle (.acquire n)) : Takes u (.idle (.crit n))
  | thread {me : Slot} {k : Sec} {st : List Frame} (hme : u.thread = some me)
    (h : u.ctl = .run (.acquire k :: st)) :
      Takes u (.run (.crit k :: st))

/-- Code before `release(&ptable.lock)`, and after it. -/
inductive Drops (u : Cpu) : Ctl → Prop where
  | interrupt (h : u.ctl = .idle .release) : Drops u (.idle .none)
  | scheduler {p : ℕ} (h : u.ctl = .scanProc p) : Drops u (.idle .none)
  | thread {me : Slot} {st : List Frame} (hme : u.thread = some me)
    (h : u.ctl = .run (.release :: st)) : Drops u (.run st)
  | forkret {me : Slot} {st fs : List Frame} (hme : u.thread = some me)
    (h : u.ctl = .run (.forkret :: st))
      (hfs : fs = [] ∨ fs = [.kernel]) : Drops u (.run (fs ++ st))

inductive Step (s : Kernel C) (c : C) : Act → Kernel C → Prop where
  | crit {me : Slot} {ok : Bool} {k : Sec} {st : List Frame} {s' : Kernel C}
    (hme : (s.cpu c).thread = some me)
      (hctl : (s.cpu c).ctl = .run (.crit k :: st)) (hn : s.crit c me ok k st = some s') :
      Step s c (.go ok) s'
  | acquire {ok : Bool} {k : Ctl} (hk : Takes (s.cpu c) k) (hlock : s.lock = none) :
      Step s c (.go ok) ({ s with lock := some c }.setCtl c k)
  | deadlock {ok : Bool} {k : Ctl} (hk : Takes (s.cpu c) k) (hlock : s.lock = some c) :
      Step s c (.go ok) (s.setCtl c (.panic .acquire))
  | release {ok : Bool} {k : Ctl} {b : Bool} (hk : Drops (s.cpu c) k) :
    Step s c (.go ok) ({ s with first := b }.release c k)
  | frame {me : Slot} {ok : Bool} {f : Frame} {st fs : List Frame} {T : Table}
    (hme : (s.cpu c).thread = some me)
      (hctl : (s.cpu c).ctl = .run (f :: st)) (hf : f.Goes s me ok T fs) :
      Step s c (.go ok) ({ s with table := T }.setCtl c (.run (fs ++ st)))
  | panic {me : Slot} {ok : Bool} {f : Frame} {st : List Frame} {m : Panic}
    (hme : (s.cpu c).thread = some me)
      (hctl : (s.cpu c).ctl = .run (f :: st)) (hf : f = .exitProcess ∧ m = .initExiting ∨
      f = .zombieExit ∧ m = .zombieExit) :
      Step s c (.go ok) (s.setCtl c (.panic m))
  | push {a : Act} {st fs : List Frame} {T : Table} (hctl : (s.cpu c).ctl = .run st)
    (h : Pushes s c a st T fs) :
      Step s c a ({ s with table := T }.setCtl c (.run (fs ++ st)))
  | idle {a : Act} {T : Table} {k : Ctl} (h : Idles s.table (s.cpu c).ctl T k) :
    Step s c a ({ s with table := T }.setCtl c k)
  | switch {ok : Bool} {p : ProcId} {i : ℕ} (hi : i < NTHREADS)
    (hctl : (s.cpu c).ctl = .scanThread p i)
      (hr : (s.table.thread (p, ⟨i, hi⟩)).state = .RUNNABLE) :
      Step s c (.go ok) (s.switch c (p, ⟨i, hi⟩))

theorem Kernel.release_table (s : Kernel C) (c : C) (k : Ctl) :
    (s.release c k).table = s.table := by
  unfold release
  split_ifs <;> rfl

variable {s s' : Kernel C} {c : C} {me : Slot} {ok : Bool}

theorem Step.of_acquire {k : Ctl} (hk : Takes (s.cpu c) k) (hn : s.acquire c k = some s') :
    Step s c (.go ok) s' := by
  unfold Kernel.acquire at hn
  split at hn
  · cases hn
    exact .acquire hk ‹_›
  · rename_i d hd
    split_ifs at hn with hdc
    cases hn
    exact .deadlock hk (hdc ▸ hd)

theorem Step.of_frame {f : Frame} {st : List Frame} (hme : (s.cpu c).thread = some me)
    (hctl : (s.cpu c).ctl = .run (f :: st)) (hn : s.frame c me ok f st = some s') :
    Step s c (.go ok) s' := by
  cases f with
  | acquire k => exact .of_acquire (.thread hme hctl) hn
  | crit k => exact .crit hme hctl hn
  | release =>
    cases hn
    exact .release (b := s.first) (.thread hme hctl)
  | forkret =>
    simp only [Kernel.frame, Option.some.injEq] at hn
    subst hn
    split_ifs
    · exact .release (.forkret hme hctl (.inr rfl))
    · exact .release (b := s.first) (.forkret hme hctl (.inl rfl))
  | sleepBack =>
    cases hn
    exact .frame hme hctl .sleepBack
  | trapExit =>
    cases hn
    split_ifs
    · exact .frame hme hctl (.trapExit (.inr rfl))
    · exact .frame hme hctl (.trapExit (.inl rfl))
  | enter g =>
    cases hn
    exact .frame hme hctl (.enter g)
  | kernel =>
    cases hn
    exact .frame hme hctl .kernel
  | execMark i =>
    simp only [Kernel.frame] at hn
    split at hn <;> cases hn
    · exact .frame hme hctl (.mark ‹_›)
    · exact .frame hme hctl (.marked ‹_›)
  | execCheck i flag =>
    simp only [Kernel.frame] at hn
    split at hn <;> cases hn
    · exact .frame hme hctl (.check ‹_›)
    · cases flag with
      | true => exact .frame hme hctl (.again ‹_›)
      | false => exact .frame hme hctl (.alone ‹_›)
  | execDone =>
    cases hn
    exact .frame hme hctl .execDone
  | exitProcess =>
    simp only [Kernel.frame] at hn
    split_ifs at hn with hinit <;> cases hn
    · exact .panic hme hctl (.inl ⟨rfl, rfl⟩)
    · exact .frame hme hctl (.exitProcess hinit)
  | zombieExit =>
    cases hn
    exact .panic hme hctl (.inr ⟨rfl, rfl⟩)

theorem Step.of_go (hn : s.go c ok = some s') : Step s c (.go ok) s' := by
  unfold go at hn
  split at hn <;> rename_i hctl
  · exact .of_acquire (.scheduler hctl) hn
  · exact .of_acquire (.interrupt hctl) hn
  · cases hn
    exact .idle (hctl ▸ .wakeup _)
  · cases hn
    exact .release (b := s.first) (.interrupt hctl)
  · split_ifs at hn with hp <;> cases hn
    · exact .idle (T := s.table) (hctl ▸ .used hp)
    · exact .idle (T := s.table) (hctl ▸ .unused _)
    · exact .release (b := s.first) (.scheduler hctl)
  · split_ifs at hn with hi _ hr <;> cases hn
    · exact .switch hi hctl hr
    · exact .idle (T := s.table) (hctl ▸ .thread _ _)
    · exact .idle (T := s.table) (hctl ▸ .proc _ _)
    · exact .idle (T := s.table) (hctl ▸ .proc _ _)
  · split at hn
    · exact .of_frame ‹_› hctl hn
    · cases hn
  · cases hn
  · cases hn

theorem Kernel.next_step {a : Act} (hn : s.next c a = some s') : Step s c a s' := by
  cases a with
  | go ok => exact .of_go hn
  | syscall f =>
    simp only [next] at hn
    split at hn <;> cases hn
    exact .push ‹_› (.syscall f)
  | timer =>
    simp only [next] at hn
    split at hn
    · cases hn
      exact .push ‹_› .tick
    · split_ifs at hn with hi
      cases hn
      exact .push ‹_› (.timer hi)
    · cases hn
  | interrupt n =>
    simp only [next] at hn
    split at hn
    · rename_i hctl
      cases hn
      exact .idle (T := s.table) (hctl ▸ .interrupt n)
    · split_ifs at hn with hi
      cases hn
      exact .push ‹_› (.interrupt n hi)
    · cases hn
  | fault =>
    simp only [next] at hn
    split at hn <;> cases hn
    exact .push ‹_› (.fault ‹_›)
  | sleep n =>
    simp only [next] at hn
    split at hn <;> cases hn
    exact .push ‹_› (.sleep n)
  | wakeup n =>
    simp only [next] at hn
    split at hn <;> cases hn
    exact .push ‹_› (.wakeup n)

end Xv6.Ptable
