import Xv6.Ide.Driver
import Xv6.Lib.Linked
import Mathlib.Tactic.SplitIfs

/-!
# The queue of the driver

`Queue s l`: the links from `idequeue` lead through `l`, which has no buffer twice; the command on
the disk is that of its head; the buffers appended are those completed followed by `l`; the threads
of the buffers in `l` sleep.  Every `Move` keeps this.
-/

namespace Xv6.Ide

open Function List State Option Bool

open Linked (Path)

variable {T B D : Type}

/-! ## The invariants -/

def Pc.buf : Pc B → Option B
  | .user => none
  | .acquire b | .walk b _ | .asleep b => some b

/-- The disk works on the command of the head of the queue, or has finished it and its interrupt
waits. -/
def State.Disk (s : State T B D) : List B → Prop
  | [] => s.cmd = none ∧ s.busy = false ∧ s.intr = 0
  | b :: _ => s.cmd = some (s.buf b).cmd ∧ s.intr = if s.busy then 0 else 1

/-- What holds for a thread by the place where it stands, with the queue `l`. -/
def State.Stands (P : Buf D → Prop) (s : State T B D) (l : List B) (t : T) : Pc B → Prop
  | .user => s.lock ≠ some t
  | .acquire b =>
    s.lock ≠ some t ∧ s.holder b = some t ∧ b ∉ l ∧ (s.buf b).synced = false ∧ P (s.buf b)
  | .walk b pp =>
    s.lock = some t ∧ s.holder b = some t ∧ b ∉ l ∧ (s.buf b).synced = false ∧ P (s.buf b) ∧
      s.qnext b = none ∧
      ∀ x, pp = some x → x ∈ l
  | .asleep b => s.lock ≠ some t ∧ s.holder b = some t ∧ (b ∈ l ∨ (s.buf b).synced)

structure Queue (P : Buf D → Prop) (s : State T B D) (l : List B) : Prop where
  path : Path s.qnext s.idequeue l
  nodup : l.Nodup
  order : s.appended = s.completed ++ l
  disk : s.Disk l
  todo : ∀ b ∈ l, (s.buf b).synced = false ∧ P (s.buf b)
  waits : ∀ b ∈ l, ∃ t, s.pc t = .asleep b
  thread : ∀ t, s.Stands P l t (s.pc t)

/-- The write that the disk has done for a request that is not completed. -/
def State.done (s : State T B D) : Option (ℕ × D) :=
  if s.busy then none else s.cmd.bind fun c => c.write.map fun d => (c.sector, d)

/-! ## Lemmas on the definitions -/

namespace State.Stands

variable {P : Buf D → Prop} {s s' : State T B D} {l : List B} {t : T} {b : B} {pc : Pc B}

theorem holder (h : s.Stands P l t pc) (hb : pc.buf = some b) : s.holder b = some t := by
  cases pc with
  | user => cases hb
  | acquire c => obtain rfl := some.inj hb; exact h.2.1
  | walk c pp => obtain rfl := some.inj hb; exact h.2.1
  | asleep c => obtain rfl := some.inj hb; exact h.2.1

theorem congr (h : s.Stands P l t pc) (hlock : s'.lock = some t ↔ s.lock = some t)
    (hown : ∀ b, pc.buf = some b → s'.holder b = s.holder b ∧ s'.buf b = s.buf b)
    (hq : ∀ b, pc.buf = some b → s'.qnext b = s.qnext b) : s'.Stands P l t pc := by
  cases pc with
  | user => exact fun hl => h (hlock.1 hl)
  | acquire b =>
    obtain ⟨h₁, h₂, h₃⟩ := h
    obtain ⟨ho, hb⟩ := hown b rfl
    refine ⟨fun hl => h₁ (hlock.1 hl), ho.trans h₂, ?_⟩
    rw [hb]
    exact h₃
  | walk b pp =>
    obtain ⟨h₁, h₂, h₃⟩ := h
    obtain ⟨ho, hb⟩ := hown b rfl
    refine ⟨hlock.2 h₁, ho.trans h₂, ?_⟩
    rw [hb, hq b rfl]
    exact h₃
  | asleep b =>
    obtain ⟨h₁, h₂, h₃⟩ := h
    obtain ⟨ho, hb⟩ := hown b rfl
    refine ⟨fun hl => h₁ (hlock.1 hl), ho.trans h₂, ?_⟩
    rw [hb]
    exact h₃

end State.Stands

namespace Queue

variable {P : Buf D → Prop} {s s' : State T B D} {l : List B} {t : T} {b : B}

theorem not_mem (h : Queue P s l) (hb : ∀ t, (s.pc t).buf ≠ some b) : b ∉ l := by
  intro hl
  obtain ⟨t, ht⟩ := h.waits b hl
  exact hb t (by rw [ht]; rfl)

theorem buf_ne (h : Queue P s l) (hb : s.holder b = some t) {t' : T} (hne : t' ≠ t) :
    (s.pc t').buf ≠ some b := by
  intro h'
  have := (h.thread t').holder h'
  rw [hb] at this
  exact hne (some.inj this).symm

theorem idle_of_user (h : Queue P s l) (ht : s.pc t = .user) (hb : s.holder b = some t) (t' : T) :
    (s.pc t').buf ≠ some b := by
  by_cases heq : t' = t
  · rw [heq, ht]
    nofun
  · exact h.buf_ne hb heq

theorem idle_of_free (h : Queue P s l) (hb : s.holder b = none) (t' : T) :
    (s.pc t').buf ≠ some b := by
  intro h'
  have := (h.thread t').holder h'
  rw [hb] at this
  cases this

end Queue

namespace State

variable [DecidableEq T]

theorem stands_goto {P : Buf D → Prop} {s : State T B D} {l : List B} {t : T} {pc : Pc B}
    (ht : s.Stands P l t pc) (hothers : ∀ t', t' ≠ t → s.Stands P l t' (s.pc t')) (t' : T) :
    (s.goto t pc).Stands P l t' ((s.goto t pc).pc t') := by
  by_cases heq : t' = t
  · subst heq
    have hpc : (s.goto t' pc).pc t' = pc := update_self ..
    rw [hpc]
    exact ht
  · have hpc : (s.goto t pc).pc t' = s.pc t' := update_of_ne heq ..
    rw [hpc]
    exact hothers t' heq

theorem waits_goto {s : State T B D} {t : T} {pc : Pc B} {b : B} (h : ∃ t, s.pc t = .asleep b)
    (ht : s.pc t ≠ .asleep b) : ∃ t', (s.goto t pc).pc t' = .asleep b := by
  obtain ⟨t', ht'⟩ := h
  have hne : t' ≠ t := by
    rintro rfl
    exact ht ht'
  exact ⟨t', (update_of_ne hne ..).trans ht'⟩

end State

/-! ## The queue is kept -/

namespace Queue

variable {P : Buf D → Prop} {s s' : State T B D} {l : List B} {t : T} {b : B}

theorem setHolder [DecidableEq B] (h : Queue P s l) (hb : ∀ t, (s.pc t).buf ≠ some b)
    (o : Option T) : Queue P { s with holder := update s.holder b o } l := by
  refine { h with thread := fun t => (h.thread t).congr Iff.rfl (fun b' ht => ⟨?_, rfl⟩) fun _ _ =>
    rfl }
  have hne : b' ≠ b := by
    rintro rfl
    exact hb t ht
  exact update_of_ne hne ..

theorem setBuf [DecidableEq B] (h : Queue P s l) (hb : ∀ t, (s.pc t).buf ≠ some b) (x : Buf D)
    (hs : List (Ev B D)) : Queue P { s.setBuf b x with history := hs } l := by
  have hbuf : ∀ b' ∈ l, update s.buf b x b' = s.buf b' := by
    intro b' hb'
    have hne : b' ≠ b := by
      rintro rfl
      exact h.not_mem hb hb'
    exact update_of_ne hne ..
  refine { h with disk := ?_, todo := ?_, thread := ?_ }
  · have hd := h.disk
    cases l with
    | nil => exact hd
    | cons c l =>
      refine ⟨?_, hd.2⟩
      show s.cmd = some (update s.buf b x c).cmd
      rw [hbuf c mem_cons_self]
      exact hd.1
  · intro b' hb'
    show (update s.buf b x b').synced = false ∧ P (update s.buf b x b')
    rw [hbuf b' hb']
    exact h.todo b' hb'
  · refine fun t => (h.thread t).congr Iff.rfl (fun b' ht => ⟨rfl, ?_⟩) fun _ _ => rfl
    have hne : b' ≠ b := by
      rintro rfl
      exact hb t ht
    exact update_of_ne hne ..

variable [DecidableEq T]

theorem call (h : Queue P s l) (ht : s.pc t = .user) (hb : s.holder b = some t)
    (hs : (s.buf b).synced = false) (hP : P (s.buf b)) : Queue P (s.goto t (.acquire b)) l := by
  have hlock : s.lock ≠ some t := by
    have := h.thread t
    rw [ht] at this
    exact this
  have hmem : b ∉ l := h.not_mem (h.idle_of_user ht hb)
  refine { h with waits := ?_, thread := ?_ }
  · exact fun c hc => waits_goto (h.waits c hc) (by rw [ht]; nofun)
  · exact stands_goto ⟨hlock, hb, hmem, hs, hP⟩ fun t' _ => h.thread t'

theorem await (h : Queue P s l) (ht : s.pc t = .asleep b) : Queue P (s.await t b) l := by
  have hst := h.thread t
  rw [ht] at hst
  obtain ⟨hlock, hb, hor⟩ := hst
  unfold State.await
  split_ifs with hs
  · -- the buffer is not queued any more
    have hmem : b ∉ l := fun hm => by
      have := (h.todo b hm).1
      rw [hs] at this
      cases this
    refine { h with waits := ?_, thread := ?_ }
    · refine fun c hc => State.waits_goto (h.waits c hc) ?_
      rw [ht]
      rintro ⟨rfl⟩
      exact hmem hc
    · exact State.stands_goto hlock fun t' _ => h.thread t'
  · have hsame : s.goto t (.asleep b) = s := by
      unfold State.goto
      rw [← ht, update_eq_self]
    rw [hsame]
    exact h

variable [DecidableEq B]

theorem acquire (h : Queue P s l) (ht : s.pc t = .acquire b) (hl : s.lock = none) :
    Queue P ({ s with lock := some t, qnext := update s.qnext b none }.goto t (.walk b none))
    l := by
  have hst := h.thread t
  rw [ht] at hst
  obtain ⟨-, hb, hmem, hs, hP⟩ := hst
  have hq : ∀ c, c ≠ b → update s.qnext b none c = s.qnext c := fun c hne => update_of_ne hne ..
  refine { h with path := ?_, waits := ?_, thread := ?_ }
  · refine h.path.congr fun c hc => hq c ?_
    rintro rfl
    exact hmem hc
  · exact fun c hc => waits_goto (h.waits c hc) (by rw [ht]; nofun)
  · refine stands_goto ⟨rfl, hb, hmem, hs, hP, update_self .., fun x hx => by cases hx⟩ fun t'
      hne => ?_
    refine (h.thread t').congr ?_ (fun _ _ => ⟨rfl, rfl⟩) fun c hc => hq c ?_
    · rw [hl]
      exact ⟨fun h' => absurd (some.inj h').symm hne, fun h' => by cases h'⟩
    · rintro rfl
      exact h.buf_ne hb hne hc

omit [DecidableEq B] in
theorem advance (h : Queue P s l) {pp : Option B} {x : B} (ht : s.pc t = .walk b pp)
    (hx : s.deref pp = some x) : Queue P (s.goto t (.walk b (some x))) l := by
  have hst := h.thread t
  rw [ht] at hst
  obtain ⟨hlock, hb, hmem, hs, hP, hq, hpp⟩ := hst
  have hxl : x ∈ l := by
    cases pp with
    | none =>
      cases l with
      | nil =>
        rw [deref, Path.nil_iff.1 h.path] at hx
        cases hx
      | cons c l =>
        rw [deref, h.path.1] at hx
        obtain rfl := some.inj hx
        exact mem_cons_self
    | some y => exact h.path.mem_of_link (hpp y rfl) hx
  refine { h with waits := ?_, thread := ?_ }
  · exact fun c hc => waits_goto (h.waits c hc) (by rw [ht]; nofun)
  · refine stands_goto ⟨hlock, hb, hmem, hs, hP, hq, ?_⟩ fun t' _ => h.thread t'
    rintro y ⟨rfl⟩
    exact hxl

omit [DecidableEq T] in
theorem path_store (h : Queue P s l) {pp : Option B} (ht : s.pc t = .walk b pp)
    (hend : s.deref pp = none) : Path (s.store b pp).qnext (s.store b pp).idequeue (l ++ [b]) := by
  have hst := h.thread t
  rw [ht] at hst
  obtain ⟨-, -, hmem, -, -, hq, hpp⟩ := hst
  cases pp with
  | none =>
    have hnil : l = [] := h.path.eq_nil_iff.2 hend
    rw [hnil]
    exact ⟨rfl, hq⟩
  | some x => exact h.path.append h.nodup (hpp x rfl) hend hmem hq

omit [DecidableEq T] in
theorem start_iff (h : Queue P s l) {pp : Option B} (ht : s.pc t = .walk b pp)
    (hend : s.deref pp = none) : (s.store b pp).idequeue = some b ↔ l = [] := by
  have hst := h.thread t
  rw [ht] at hst
  have hp := h.path_store ht hend
  cases l with
  | nil => exact ⟨fun _ => rfl, fun _ => hp.1⟩
  | cons c l =>
    refine ⟨fun he => ?_, fun he => by cases he⟩
    have hc : some c = some b := hp.1.symm.trans he
    obtain rfl := some.inj hc
    exact absurd mem_cons_self hst.2.2.1

end Queue

/-- After the buffer is appended to the queue `l`. -/
def State.enqueued [DecidableEq T] [DecidableEq B] (s : State T B D) (l : List B) (t : T) (b : B)
    (pp : Option B) : State T B D :=
  { s.store b pp with
    appended := s.appended ++ [b]
    lock := none
    cmd := if l = [] then some (s.buf b).cmd else s.cmd
    busy := if l = [] then true else s.busy }.goto t (.asleep b)

/-- After the interrupt for the buffer at the head of the queue, with `l` behind it. -/
def State.served [DecidableEq B] (s : State T B D) (b : B) (l : List B) : State T B D :=
  { s.complete b with intr := 0, cmd := l.head?.map fun c => (s.buf c).cmd, busy := l.head?.isSome }

namespace Queue

variable {P : Buf D → Prop} {s s' : State T B D} {l : List B} {t : T} {b : B} [DecidableEq T]
    [DecidableEq B]

theorem go_end (hR : ∀ x, P x → x.InRange) (h : Queue P s l) {pp : Option B}
    (ht : s.pc t = .walk b pp) (hend : s.deref pp = none) :
    s.go t = some (s.enqueued l t b pp) := by
  have hst := h.thread t
  rw [ht] at hst
  obtain ⟨-, -, -, hs, hP, -⟩ := hst
  have hbuf : (s.store b pp).buf = s.buf := by cases pp <;> rfl
  have hcmd : (s.store b pp).cmd = s.cmd := by cases pp <;> rfl
  have hbusy : (s.store b pp).busy = s.busy := by cases pp <;> rfl
  have hrange : ¬ FSSIZE ≤ (s.buf b).blockno := Nat.not_le.2 (hR _ hP)
  simp only [State.go, ht, hend, h.start_iff ht hend]
  by_cases hnil : l = []
  · -- the disk is idle
    have hidle : s.busy = false := by
      have := h.disk
      rw [hnil] at this
      exact this.2.1
    simp only [State.idestart, hbuf, hbusy, hidle, hnil, if_true, if_neg hrange, false_eq_true,
      if_false, map_some, State.await, hs, State.enqueued]
  · simp only [hnil, if_false, map_some, State.await, hbuf, hs, false_eq_true, State.enqueued, hcmd,
      hbusy]

theorem enqueued (h : Queue P s l) {pp : Option B} (ht : s.pc t = .walk b pp)
    (hend : s.deref pp = none) : Queue P (s.enqueued l t b pp) (l ++ [b]) := by
  have hst := h.thread t
  rw [ht] at hst
  obtain ⟨hlock, hb, hmem, hs, hP, hq, hpp⟩ := hst
  have hbuf : (s.store b pp).buf = s.buf := by cases pp <;> rfl
  have hholder : (s.store b pp).holder = s.holder := by cases pp <;> rfl
  have hpcs : (s.store b pp).pc = s.pc := by cases pp <;> rfl
  have hintr : (s.store b pp).intr = s.intr := by cases pp <;> rfl
  have hcomp : (s.store b pp).completed = s.completed := by cases pp <;> rfl
  refine ⟨h.path_store ht hend, ?_, ?_, ?_, ?_, ?_, ?_⟩
  · exact nodup_append.2 ⟨h.nodup, by simp, fun a ha c hc => by
      rintro rfl
      exact hmem ((mem_singleton.1 hc) ▸ ha)⟩
  · show s.appended ++ [b] = (s.store b pp).completed ++ (l ++ [b])
    rw [h.order, hcomp, append_assoc]
  · have hd := h.disk
    cases l with
    | nil =>
      refine ⟨?_, ?_⟩
      · show some (s.buf b).cmd = some ((s.store b pp).buf b).cmd
        rw [hbuf]
      · show (s.store b pp).intr = 0
        rw [hintr]
        exact hd.2.2
    | cons c l =>
      refine ⟨?_, ?_⟩
      · show s.cmd = some ((s.store b pp).buf c).cmd
        rw [hbuf]
        exact hd.1
      · show (s.store b pp).intr = if s.busy then 0 else 1
        rw [hintr]
        exact hd.2
  · intro c hc
    show ((s.store b pp).buf c).synced = false ∧ P ((s.store b pp).buf c)
    rw [hbuf]
    rcases mem_append.1 hc with hc | hc
    · exact h.todo c hc
    · obtain rfl := mem_singleton.1 hc
      exact ⟨hs, hP⟩
  · intro c hc
    rcases mem_append.1 hc with hc | hc
    · refine waits_goto ?_ ?_
      · show ∃ t, (s.store b pp).pc t = .asleep c
        rw [hpcs]
        exact h.waits c hc
      · show (s.store b pp).pc t ≠ .asleep c
        rw [hpcs, ht]
        nofun
    · obtain rfl := mem_singleton.1 hc
      exact ⟨t, update_self ..⟩
  · refine stands_goto ?_ fun t' hne => ?_
    · exact ⟨nofun, (congrFun hholder b).trans hb, .inl (by simp)⟩
    · -- another thread is not in the loop, and its buffer is another one
      have hother := h.thread t'
      show State.Stands P _ (l ++ [b]) t' ((s.store b pp).pc t')
      rw [hpcs]
      have hbne := h.buf_ne hb hne
      cases hpc : s.pc t' with
      | user => nofun
      | acquire c =>
        rw [hpc] at hother hbne
        obtain ⟨-, h₂, h₃, h₄⟩ := hother
        refine ⟨nofun, (congrFun hholder c).trans h₂, ?_, ?_⟩
        · intro hc
          rcases mem_append.1 hc with hc | hc
          · exact h₃ hc
          · exact hbne (congrArg some (mem_singleton.1 hc))
        · show ((s.store b pp).buf c).synced = false ∧ P ((s.store b pp).buf c)
          rw [hbuf]
          exact h₄
      | walk c pp' =>
        rw [hpc] at hother
        exact absurd (some.inj (hother.1.symm.trans hlock)) hne
      | asleep c =>
        rw [hpc] at hother
        obtain ⟨-, h₂, h₃⟩ := hother
        refine ⟨nofun, (congrFun hholder c).trans h₂, ?_⟩
        show c ∈ l ++ [b] ∨ ((s.store b pp).buf c).synced
        rw [hbuf]
        exact h₃.imp_left fun hc => mem_append_left _ hc

omit [DecidableEq T] [DecidableEq B] in
theorem finish (h : Queue P s l) (hb : s.busy) (medium : ℕ → ℕ → D) :
    Queue P { s with busy := false, intr := s.intr + 1, medium := medium } l := by
  refine { h with disk := ?_ }
  have hd := h.disk
  cases l with
  | nil =>
    have := hd.2.1
    rw [hb] at this
    cases this
  | cons b l =>
    refine ⟨hd.1, ?_⟩
    show s.intr + 1 = 1
    rw [hd.2, hb]
    rfl

omit [DecidableEq T] [DecidableEq B] in
theorem intr_pos (h : Queue P s l) (hi : 0 < s.intr) :
    ∃ b l', l = b :: l' ∧ s.cmd = some (s.buf b).cmd ∧ s.busy = false ∧ s.intr = 1 := by
  have hd := h.disk
  cases l with
  | nil =>
    have := hd.2.2
    omega
  | cons b l =>
    refine ⟨b, l, rfl, hd.1, ?_, ?_⟩
    · cases hb : s.busy with
      | false => rfl
      | true =>
        have := hd.2
        rw [hb] at this
        simp only [if_true] at this
        omega
    · have := hd.2
      split_ifs at this <;> omega

omit [DecidableEq T] in
theorem ideintr_eq (hR : ∀ x, P x → x.InRange) (h : Queue P s (b :: l)) (hb : s.busy = false)
    (hi : s.intr = 1) : { s with intr := s.intr - 1 }.ideintr = some (s.served b l) := by
  have hhead : s.idequeue = some b := h.path.1
  have hne : ∀ c ∈ l, c ≠ b := by
    rintro c hc rfl
    exact (nodup_cons.1 h.nodup).1 hc
  unfold ideintr
  simp only [hhead, hb, hi, Bool.false_and, Bool.false_eq_true, if_false]
  cases l with
  | nil =>
    have hq : s.qnext b = none := h.path.2
    simp only [complete, hq, served, head?_nil, map_none, isSome_none, Nat.sub_self,
      hb]
  | cons c l =>
    have hq : s.qnext b = some c := h.path.2.1
    have hc (x : Buf D) : update s.buf b x c = s.buf c := update_of_ne (hne c mem_cons_self) ..
    have hrange : ¬ FSSIZE ≤ (s.buf c).blockno := Nat.not_le.2 (hR _ (h.todo c (by simp)).2)
    simp only [complete, hq, idestart, hc, if_neg hrange, hb, Bool.false_eq_true, if_false, served,
      head?_cons, map_some, isSome_some, Nat.sub_self]

omit [DecidableEq T] in
theorem served (h : Queue P s (b :: l)) (hlock : s.lock = none) : Queue P (s.served b l) l := by
  obtain ⟨hbl, hnodup⟩ := nodup_cons.1 h.nodup
  have hbuf : ∀ c, c ≠ b → (s.served b l).buf c = s.buf c := fun c hne => update_of_ne hne ..
  have hsync : ((s.served b l).buf b).synced := by
    have : (s.served b l).buf b = _ := update_self ..
    rw [this]
    rfl
  have hne : ∀ c ∈ l, c ≠ b := by
    rintro c hc rfl
    exact hbl hc
  refine ⟨h.path.2, hnodup, ?_, ?_, ?_, ?_, ?_⟩
  · show s.appended = s.completed ++ [b] ++ l
    rw [h.order, append_assoc]
    rfl
  · cases l with
    | nil => exact ⟨rfl, rfl, rfl⟩
    | cons c l =>
      refine ⟨?_, rfl⟩
      show some (s.buf c).cmd = _
      rw [hbuf c (hne c mem_cons_self)]
  · intro c hc
    rw [hbuf c (hne c hc)]
    exact h.todo c (mem_cons_of_mem _ hc)
  · exact fun c hc => h.waits c (mem_cons_of_mem _ hc)
  · intro t
    have hst := h.thread t
    show State.Stands P _ l t (s.pc t)
    cases hpc : s.pc t with
    | user =>
      rw [hpc] at hst
      exact hst
    | acquire c =>
      rw [hpc] at hst
      obtain ⟨h₁, h₂, h₃, h₄⟩ := hst
      refine ⟨h₁, h₂, fun hc => h₃ (mem_cons_of_mem _ hc), ?_⟩
      rw [hbuf c (by rintro rfl; exact h₃ mem_cons_self)]
      exact h₄
    | walk c pp =>
      rw [hpc] at hst
      have := hst.1
      rw [hlock] at this
      cases this
    | asleep c =>
      rw [hpc] at hst
      obtain ⟨h₁, h₂, h₃⟩ := hst
      refine ⟨h₁, h₂, ?_⟩
      by_cases hc : c = b
      · rw [hc]
        exact .inr hsync
      · rw [hbuf c hc]
        exact h₃.imp_left fun hm => (mem_cons.1 hm).resolve_left hc

end Queue

/-! ## The steps -/

section Steps

variable {P : Buf D → Prop} {s s' : State T B D} {l l' : List B} [DecidableEq T] [DecidableEq B]

/-- What a step does to the queue and to the disk. -/
inductive Move (P : Buf D → Prop) (s : State T B D) (l : List B) : State T B D → List B → Prop
  /-- The step concerns the threads and the locks only. -/
  | quiet {s' : State T B D} (hq : Queue P s' l) (hbuf : s'.buf = s.buf)
    (hmedium : s'.medium = s.medium)
      (hdone : s'.done = s.done) (hcompleted : s'.completed = s.completed)
      (hhistory : s'.history = s.history) :
      Move P s l s' l
  | set (b : B) (x : Buf D) (hb : ∀ t, (s.pc t).buf ≠ some b) :
      Move P s l { s.setBuf b x with history := s.history ++ [.set b x] } l
  | enqueued (t : T) (b : B) (pp : Option B) (ht : s.pc t = .walk b pp) (hend : s.deref pp = none) :
      Move P s l (s.enqueued l t b pp) (l ++ [b])
  | finish (c : Cmd D) (hc : s.cmd = some c) (hb : s.busy) :
      Move P s l { s with busy := false, intr := s.intr + 1, medium := c.perform s.medium } l
  | served (b : B) (l' : List B) (hl : l = b :: l') (hlock : s.lock = none)
    (hc : s.cmd = some (s.buf b).cmd)
      (hb : s.busy = false) : Move P s l (s.served b l') l'

theorem Queue.move (hR : ∀ x, P x → x.InRange) {havedisk1 : Bool} {a : Act T B D} (h : Queue P s l)
    (hok : Requests P s a) (hn : s.next havedisk1 a = some s') : ∃ l', Move P s l s' l' := by
  unfold State.next at hn
  have hh : ¬ s.halted := by
    intro hh
    rw [if_pos hh] at hn
    cases hn
  rw [if_neg hh] at hn
  cases a with
  | acquiresleep t b =>
    simp only at hn
    split_ifs at hn with hb
    cases hn
    exact ⟨l, .quiet (h.setHolder (h.idle_of_free hb.2) _) rfl rfl rfl rfl rfl⟩
  | releasesleep t b =>
    simp only at hn
    split_ifs at hn with hb
    cases hn
    exact ⟨l, .quiet (h.setHolder (h.idle_of_user hb.1 hb.2) _) rfl rfl rfl rfl rfl⟩
  | touch t b x =>
    simp only at hn
    split_ifs at hn with hb
    cases hn
    exact ⟨l, .set b x (h.idle_of_user hb.1 hb.2)⟩
  | recycle b x =>
    simp only at hn
    split_ifs at hn with hb
    cases hn
    exact ⟨l, .set b x (h.idle_of_free hb)⟩
  | iderw t b =>
    simp only at hn
    split_ifs at hn with ht hb hs hd
    · exact absurd hok.1 hb
    · cases hn
      exact ⟨l, .quiet { h with } rfl rfl rfl rfl rfl⟩
    · cases hn
      exact ⟨l, .quiet { h with } rfl rfl rfl rfl rfl⟩
    · cases hn
      exact ⟨l, .quiet (h.call ht hok.1 (not_eq_true _ ▸ hs) hok.2) rfl rfl rfl rfl rfl⟩
  | go t =>
    change s.go t = some s' at hn
    cases hpc : s.pc t with
    | user => simp [go, hpc] at hn
    | asleep b => simp [go, hpc] at hn
    | acquire b =>
      simp only [go, hpc] at hn
      split_ifs at hn with hl
      cases hn
      exact ⟨l, .quiet (h.acquire hpc hl) rfl rfl rfl rfl rfl⟩
    | walk b pp =>
      cases hx : s.deref pp with
      | some x =>
        simp only [go, hpc, hx, some.injEq] at hn
        subst hn
        exact ⟨l, .quiet (h.advance hpc hx) rfl rfl rfl rfl rfl⟩
      | none =>
        rw [h.go_end hR hpc hx, some.injEq] at hn
        subst hn
        exact ⟨_, .enqueued t b pp hpc hx⟩
  | wake t =>
    cases hpc : s.pc t with
    | user => simp [hpc] at hn
    | acquire b => simp [hpc] at hn
    | walk b pp => simp [hpc] at hn
    | asleep b =>
      simp only [hpc] at hn
      split_ifs at hn with hl
      cases hn
      exact ⟨l, .quiet (h.await hpc) rfl rfl rfl rfl rfl⟩
  | finish =>
    simp only at hn
    split at hn
    case h_1 c hc =>
      split_ifs at hn with hb
      cases hn
      exact ⟨l, .finish c hc hb⟩
    case h_2 => cases hn
  | ideintr =>
    simp only at hn
    split_ifs at hn with hi
    obtain ⟨b, l', rfl, hc, hb, hi'⟩ := h.intr_pos hi.1
    rw [h.ideintr_eq hR hb hi', some.injEq] at hn
    subst hn
    exact ⟨l', .served b l' rfl hi.2 hc hb⟩

theorem Move.queue (h : Queue P s l) (hm : Move P s l s' l') : Queue P s' l' := by
  cases hm with
  | quiet hq => exact hq
  | set b x hb => exact h.setBuf hb x _
  | enqueued t b pp ht hend => exact h.enqueued ht hend
  | finish c hc hb => exact h.finish hb _
  | served b l' hl hlock => exact (hl ▸ h).served hlock

/-! ## Progress -/

/-- The thread with `idelock` goes on, and so does the disk; the interrupt completes the head of the
queue. -/
structure Progress (havedisk1 : Bool) (s : State T B D) (l : List B) : Prop where
  walk : ∀ t, s.lock = some t → ∃ s', s.next havedisk1 (.go t) = some s'
  disk : s.busy → ∃ s', s.next havedisk1 .finish = some s' ∧ s'.busy = false
  intr : ∀ b l', l = b :: l' → s.busy = false → s.lock = none →
    ∃ s', s.next havedisk1 .ideintr = some s' ∧ s'.completed = s.completed ++ [b] ∧
    (s'.buf b).synced

theorem Queue.progress (hR : ∀ x, P x → x.InRange) (h : Queue P s l) (hh : s.halted = false)
    (havedisk1 : Bool) : Progress havedisk1 s l where
  walk t ht := by
    have hst := h.thread t
    simp only [State.next, hh, false_eq_true, if_false]
    cases hpc : s.pc t with
    | user => rw [hpc] at hst; exact absurd ht hst
    | acquire b => rw [hpc] at hst; exact absurd ht hst.1
    | asleep b => rw [hpc] at hst; exact absurd ht hst.1
    | walk b pp =>
      cases hx : s.deref pp with
      | some x => exact ⟨s.goto t (.walk b (some x)), by simp only [go, hpc, hx]⟩
      | none => exact ⟨_, h.go_end hR hpc hx⟩
  disk hb := by
    have hd := h.disk
    cases l with
    | nil =>
      rw [hd.2.1] at hb
      cases hb
    | cons b l =>
      simp only [State.next, hh, hd.1, hb, false_eq_true, if_false, if_true]
      exact ⟨_, rfl, rfl⟩
  intr b l' hl hb hlock := by
    subst hl
    have hi : s.intr = 1 := by
      have := h.disk.2
      rw [hb] at this
      exact this
    refine ⟨s.served b l', ?_, rfl, ?_⟩
    · have hpos : 0 < s.intr ∧ s.lock = none := ⟨by omega, hlock⟩
      have hh' : ¬ s.halted := by simp [hh]
      simp only [State.next, if_neg hh', if_pos hpos]
      exact h.ideintr_eq hR hb hi
    · have : (s.served b l').buf b = _ := update_self ..
      rw [this]
      rfl

omit [DecidableEq T] [DecidableEq B] in
theorem idestart_same {b : B} (h : s.idestart b = some s') : s'.pc = s.pc ∧ s'.buf = s.buf := by
  unfold idestart at h
  split_ifs at h
  · cases h
    exact ⟨rfl, rfl⟩
  · cases h
    exact ⟨rfl, rfl⟩

omit [DecidableEq T] in
theorem ideintr_pc (h : s.ideintr = some s') : s'.pc = s.pc := by
  unfold ideintr at h
  split at h
  · cases h
    rfl
  · split_ifs at h
    split at h
    · cases h
      rfl
    · exact (idestart_same h).1

omit [DecidableEq B] in
theorem goto_ne_user {t t' : T} {b : B} {pc : Pc B} (hb : (s.pc t).buf = some b)
    (hpc : pc ≠ .user) : (s.goto t' pc).pc t ≠ .user := by
  by_cases heq : t = t'
  · have h : (s.goto t' pc).pc t = pc := by
      rw [heq]
      exact update_self ..
    rw [h]
    exact hpc
  · have h : (s.goto t' pc).pc t = s.pc t := update_of_ne heq ..
    rw [h]
    intro hu
    rw [hu] at hb
    cases hb

omit [DecidableEq B] in
theorem await_returns {t t' : T} {b b' : B} (hb : (s.pc t).buf = some b)
    (hb' : (s.pc t').buf = some b') (ht : (s.await t' b').pc t = .user) : (s.buf b).synced := by
  by_cases heq : t = t'
  · subst heq
    obtain rfl := some.inj (hb.symm.trans hb')
    have hpc : (s.await t b).pc t = _ := update_self ..
    rw [hpc] at ht
    split_ifs at ht with hs
    exact hs
  · have hpc : (s.await t' b').pc t = s.pc t := update_of_ne heq ..
    rw [← hpc, ht] at hb
    cases hb

theorem next_returns {havedisk1 : Bool} {a : Act T B D} {t : T} {b : B}
    (hn : s.next havedisk1 a = some s') (hb : (s.pc t).buf = some b) (ht : s'.pc t = .user) :
    (s'.buf b).synced := by
  have hbusy : s'.pc t ≠ s.pc t := by
    rw [ht]
    intro h
    rw [← h] at hb
    cases hb
  unfold State.next at hn
  have hh : ¬ s.halted := by
    intro hh
    rw [if_pos hh] at hn
    cases hn
  rw [if_neg hh] at hn
  cases a with
  | acquiresleep _ _ => simp only at hn; split_ifs at hn; cases hn; exact absurd rfl hbusy
  | releasesleep _ _ => simp only at hn; split_ifs at hn; cases hn; exact absurd rfl hbusy
  | touch _ _ _ => simp only at hn; split_ifs at hn; cases hn; exact absurd rfl hbusy
  | recycle _ _ => simp only at hn; split_ifs at hn; cases hn; exact absurd rfl hbusy
  | iderw t' b' =>
    simp only at hn
    split_ifs at hn
    · cases hn
      exact absurd rfl hbusy
    · cases hn
      exact absurd rfl hbusy
    · cases hn
      exact absurd rfl hbusy
    · cases hn
      exact absurd ht (goto_ne_user hb nofun)
  | go t' =>
    change s.go t' = some s' at hn
    unfold go at hn
    split at hn
    · cases hn
    · cases hn
    · split_ifs at hn
      cases hn
      exact absurd ht (goto_ne_user hb nofun)
    · rename_i b' pp hpc
      split at hn
      · cases hn
        exact absurd ht (goto_ne_user hb nofun)
      · -- the test after the append
        obtain ⟨s₃, hs₃, rfl⟩ := map_eq_some_iff.1 hn
        have hstore : (s.store b' pp).pc = s.pc := by cases pp <;> rfl
        have hpcs : s₃.pc = s.pc := by
          split_ifs at hs₃
          · exact (idestart_same hs₃).1.trans hstore
          · cases hs₃
            exact hstore
        refine await_returns (s := { s₃ with lock := none }) ?_ ?_ ht
        · show (s₃.pc t).buf = some b
          rw [hpcs]
          exact hb
        · show (s₃.pc t').buf = some b'
          rw [hpcs, hpc]
          rfl
  | wake t' =>
    simp only at hn
    split at hn
    case h_1 b' hpc =>
      split_ifs at hn
      cases hn
      exact await_returns (s := s) hb (by rw [hpc]; rfl) ht
    case h_2 => cases hn
  | finish =>
    simp only at hn
    split at hn
    case h_1 c hc => split_ifs at hn; cases hn; exact absurd rfl hbusy
    case h_2 => cases hn
  | ideintr =>
    simp only at hn
    split_ifs at hn
    exact absurd (congrFun (ideintr_pc hn) t) hbusy

/-! ## Every state -/

omit [DecidableEq T] [DecidableEq B] in
theorem boot_queue (medium : ℕ → ℕ → D) (buf : B → Buf D) :
    Queue P (boot (T := T) medium buf) [] where
  path := rfl
  nodup := nodup_nil
  order := rfl
  disk := ⟨rfl, rfl, rfl⟩
  todo := nofun
  waits := nofun
  thread _ := nofun

variable {havedisk1 : Bool} {medium : ℕ → ℕ → D} {buf : B → Buf D}

theorem exists_queue (hR : ∀ x, P x → x.InRange)
    (h : (sys havedisk1 medium buf).ReachableVia (Requests P) s) : ∃ l, Queue P s l := by
  refine h.invariant (I := fun s => ∃ l, Queue P s l) ?_ ?_
  · rintro s rfl
    exact ⟨[], boot_queue medium buf⟩
  · rintro s a s' ⟨l, hq⟩ hok hn
    obtain ⟨l', hm⟩ := hq.move hR hok hn
    exact ⟨l', hm.queue hq⟩

omit [DecidableEq T] [DecidableEq B] in
theorem Queue.cmd_eq (h : Queue P s l) : s.cmd = l.head?.map fun b => (s.buf b).cmd := by
  have hd := h.disk
  cases l with
  | nil => exact hd.1
  | cons b l => exact hd.1

end Steps

end Xv6.Ide
