import Mathlib.Data.Fintype.Defs
import Mathlib.Logic.Function.Basic
import Mathlib.Logic.Relation

/-!
# Threads that take locks

A thread's code is a tree of lock operations and actions on shared data (`Prog`); `Threads.step`
runs one thread to its next operation.  `Waits` is the relation "blocked on a lock held by", and a
deadlock is a cycle of it.

* `not_deadlock_of_order`: there is none if every blocked thread asks for a lock above those it
  holds, in an order without cycles.
* `Discipline`: a rely-guarantee logic for this.  Each thread has a ghost value that says which
  locks it holds and what it owns; `Safe` is what its code has to satisfy, alone; `Sound` is the
  invariant of all threads together, kept by every step (`Sound.step`, `Sound.start`).

An acquisition marked `now` takes back a lock that the thread has just released: it never waits if
no other thread takes the lock in between.  An acquisition may also have a guard, a condition on the
data that the code does not check.  `Threads.Clear` says that a step respects both.
-/

namespace LockProg

open Function

variable {σ L T : Type}

/-- Code that takes locks of `L` and acts on data of `σ`. -/
inductive Prog (σ L : Type) where
  | done
  | stop
  | acquire (now : Bool) (guard : σ → Bool) (i : L) (k : Prog σ L)
  | release (i : L) (k : Prog σ L)
  /-- Change the data, and go on as the old data say. -/
  | act (f : σ → σ) (k : σ → Prog σ L)

namespace Prog

def wants : Prog σ L → Option L
  | acquire _ _ i _ => some i
  | _ => none

def takesBack : Prog σ L → Option L
  | acquire true _ i _ => some i
  | _ => none

def admits : Prog σ L → σ → Bool
  | acquire _ guard _ _, s => guard s
  | _, _ => true

def read (k : σ → Prog σ L) : Prog σ L := act id k

end Prog

/-- Shared data, the holders of the locks, and the rest of each thread's code. -/
structure Threads (σ L T : Type) where
  data : σ
  lock : L → Option T
  prog : T → Prog σ L

/-- Thread `t` is blocked on a lock that `u` holds. -/
def Waits (s : Threads σ L T) (t u : T) : Prop := ∃ i, (s.prog t).wants = some i ∧ s.lock i = some u

/-- Threads that wait for each other in a circle. -/
def Deadlock (s : Threads σ L T) : Prop := ∃ t, Relation.TransGen (Waits s) t t

/-- Threads that ask for locks in an order without cycles do not wait for each other in a circle. -/
theorem not_cycle_of_order {wants : T → Option L} {owner : L → Option T} {lt : L → L → Prop}
    (hacyclic : ∀ i, ¬ Relation.TransGen lt i i)
    (horder : ∀ t u i, wants t = some i → owner i = some u → ∀ j, owner j = some t → lt j i)
    (t : T) : ¬ Relation.TransGen (fun t u => ∃ i, wants t = some i ∧ owner i = some u) t t := by
  -- a chain of waiting threads is a chain of the locks they wait for
  have hchain : ∀ {t u : T}, Relation.TransGen (fun t u => ∃ i, wants t = some i ∧ owner i = some u)
    t u →
      ∀ i, wants u = some i → (∃ v, owner i = some v) → ∃ j, wants t = some j ∧
        (∃ v, owner j = some v) ∧ Relation.TransGen lt j i := by
    intro t u h
    induction h using Relation.TransGen.head_induction_on with
    | single h =>
      rintro i hi ⟨v, hv⟩
      obtain ⟨j, hj, hju⟩ := h
      exact ⟨j, hj, ⟨_, hju⟩, .single (horder _ _ i hi hv j hju)⟩
    | head h _ ih =>
      rintro i hi hv
      obtain ⟨j, hj, hju⟩ := h
      obtain ⟨j', hj', ⟨v', hv'⟩, hlt⟩ := ih i hi hv
      exact ⟨j, hj, ⟨_, hju⟩, .head (horder _ _ j' hj' hv' j hju) hlt⟩
  intro ht
  obtain ⟨u, ⟨i, hi, hiu⟩, -⟩ := Relation.TransGen.head'_iff.1 ht
  obtain ⟨j, hj, -, hlt⟩ := hchain ht i hi ⟨u, hiu⟩
  obtain rfl : i = j := Option.some.inj (hi.symm.trans hj)
  exact hacyclic i hlt

theorem not_deadlock_of_order {s : Threads σ L T} {lt : L → L → Prop}
    (hacyclic : ∀ i, ¬ Relation.TransGen lt i i)
    (horder : ∀ t u i, (s.prog t).wants = some i → s.lock i = some u → ∀ j, s.lock j = some t →
    lt j i) : ¬ Deadlock s := by
  rintro ⟨t, ht⟩
  exact not_cycle_of_order hacyclic horder t ht

/-! ## Steps -/

namespace Threads

variable [DecidableEq L] [DecidableEq T]

/-- Run thread `t` to its next operation.  A release without the lock stops the thread. -/
def step (s : Threads σ L T) (t : T) : Option (Threads σ L T) :=
  match s.prog t with
  | .done | .stop => none
  | .acquire _ _ i k =>
    if s.lock i = none then
      some { s with lock := update s.lock i (some t), prog := update s.prog t k }
    else none
  | .release i k =>
    if s.lock i = some t then
      some { s with lock := update s.lock i none, prog := update s.prog t k }
    else some { s with prog := update s.prog t .stop }
  | .act f k => some { s with data := f s.data, prog := update s.prog t (k s.data) }

/-- Thread `t` takes no lock against its guard, and none that another thread is about to take
back. -/
def Clear (s : Threads σ L T) (t : T) : Prop :=
  (s.prog t).admits s.data ∧
    ∀ u, u = t ∨ (s.prog u).takesBack = none ∨ (s.prog u).takesBack ≠ (s.prog t).wants

instance [Fintype T] (s : Threads σ L T) (t : T) : Decidable (s.Clear t) :=
  inferInstanceAs (Decidable (_ ∧ ∀ u, u = t ∨ (s.prog u).takesBack = none ∨
    (s.prog u).takesBack ≠ (s.prog t).wants))

end Threads

/-! ## A logic for threads -/

/-- What threads know and promise.  `ε` is the data with shared ghost state, `γ` a thread's own
ghost value. -/
structure Discipline (σ ε L T γ : Type) where
  /-- The data without the ghost state. -/
  data : ε → σ
  /-- The thread holds the lock. -/
  held : γ → L → Prop
  /-- The thread may ask for the lock. -/
  mayTake : γ → L → Prop
  /-- The ghost value after taking, and after releasing, a lock. -/
  take : γ → L → γ
  give : γ → L → γ
  /-- The order of the locks. -/
  lt : ε → L → L → Prop
  /-- What the other threads may do. -/
  rely : γ → ε → ε → Prop
  /-- What the thread may do, and what becomes of its ghost value. -/
  guar : γ → γ → ε → ε → Prop
  /-- The thread is not in a call. -/
  idle : γ → Prop
  /-- The ghost values of all threads fit together, and to the data. -/
  joint : (T → γ) → ε → Prop

namespace Discipline

variable {ε γ : Type} (D : Discipline σ ε L T γ)

/-- The code keeps the discipline, whatever the other threads do. -/
def Safe : Prog σ L → γ → ε → Prop
  | .done, g, _ => D.idle g
  | .stop, _, _ => True
  | .acquire now guard i k, g, e => D.mayTake g i ∧ k.takesBack = none ∧ ∀ e', D.rely g e e' →
      (now = false → ∀ j, D.held g j → D.lt e' j i) ∧
        (guard (D.data e') → Safe k (D.take g i) e')
  | .release i k, g, e => D.held g i ∧ (k.takesBack = none ∨ k.takesBack = some i) ∧
      ∀ e', D.rely g e e' → Safe k (D.give g i) e'
  | .act f k, g, e => ∀ e', D.rely g e e' → (k (D.data e')).takesBack = none ∧
      ∃ g' e'', D.data e'' = f (D.data e') ∧ D.guar g g' e' e'' ∧ Safe (k (D.data e')) g' e''

/-- Safe code that does not begin by taking a lock back. -/
def Runs (p : Prog σ L) (g : γ) (e : ε) : Prop := p.takesBack = none ∧ D.Safe p g e

/-- How a step of a thread changes its ghost value. -/
inductive Moves : γ → γ → Prop where
  | take (g : γ) (i : L) : Moves g (D.take g i)
  | give (g : γ) (i : L) : Moves g (D.give g i)
  | act {g g' : γ} {e e' : ε} (h : D.guar g g' e e') : Moves g g'

structure Lawful [DecidableEq T] : Prop where
  held_take : ∀ g i j, D.held (D.take g i) j ↔ j = i ∨ D.held g j
  held_give : ∀ g i j, D.held (D.give g i) j ↔ D.held g j ∧ j ≠ i
  acyclic : ∀ g e i, D.joint g e → ¬ Relation.TransGen (D.lt e) i i
  rely_refl : ∀ g e t, D.joint g e → D.rely (g t) e e
  rely_trans : ∀ g e e' e'', D.rely g e e' → D.rely g e' e'' → D.rely g e e''
  joint_take : ∀ g e t i, D.joint g e → D.mayTake (g t) i →
    D.joint (update g t (D.take (g t) i)) e
  joint_give : ∀ g e t i, D.joint g e → D.joint (update g t (D.give (g t) i)) e
  joint_act : ∀ g e t g' e', D.joint g e → (∀ t u i, D.held (g t) i → D.held (g u) i → t = u) →
    D.guar (g t) g' e e' → D.joint (update g t g') e' ∧ (∀ u, u ≠ t → D.rely (g u) e e') ∧
      ∀ i, D.held g' i ↔ D.held (g t) i

/-- The invariant of all threads together. -/
structure Sound (s : Threads σ L T) (g : T → γ) (e : ε) : Prop where
  data : D.data e = s.data
  joint : D.joint g e
  lock : ∀ t i, s.lock i = some t ↔ D.held (g t) i
  safe : ∀ t, D.Safe (s.prog t) (g t) e
  takesBack : ∀ t i, (s.prog t).takesBack = some i → s.lock i = none

variable {D} {s s' : Threads σ L T} {g : T → γ} {e : ε}

theorem Safe.mono [DecidableEq T] (hD : D.Lawful) {p : Prog σ L} {g : γ} {e e' : ε}
    (h : D.Safe p g e) (hr : D.rely g e e') : D.Safe p g e' := by
  cases p with
  | done => exact h
  | stop => trivial
  | acquire now guard i k =>
    exact ⟨h.1, h.2.1, fun e'' he => h.2.2 e'' (hD.rely_trans g e e' e'' hr he)⟩
  | release i k => exact ⟨h.1, h.2.1, fun e'' he => h.2.2 e'' (hD.rely_trans g e e' e'' hr he)⟩
  | act f k => exact fun e'' he => h e'' (hD.rely_trans g e e' e'' hr he)

theorem Sound.held_unique (h : D.Sound s g e) (t u : T) (i : L) (ht : D.held (g t) i)
    (hu : D.held (g u) i) : t = u :=
  Option.some.inj (((h.lock t i).2 ht).symm.trans ((h.lock u i).2 hu))

theorem Sound.not_deadlock [DecidableEq T] (hD : D.Lawful) (h : D.Sound s g e) : ¬ Deadlock s := by
  refine not_deadlock_of_order (fun i => hD.acyclic g e i h.joint) fun t u i hi hiu j hj => ?_
  have hsafe := h.safe t
  cases hp : s.prog t with
  | acquire now guard i' k =>
    rw [hp] at hi hsafe
    obtain rfl : i' = i := Option.some.inj hi
    cases now with
    | false => exact (hsafe.2.2 _ (hD.rely_refl g _ t h.joint)).1 rfl j ((h.lock t j).1 hj)
    | true =>
      have := h.takesBack t i' (by rw [hp]; rfl)
      rw [hiu] at this
      exact absurd this (by simp)
  | done | stop | release _ _ | act _ _ =>
    rw [hp] at hi
    cases hi

variable [DecidableEq T]

theorem Sound.start (h : D.Sound s g e) {t : T} {p : Prog σ L} {g' : γ}
    (hjoint : D.joint (update g t g') e) (hheld : ∀ i, D.held g' i ↔ D.held (g t) i)
    (hp : D.Runs p g' e) : D.Sound { s with prog := update s.prog t p } (update g t g') e where
  data := h.data
  joint := hjoint
  lock u i := by
    by_cases hu : u = t
    · subst hu
      simp [hheld, h.lock]
    · simp [hu, h.lock]
  safe u := by
    by_cases hu : u = t
    · subst hu
      simpa using hp.2
    · simpa [hu] using h.safe u
  takesBack u i hi := by
    by_cases hu : u = t
    · subst hu
      simp [hp.1] at hi
    · simp only [update_of_ne hu] at hi
      exact h.takesBack u i hi

theorem Sound.act (hD : D.Lawful) (h : D.Sound s g e) {t : T} {f : σ → σ} {k : σ → Prog σ L}
    (hp : s.prog t = .act f k) : ∃ g' e', D.Moves (g t) g' ∧
      D.Sound { s with data := f s.data, prog := update s.prog t (k s.data) }
        (update g t g') e' := by
  have hsafe := h.safe t
  rw [hp] at hsafe
  obtain ⟨hback, g', e', hdata, hguar, hk⟩ := hsafe e (hD.rely_refl g _ t h.joint)
  rw [h.data] at hback hdata hk
  obtain ⟨hjoint, hrely, hheld⟩ := hD.joint_act g e t g' e' h.joint h.held_unique hguar
  refine ⟨g', e', .act hguar, hdata, hjoint, fun u i => ?_, fun u => ?_, fun u i hi => ?_⟩
  · by_cases hu : u = t
    · subst hu
      simp [hheld, h.lock]
    · simp [hu, h.lock]
  · by_cases hu : u = t
    · subst hu
      simpa using hk
    · simpa [hu] using (h.safe u).mono hD (hrely u hu)
  · by_cases hu : u = t
    · subst hu
      simp [hback] at hi
    · simp only [update_of_ne hu] at hi
      exact h.takesBack u i hi

variable [DecidableEq L]

section

variable (hD : D.Lawful) (h : D.Sound s g e) {t : T}

include hD h

theorem Sound.acquire {now : Bool} {guard : σ → Bool} {i : L}
    {k : Prog σ L} (hp : s.prog t = .acquire now guard i k) (hfree : s.lock i = none)
    (hclear : s.Clear t) :
    D.Sound { s with lock := update s.lock i (some t), prog := update s.prog t k }
      (update g t (D.take (g t) i)) e := by
  have hsafe := h.safe t
  rw [hp] at hsafe
  obtain ⟨hmay, hback, hk⟩ := hsafe
  have hnone : ∀ u, ¬ D.held (g u) i := fun u hu => by simpa [hfree] using (h.lock u i).2 hu
  constructor
  · exact h.data
  · exact hD.joint_take g e t i h.joint hmay
  · intro u j
    simp only [update_apply]
    by_cases hu : u = t <;> by_cases hj : j = i
    · simp [hu, hj, hD.held_take]
    · simp [hu, hj, hD.held_take, h.lock]
    · simp [hu, hj, hnone, Ne.symm hu]
    · simp [hu, hj, h.lock]
  · intro u
    by_cases hu : u = t
    · subst hu
      have hguard := hclear.1
      rw [hp, ← h.data] at hguard
      simpa using (hk _ (hD.rely_refl g _ u h.joint)).2 hguard
    · simpa [hu] using h.safe u
  · intro u j hj
    by_cases hu : u = t
    · subst hu
      simp [hback] at hj
    · simp only [update_of_ne hu] at hj
      -- a lock that another thread takes back is not the one taken here
      have hji : j ≠ i := by
        rintro rfl
        rcases hclear.2 u with hut | hn | hn
        · exact hu hut
        · simp [hj] at hn
        · exact hn (by rw [hj, hp]; rfl)
      simpa [hji] using h.takesBack u j hj

theorem Sound.release {i : L} {k : Prog σ L} (hp : s.prog t = .release i k) :
    D.Sound { s with lock := update s.lock i none, prog := update s.prog t k }
      (update g t (D.give (g t) i)) e := by
  have hsafe := h.safe t
  rw [hp] at hsafe
  obtain ⟨hheld, hback, hk⟩ := hsafe
  constructor
  · exact h.data
  · exact hD.joint_give g e t i h.joint
  · intro u j
    simp only [update_apply]
    by_cases hu : u = t <;> by_cases hj : j = i
    · simp [hu, hj, hD.held_give]
    · simp [hu, hj, hD.held_give, h.lock]
    · have : ¬ D.held (g u) i := fun hi => hu (h.held_unique u t i hi hheld)
      simp [hu, hj, this]
    · simp [hu, hj, h.lock]
  · intro u
    by_cases hu : u = t
    · subst hu
      simpa using hk _ (hD.rely_refl g _ u h.joint)
    · simpa [hu] using h.safe u
  · intro u j hj
    by_cases hji : j = i
    · simp [hji]
    · by_cases hu : u = t
      · subst hu
        rcases hback with hn | hn <;> simp [hn] at hj
        exact absurd hj.symm hji
      · simp only [update_of_ne hu] at hj
        simpa [hji] using h.takesBack u j hj

theorem Sound.step (hclear : s.Clear t) (hs : s.step t = some s') :
    ∃ g' e', D.Moves (g t) g' ∧ D.Sound s' (update g t g') e' := by
  unfold Threads.step at hs
  split at hs
  · cases hs
  · cases hs
  · next now guard i k hp =>
    split_ifs at hs with hfree
    cases hs
    exact ⟨_, e, .take _ i, h.acquire hD hp hfree hclear⟩
  · next i k hp =>
    have hheld : s.lock i = some t := by
      have hsafe := h.safe t
      rw [hp] at hsafe
      exact (h.lock t i).2 hsafe.1
    rw [if_pos hheld] at hs
    cases hs
    exact ⟨_, e, .give _ i, h.release hD hp⟩
  · next f k hp =>
    cases hs
    exact h.act hD hp

end

end Discipline

end LockProg
