import Xv6.Lib.LockProg
import Xv6.Lib.Machine

/-!
# Processors that run code with spin locks

`Code` is what a function does with locks: the order of its lock operations, with a choice wherever
the branch taken depends on data, and with the points where a thread leaves its processor.  Locks
come in kinds; the lock of a kind that an operation is about is chosen when the operation runs.

`Cpus` are processors that share the locks.  A processor with no lock may be interrupted; a thread
that holds the lock of the dispatcher alone may leave its processor to the dispatcher, and be
resumed on another one.  `Nested` is the relation "a lock of the second kind is asked for while one
of the first kind is held".
-/

namespace LockCode

open Function List

variable {C L K E : Type}

/-- What code does with locks of kinds `K`; `E` are the events that it notes. -/
inductive Code (K E : Type) where
  | skip
  /-- The processor never goes on. -/
  | stop
  | acquire (k : K)
  | release (k : K)
  /-- Set a lock up as a free one, whoever holds it. -/
  | reset (k : K)
  /-- Leave the processor to the dispatcher, until another dispatcher resumes the thread. -/
  | suspend
  /-- Leave the processor for good. -/
  | retire
  /-- The dispatcher runs a thread. -/
  | resume
  /-- Make a new thread ready. -/
  | spawn
  | mark (e : E)
  | seq (a b : Code K E)
  | either (a b : Code K E)
  /-- Any number of rounds. -/
  | loop (a : Code K E)

namespace Code

def block : List (Code K E) → Code K E
  | [] => skip
  | a :: l => seq a (block l)

def oneOf : List (Code K E) → Code K E
  | [] => stop
  | [a] => a
  | a :: l => either a (oneOf l)

/-- Put code in front of what remains to be run. -/
def push : Code K E → List (Code K E) → List (Code K E)
  | seq a b, r => push a (push b r)
  | skip, r => r
  | a, r => a :: r

end Code

open Code

/-- What all processors share: the locks, and the code that runs at no function's own request. -/
structure Kernel (L K E : Type) where
  kind : L → K
  dispatch : L
  /-- What a new thread runs when the dispatcher first resumes it. -/
  entry : Code K E
  /-- What an interrupted processor runs. -/
  handler : Code K E
  /-- What a processor runs after an exception in its own code. -/
  fault : Code K E
  /-- What `acquire` runs on a lock that the processor holds already. -/
  again : Code K E

/-- Processors, their locks, and the threads that none of them runs. -/
structure Cpus (C L K E : Type) where
  owner : L → Option C
  /-- The lock that the processor spins for. -/
  want : C → Option L
  /-- How many locks the processor has asked for and not released. -/
  depth : C → Nat
  code : C → List (Code K E)
  /-- Where the dispatcher goes on when the thread leaves the processor. -/
  saved : C → List (Code K E)
  pool : List (List (Code K E))

/-- The steps.  The lock or thread that a step is about, and the branch taken, are free. -/
inductive Act (C L : Type) where
  | run (c : C) (b : Bool)
  /-- A lock operation, for `acquire` the call. -/
  | lock (c : C) (l : L)
  /-- The spinning processor gets its lock. -/
  | take (c : C)
  | resume (c : C) (n : Nat)
  | interrupt (c : C)
  | fault (c : C)
  /-- The processor stops, as it may anywhere. -/
  | halt (c : C)

namespace Cpus

variable [DecidableEq C]

def goto (s : Cpus C L K E) (c : C) (r : List (Code K E)) : Cpus C L K E :=
  { s with code := update s.code c r }

def stopped (s : Cpus C L K E) (c : C) : Bool :=
  match s.code c with
  | .stop :: _ => true
  | _ => false

variable [DecidableEq L]

/-- The thread leaves the processor, which it may only with the lock of the dispatcher and no
other. -/
def leave (κ : Kernel L K E) (s : Cpus C L K E) (c : C) (pool : List (List (Code K E))) :
    Cpus C L K E :=
  if s.owner κ.dispatch = some c ∧ s.depth c = 1 then { s.goto c (s.saved c) with pool := pool }
  else s.goto c [.stop]

def run (κ : Kernel L K E) (s : Cpus C L K E) (c : C) (b : Bool) : Option (Cpus C L K E) :=
  match s.code c with
  | .skip :: r | .mark _ :: r => some (s.goto c r)
  | .seq a a' :: r => some (s.goto c (push a (push a' r)))
  | .either a a' :: r => some (s.goto c (push (if b then a else a') r))
  | .loop a :: r => some (s.goto c (if b then push a (.loop a :: r) else r))
  | .suspend :: r => some (s.leave κ c (s.pool ++ [r]))
  | .retire :: _ => some (s.leave κ c s.pool)
  | .spawn :: r => some { s.goto c r with pool := s.pool ++ [push κ.entry []] }
  | _ => none

variable [DecidableEq K]

/-- The next operation, on a lock.  A processor that asks for a lock it holds, or releases one it
does not hold, gets no further. -/
def lock (κ : Kernel L K E) (s : Cpus C L K E) (c : C) (l : L) : Option (Cpus C L K E) :=
  match s.code c with
  | .acquire k :: _ =>
    if κ.kind l = k then
      if s.owner l = some c then
        some { s.goto c (push κ.again [.stop]) with depth := update s.depth c (s.depth c + 1) }
      else
        some { s with want := update s.want c (some l),
                      depth := update s.depth c (s.depth c + 1) }
    else none
  | .release k :: r =>
    if κ.kind l = k then
      if s.owner l = some c then
        some { s.goto c r with owner := update s.owner l none,
                               depth := update s.depth c (s.depth c - 1) }
      else some (s.goto c [.stop])
    else none
  | .reset k :: r =>
    if κ.kind l = k then some { s.goto c r with owner := update s.owner l none } else none
  | _ => none

/-- A spinning processor finds the lock free. -/
def take (s : Cpus C L K E) (c : C) : Option (Cpus C L K E) :=
  match s.want c, s.code c with
  | some l, .acquire _ :: r =>
    if s.owner l = none then
      some { s.goto c r with owner := update s.owner l (some c),
                             want := update s.want c none }
    else none
  | _, _ => none

/-- The dispatcher runs the `n`-th thread. -/
def resume (s : Cpus C L K E) (c : C) (n : Nat) : Option (Cpus C L K E) :=
  match s.code c, s.pool[n]? with
  | .resume :: r, some t =>
    some { s.goto c t with saved := update s.saved c r, pool := s.pool.eraseIdx n }
  | _, _ => none

/-- One step.  A spinning processor does nothing else, and interrupts are off while a lock is
held. -/
def next (κ : Kernel L K E) (s : Cpus C L K E) : Act C L → Option (Cpus C L K E)
  | .take c => s.take c
  | .run c b => if s.want c = none then s.run κ c b else none
  | .lock c l => if s.want c = none then s.lock κ c l else none
  | .resume c n => if s.want c = none then s.resume c n else none
  | .interrupt c =>
    if s.want c = none ∧ s.depth c = 0 ∧ s.stopped c = false then
      some (s.goto c (push κ.handler (s.code c)))
    else none
  | .fault c =>
    if s.want c = none ∧ s.stopped c = false then some (s.goto c (push κ.fault [.stop])) else none
  | .halt c => if s.want c = none then some (s.goto c [.stop]) else none

omit [DecidableEq C] [DecidableEq L] [DecidableEq K] in
def boot (start : C → Code K E) : Cpus C L K E where
  owner _ := none
  want _ := none
  depth _ := 0
  code c := push (start c) []
  saved _ := []
  pool := []

end Cpus

def Spins (s : Cpus C L K E) (c d : C) : Prop := ∃ l, s.want c = some l ∧ s.owner l = some d

/-- Processors that spin in a circle. -/
def Deadlock (s : Cpus C L K E) : Prop := ∃ c, Relation.TransGen (Spins s) c c

section

variable [DecidableEq C] [DecidableEq L] [DecidableEq K]

def sys (κ : Kernel L K E) (start : C → Code K E) : Machine.Sys (Cpus C L K E) (Act C L) where
  init s := s = Cpus.boot start
  next s a := s.next κ a

/-- A lock of kind `k'` is asked for while one of kind `k` is held, in some state that is reached by
steps that meet the condition. -/
def Nested (κ : Kernel L K E) (start : C → Code K E) (ok : Cpus C L K E → Act C L → Prop)
    (k k' : K) : Prop :=
  ∃ s, (sys κ start).ReachableVia ok s ∧
    ∃ c l l', s.owner l = some c ∧ s.want c = some l' ∧ κ.kind l = k ∧ κ.kind l' = k'

end

/-! ## Checking code -/

/-- The order in which locks are to be taken, the kind of the dispatcher's lock, and the events that
do not happen. -/
structure Order (K E : Type) where
  rank : K → Nat
  dispatch : K
  never : E → Bool

/-- What code does to the list of the kinds held. -/
inductive Outcome (K : Type) where
  /-- It may ask for a lock against the order. -/
  | bad
  /-- It does not return. -/
  | ends
  | back (H : List K)
  deriving DecidableEq

namespace Outcome

def bind (o : Outcome K) (f : List K → Outcome K) : Outcome K :=
  match o with
  | bad => bad
  | ends => ends
  | back H => f H

-- by `(rfl)`, not `rfl`: as a definitional step of `simp`, the kernel would run the code to check it
@[simp] theorem bind_back (H : List K) (f : List K → Outcome K) : (back H).bind f = f H := (rfl)

@[simp] theorem bind_ends (f : List K → Outcome K) : (ends : Outcome K).bind f = ends := (rfl)

variable [DecidableEq K]

/-- Either of two: they have to agree on the locks held. -/
def join : Outcome K → Outcome K → Outcome K
  | bad, _ | _, bad => bad
  | ends, o | o, ends => o
  | back H, back H' => if H = H' then back H else bad

@[simp] theorem join_back (H : List K) : (back H).join (back H) = back H := by simp [join]

@[simp] theorem ends_join (o : Outcome K) : ends.join o = o := by cases o <;> rfl

@[simp] theorem join_ends (o : Outcome K) : o.join ends = o := by cases o <;> rfl

end Outcome

variable [DecidableEq K] (o : Order K E)

namespace Code

/-- Run the code on the list of the kinds held. -/
def check : Code K E → List K → Outcome K
  | skip, H | spawn, H | reset _, H => .back H
  | stop, _ | retire, _ => .ends
  | acquire k, H => if ∀ h ∈ H, o.rank h < o.rank k then .back (k :: H) else .bad
  -- without the lock, the processor gets no further
  | release k, H => if k ∈ H then .back (H.erase k) else .ends
  | suspend, H => if H = [o.dispatch] then .back H else .ends
  | resume, H => if H = [o.dispatch] then .back H else .bad
  | mark e, H => if o.never e then .ends else .back H
  | seq a b, H => (a.check H).bind b.check
  | either a b, H => (a.check H).join (b.check H)
  | loop a, H => (a.check H).join (.back H)

section

variable (a b : Code K E) (l : List (Code K E)) (H : List K) (k : K)

@[simp] theorem check_skip : (skip : Code K E).check o H = .back H := (rfl)

@[simp] theorem check_spawn : (spawn : Code K E).check o H = .back H := (rfl)

@[simp] theorem check_reset : (reset k : Code K E).check o H = .back H := (rfl)

@[simp] theorem check_stop : (stop : Code K E).check o H = .ends := (rfl)

@[simp] theorem check_retire : (retire : Code K E).check o H = .ends := (rfl)

@[simp] theorem check_acquire : (acquire k : Code K E).check o H =
    if ∀ h ∈ H, o.rank h < o.rank k then .back (k :: H) else .bad := (rfl)

@[simp] theorem check_release : (release k : Code K E).check o H =
    if k ∈ H then .back (H.erase k) else .ends := (rfl)

@[simp] theorem check_suspend : (suspend : Code K E).check o H =
    if H = [o.dispatch] then .back H else .ends := (rfl)

@[simp] theorem check_resume : (resume : Code K E).check o H =
    if H = [o.dispatch] then .back H else .bad := (rfl)

@[simp] theorem check_mark (e : E) : (mark e : Code K E).check o H =
    if o.never e then .ends else .back H := (rfl)

@[simp] theorem check_seq : (seq a b).check o H = (a.check o H).bind (b.check o) := (rfl)

@[simp] theorem check_either : (either a b).check o H = (a.check o H).join (b.check o H) := (rfl)

@[simp] theorem check_loop : (loop a).check o H = (a.check o H).join (.back H) := (rfl)

@[simp] theorem check_block_nil : (block [] : Code K E).check o H = .back H := (rfl)

@[simp] theorem check_block_cons :
    (block (a :: l)).check o H = (a.check o H).bind ((block l).check o) := (rfl)

theorem check_acquire_release {k : K} {H : List K} (h : ∀ j ∈ H, o.rank j < o.rank k) :
    (block [acquire k, release k] : Code K E).check o H = .back H := by
  rw [check_block_cons, check_acquire, if_pos h]
  simp

@[simp] theorem check_oneOf_singleton : (oneOf [a]).check o H = a.check o H := (rfl)

@[simp] theorem check_oneOf_cons :
    (oneOf (a :: b :: l)).check o H = (a.check o H).join ((oneOf (b :: l)).check o H) := (rfl)

end

-- the lemmas above run code step by step; unfolding would run all of it at once
attribute [irreducible] check

end Code

/-- What remains to be run keeps the order, from the kinds held. -/
def Fits : List (Code K E) → List K → Prop
  | [], _ => True
  | a :: r, H =>
    match a.check o H with
    | .bad => False
    | .ends => True
    | .back H' => Fits r H'

variable {o} {κ : Kernel L K E} {r : List (Code K E)} {a b : Code K E} {H : List K}

theorem Fits.of_back {H' : List K} (ha : a.check o H = .back H') (hr : Fits o r H') :
    Fits o (a :: r) H := by
  simpa only [Fits, ha] using hr

theorem Fits.single {H' : List K} (ha : a.check o H = .back H') : Fits o [a] H :=
  .of_back ha (by rw [Fits]; trivial)

theorem Fits.of_ends (ha : a.check o H = .ends) : Fits o (a :: r) H := by
  simp only [Fits, ha]

theorem fits_seq : Fits o (.seq a b :: r) H ↔ Fits o (a :: b :: r) H := by
  simp only [Fits, check_seq]
  cases a.check o H <;> simp [Outcome.bind]

theorem fits_push : Fits o (push a r) H ↔ Fits o (a :: r) H := by
  induction a generalizing r H with
  | seq a b iha ihb =>
    rw [push, iha, fits_seq]
    simp only [Fits]
    cases a.check o H <;> simp [ihb, Fits]
  | _ => simp [push, Fits]

theorem Fits.either (h : Fits o (.either a b :: r) H) : Fits o (a :: r) H ∧ Fits o (b :: r) H := by
  simp only [Fits, check_either] at h ⊢
  cases ha : a.check o H with
  | bad => simp [ha, Outcome.join] at h
  | ends => simpa [ha] using h
  | back H₁ =>
    cases hb : b.check o H with
    | bad => simp [ha, hb, Outcome.join] at h
    | ends => simpa [ha, hb] using h
    | back H₂ =>
      by_cases hH : H₁ = H₂
      · subst hH
        simpa [ha, hb] using h
      · simp [ha, hb, Outcome.join, hH] at h

theorem Fits.loop (h : Fits o (.loop a :: r) H) : Fits o r H ∧ Fits o (a :: .loop a :: r) H := by
  have hr := h
  simp only [Fits, check_loop] at h ⊢
  cases ha : a.check o H with
  | bad => simp [ha, Outcome.join] at h
  | ends => simpa [ha] using h
  | back H' =>
    by_cases hH : H' = H
    · subst hH
      simpa [ha] using h
    · simp [ha, Outcome.join, hH] at h

theorem Fits.acquire {k : K} (h : Fits o (.acquire k :: r) H) :
    (∀ h ∈ H, o.rank h < o.rank k) ∧ Fits o r (k :: H) := by
  simp only [Fits, check_acquire] at h
  split_ifs at h with hlt
  · exact ⟨hlt, h⟩
  · exact h.elim

theorem Fits.release {k : K} (h : Fits o (.release k :: r) H) (hk : k ∈ H) :
    Fits o r (H.erase k) := by
  simpa [Fits, hk] using h

theorem rank_lt_of_transGen {α : Type} {f : α → Nat} {R : α → α → Prop}
    (hR : ∀ a b, R a b → f a < f b) {a b : α} (h : Relation.TransGen R a b) : f a < f b := by
  induction h with
  | single h => exact hR _ _ h
  | tail _ h ih => exact ih.trans (hR _ _ h)

/-! ## Processors whose code passes the check -/

/-- The code that runs at no function's own request passes the check. -/
structure Kernel.Checked (κ : Kernel L K E) (o : Order K E) : Prop where
  dispatch : κ.kind κ.dispatch = o.dispatch
  entry : Fits o [κ.entry] [o.dispatch]
  handler : κ.handler.check o [] = .back []
  fault : Fits o [κ.fault] []

/-- The list `H` of kinds is what processor `c` may hold, and its code fits to it. -/
structure Obeys (κ : Kernel L K E) (o : Order K E) (s : Cpus C L K E) (c : C) (H : List K) :
Prop where
  owns : ∀ l, s.owner l = some c → κ.kind l ∈ H
  single : ∀ l l', s.owner l = some c → s.owner l' = some c → κ.kind l = κ.kind l' → l = l'
  idle : s.want c = none → s.depth c = H.length
  spin : ∀ l, s.want c = some l → s.depth c = H.length + 1 ∧
    ∃ r, s.code c = .acquire (κ.kind l) :: r
  fits : Fits o (s.code c) H

/-- Every processor obeys the order, and so does every thread that waits to be resumed. -/
structure Sound (κ : Kernel L K E) (o : Order K E) (s : Cpus C L K E) : Prop where
  cpu : ∀ c, ∃ H, Obeys κ o s c H
  saved : ∀ c, Fits o (s.saved c) [o.dispatch]
  pool : ∀ t ∈ s.pool, Fits o t [o.dispatch]

/-- The step notes no event that is not to happen, and no processor with a lock faults. -/
def spares (o : Order K E) (s : Cpus C L K E) : Act C L → Bool
  | .run c _ =>
    match s.code c with
    | .mark e :: _ => !o.never e
    | _ => true
  | .fault c => s.depth c == 0
  | _ => true

section

variable {s s' : Cpus C L K E} {c d : C}

theorem Obeys.frame (h : Obeys κ o s d H) (howner : ∀ l, s'.owner l = some d → s.owner l = some d)
    (hwant : s'.want d = s.want d) (hdepth : s'.depth d = s.depth d)
    (hcode : s'.code d = s.code d) : Obeys κ o s' d H where
  owns l hl := h.owns l (howner l hl)
  single l l' hl hl' := h.single l l' (howner l hl) (howner l' hl')
  idle hw := hdepth.trans (h.idle (hwant.symm.trans hw))
  spin l hl := by
    rw [hdepth, hcode]
    exact h.spin l (hwant.symm.trans hl)
  fits := hcode ▸ h.fits

theorem Obeys.eq_dispatch (hκ : κ.Checked o) (h : Obeys κ o s c H) (hw : s.want c = none)
    (howner : s.owner κ.dispatch = some c) (hdepth : s.depth c = 1) : H = [o.dispatch] := by
  obtain ⟨k, rfl⟩ := length_eq_one_iff.1 ((h.idle hw).symm.trans hdepth)
  have hmem := h.owns _ howner
  rw [hκ.dispatch, mem_singleton] at hmem
  rw [hmem]

theorem Sound.rank_lt (h : Sound κ o s) {l l' : L} (hl : s.owner l = some c)
    (hw : s.want c = some l') : o.rank (κ.kind l) < o.rank (κ.kind l') := by
  obtain ⟨H, hH⟩ := h.cpu c
  obtain ⟨-, r, hcode⟩ := hH.spin l' hw
  exact (hcode ▸ hH.fits : Fits o (.acquire (κ.kind l') :: r) H).acquire.1 _ (hH.owns l hl)

theorem sound_boot {start : C → Code K E} (hstart : ∀ c, Fits o [start c] []) :
    Sound κ o (Cpus.boot start : Cpus C L K E) where
  cpu c := by
    refine ⟨[], ?_, ?_, fun _ => rfl, ?_, fits_push.2 (hstart c)⟩ <;> simp [Cpus.boot]
  saved c := trivial
  pool t ht := by simp [Cpus.boot] at ht

variable [DecidableEq C]

attribute [local simp] Cpus.goto

theorem Obeys.goto (h : Obeys κ o s c H) (hw : s.want c = none) (hr : Fits o r H) :
    Obeys κ o (s.goto c r) c H where
  owns := h.owns
  single := h.single
  idle := h.idle
  spin l hl := by
    rw [show (s.goto c r).want c = none from hw] at hl
    cases hl
  fits := by simpa using hr

theorem Sound.moves (h : Sound κ o s) (hc : ∃ H, Obeys κ o s' c H)
    (howner : ∀ d l, d ≠ c → s'.owner l = some d → s.owner l = some d)
    (hwant : ∀ d, d ≠ c → s'.want d = s.want d) (hdepth : ∀ d, d ≠ c → s'.depth d = s.depth d)
    (hcode : ∀ d, d ≠ c → s'.code d = s.code d) (hsaved : ∀ d, Fits o (s'.saved d) [o.dispatch])
    (hpool : ∀ t ∈ s'.pool, Fits o t [o.dispatch]) : Sound κ o s' where
  cpu d := by
    by_cases hd : d = c
    · exact hd ▸ hc
    · obtain ⟨H, hH⟩ := h.cpu d
      exact ⟨H, hH.frame (fun l => howner d l hd) (hwant d hd) (hdepth d hd) (hcode d hd)⟩
  saved := hsaved
  pool := hpool

theorem Sound.goto (h : Sound κ o s) (hw : s.want c = none)
    (hr : ∀ H, Obeys κ o s c H → Fits o r H) : Sound κ o (s.goto c r) := by
  obtain ⟨H, hH⟩ := h.cpu c
  refine h.moves ⟨H, hH.goto hw (hr H hH)⟩ (fun d l hd hl => hl) (fun d hd => rfl) (fun d hd => rfl)
    (fun d hd => ?_) h.saved h.pool
  simp [hd]

theorem Sound.leave (hκ : κ.Checked o) (h : Sound κ o s) (hw : s.want c = none)
    {pool : List (List (Code K E))}
    (hpool : ∀ t ∈ pool, t ∈ s.pool ∨ s.code c = .suspend :: t) : Sound κ o (s.leave κ c pool) := by
  unfold Cpus.leave
  split_ifs with hc
  · obtain ⟨H, hH⟩ := h.cpu c
    obtain rfl := hH.eq_dispatch hκ hw hc.1 hc.2
    refine h.moves ⟨_, (hH.goto hw (h.saved c)).frame (fun l hl => hl) rfl rfl rfl⟩
      (fun d l hd hl => hl) (fun d hd => rfl) (fun d hd => rfl) (fun d hd => ?_) h.saved fun t ht =>
      ?_
    · simp [hd]
    · rcases hpool t ht with ht | ht
      · exact h.pool t ht
      · simpa [ht, Fits] using hH.fits
  · exact h.goto hw fun H hH => by simp [Fits]

theorem Sound.call (h : Sound κ o s) {l : L} {r : List (Code K E)} (hw : s.want c = none)
    (hcode : s.code c = .acquire (κ.kind l) :: r) :
    Sound κ o { s with want := update s.want c (some l),
                       depth := update s.depth c (s.depth c + 1) } := by
  obtain ⟨H, hH⟩ := h.cpu c
  refine h.moves (c := c) ⟨H, hH.owns, hH.single, fun hn => ?_, fun l' hl' => ?_, hH.fits⟩
    (fun d l hd hl => hl) (fun d hd => ?_) (fun d hd => ?_) (fun d hd => rfl) h.saved h.pool
  · simp at hn
  · have hl : l = l' := by simpa using hl'
    subst hl
    exact ⟨by simp [hH.idle hw], r, hcode⟩
  · simp [hd]
  · simp [hd]

theorem Sound.resume (h : Sound κ o s) {n : Nat} (hw : s.want c = none)
    (hs : s.resume c n = some s') : Sound κ o s' := by
  unfold Cpus.resume at hs
  split at hs
  · next r t hcode hn =>
    cases hs
    obtain ⟨H, hH⟩ := h.cpu c
    have hfits := hH.fits
    simp only [hcode, Fits, check_resume] at hfits
    split_ifs at hfits with hdisp
    · subst hdisp
      have ht := h.pool t (mem_of_getElem? hn)
      refine h.moves ⟨_, (hH.goto hw ht).frame (fun l hl => hl) rfl rfl rfl⟩
        (fun d l hd hl => hl) (fun d hd => rfl) (fun d hd => rfl) (fun d hd => ?_) (fun d => ?_)
        fun t ht => h.pool t (mem_of_mem_eraseIdx ht)
      · simp [hd]
      · by_cases hd : d = c
        · subst hd
          simpa using hfits
        · simpa [hd] using h.saved d
    · exact hfits.elim
  · cases hs

theorem Sound.run (hκ : κ.Checked o) (h : Sound κ o s) {b : Bool} (hw : s.want c = none)
    (hok : spares (L := L) o s (.run c b)) (hs : s.run κ c b = some s') : Sound κ o s' := by
  unfold Cpus.run at hs
  split at hs <;> cases hs
  · next r hcode => exact h.goto hw fun H hH => by simpa [hcode, Fits] using hH.fits
  · next e r hcode =>
    refine h.goto hw fun H hH => ?_
    have hfits := hH.fits
    simp only [spares, hcode, Bool.not_eq_true'] at hok
    simpa [hcode, Fits, hok] using hfits
  · next a a' r hcode =>
    refine h.goto hw fun H hH => fits_push.2 ?_
    have hfits := hcode ▸ hH.fits
    rw [fits_seq] at hfits
    simp only [Fits] at hfits ⊢
    cases ha : a.check o H <;> simp only [ha] at hfits ⊢
    exact fits_push.2 hfits
  · next a a' r hcode =>
    refine h.goto hw fun H hH => fits_push.2 ?_
    have hfits := (hcode ▸ hH.fits : Fits o (.either a a' :: r) H).either
    cases b
    · exact hfits.2
    · exact hfits.1
  · next a r hcode =>
    refine h.goto hw fun H hH => ?_
    have hfits := (hcode ▸ hH.fits : Fits o (.loop a :: r) H).loop
    cases b
    · exact hfits.1
    · exact fits_push.2 hfits.2
  · next r hcode =>
    refine h.leave hκ hw fun t ht => ?_
    rcases mem_append.1 ht with ht | ht
    · exact Or.inl ht
    · exact Or.inr (by rw [hcode, mem_singleton.1 ht])
  · exact h.leave hκ hw fun t ht => Or.inl ht
  · next r hcode =>
    have hgoto := h.goto (r := r) hw fun H hH => by simpa [hcode, Fits] using hH.fits
    refine ⟨fun d => ?_, hgoto.saved, fun t ht => ?_⟩
    · obtain ⟨H, hH⟩ := hgoto.cpu d
      exact ⟨H, hH.frame (fun l hl => hl) rfl rfl rfl⟩
    · rcases mem_append.1 ht with ht | ht
      · exact h.pool t ht
      · rw [mem_singleton.1 ht]
        exact fits_push.2 hκ.entry

variable [DecidableEq L]

theorem Sound.release (h : Sound κ o s) {l : L} {r : List (Code K E)} (hw : s.want c = none)
    (hcode : s.code c = .release (κ.kind l) :: r) (hl : s.owner l = some c) :
    Sound κ o { s.goto c r with owner := update s.owner l none,
                                depth := update s.depth c (s.depth c - 1) } := by
  obtain ⟨H, hH⟩ := h.cpu c
  have hmem := hH.owns l hl
  have hother : ∀ l', (update s.owner l none) l' = some c → l' ≠ l ∧ s.owner l' = some c := by
    intro l' hl'
    by_cases hne : l' = l
    · simp [hne] at hl'
    · exact ⟨hne, by simpa [hne] using hl'⟩
  refine h.moves (c := c) ⟨H.erase (κ.kind l), fun l' hl' => ?_, fun l₁ l₂ h₁ h₂ => ?_, fun _ => ?_,
    fun l' hl' => ?_, ?_⟩ (fun d l' hd hl' => ?_) (fun d hd => rfl) (fun d hd => ?_) (fun d hd =>
    ?_) h.saved
    h.pool
  · -- no other lock of this kind is held
    obtain ⟨hne, hl'⟩ := hother l' hl'
    refine (mem_erase_of_ne fun hk => hne (hH.single l' l hl' hl hk)).2 (hH.owns l' hl')
  · exact hH.single l₁ l₂ (hother l₁ h₁).2 (hother l₂ h₂).2
  · simp [length_erase_of_mem hmem, hH.idle hw]
  · have : s.want c = some l' := hl'
    simp [hw] at this
  · have hfits := (hcode ▸ hH.fits : Fits o (.release (κ.kind l) :: r) H).release hmem
    simpa using hfits
  · by_cases hne : l' = l
    · simp [hne] at hl'
    · simpa [hne] using hl'
  · simp [hd]
  · simp [hd]

theorem Sound.reset (h : Sound κ o s) {l : L} {k : K} {r : List (Code K E)} (hw : s.want c = none)
    (hcode : s.code c = .reset k :: r) :
    Sound κ o { s.goto c r with owner := update s.owner l none } := by
  have hgoto := h.goto (r := r) hw fun H hH => by simpa [hcode, Fits] using hH.fits
  refine ⟨fun d => ?_, hgoto.saved, hgoto.pool⟩
  obtain ⟨H, hH⟩ := hgoto.cpu d
  refine ⟨H, hH.frame (fun l' hl' => ?_) rfl rfl rfl⟩
  by_cases hne : l' = l
  · simp [hne] at hl'
  · simpa [hne] using hl'

theorem Sound.lock (h : Sound κ o s) {l : L} (hw : s.want c = none) (hs : s.lock κ c l = some s') :
    Sound κ o s' := by
  unfold Cpus.lock at hs
  split at hs
  · next k r hcode =>
    split_ifs at hs with hk hown <;> cases hs
    · -- the kind of a lock that is held is not above itself
      obtain ⟨H, hH⟩ := h.cpu c
      have hlt := (hcode ▸ hH.fits : Fits o (.acquire k :: r) H).acquire.1 _ (hH.owns l hown)
      rw [hk] at hlt
      exact absurd hlt (lt_irrefl _)
    · exact h.call hw (hk ▸ hcode)
  · next k r hcode =>
    split_ifs at hs with hk hown <;> cases hs
    · exact h.release hw (hk ▸ hcode) hown
    · exact h.goto hw fun H hH => by simp [Fits]
  · next k r hcode =>
    split_ifs at hs with hk
    cases hs
    exact h.reset hw hcode
  · cases hs

theorem Sound.take (h : Sound κ o s) (hs : s.take c = some s') : Sound κ o s' := by
  unfold Cpus.take at hs
  split at hs
  · next l k r hw hcode =>
    split_ifs at hs with hfree
    cases hs
    obtain ⟨H, hH⟩ := h.cpu c
    obtain ⟨hdepth, r', hcode'⟩ := hH.spin l hw
    rw [hcode] at hcode'
    obtain ⟨rfl, rfl⟩ : k = κ.kind l ∧ r = r' := by simpa using hcode'
    obtain ⟨hlt, hfits⟩ := (hcode ▸ hH.fits : Fits o (.acquire (κ.kind l) :: r) H).acquire
    -- no lock of this kind was held before
    have hkind : ∀ l', s.owner l' = some c → κ.kind l' ≠ κ.kind l := fun l' hl' hk =>
      lt_irrefl _ (hk ▸ hlt _ (hH.owns l' hl'))
    have howner : ∀ l', (update s.owner l (some c)) l' = some c → l' = l ∨ s.owner l' = some c := by
      intro l' hl'
      by_cases hne : l' = l
      · exact Or.inl hne
      · exact Or.inr (by simpa [hne] using hl')
    refine h.moves (c := c) ⟨κ.kind l :: H, fun l' hl' => ?_, fun l₁ l₂ h₁ h₂ hk => ?_, fun _ => ?_,
      fun l' hl' => ?_, ?_⟩ (fun d l' hd hl' => ?_) (fun d hd => ?_) (fun d hd => rfl) (fun d hd =>
      ?_)
      h.saved h.pool
    · rcases howner l' hl' with rfl | hl'
      · exact mem_cons_self
      · exact mem_cons_of_mem _ (hH.owns l' hl')
    · rcases howner l₁ h₁ with e₁ | e₁ <;> rcases howner l₂ h₂ with e₂ | e₂
      · exact e₁.trans e₂.symm
      · exact absurd (e₁ ▸ hk.symm) (hkind l₂ e₂)
      · exact absurd (e₂ ▸ hk) (hkind l₁ e₁)
      · exact hH.single l₁ l₂ e₁ e₂ hk
    · exact hdepth
    · simp at hl'
    · simpa using hfits
    · by_cases hne : l' = l
      · simp [hne, Ne.symm hd] at hl'
      · simpa [hne] using hl'
    · simp [hd]
    · simp [hd]
  · cases hs

theorem Sound.next (hκ : κ.Checked o) (h : Sound κ o s) {i : Act C L} (hok : spares o s i)
    (hs : s.next κ i = some s') : Sound κ o s' := by
  cases i with
  | take c => exact h.take hs
  | run c b =>
    simp only [Cpus.next] at hs
    split_ifs at hs with hw
    exact h.run hκ hw hok hs
  | lock c l =>
    simp only [Cpus.next] at hs
    split_ifs at hs with hw
    exact h.lock hw hs
  | resume c n =>
    simp only [Cpus.next] at hs
    split_ifs at hs with hw
    exact h.resume hw hs
  | interrupt c =>
    simp only [Cpus.next] at hs
    split_ifs at hs with hc
    cases hs
    refine h.goto hc.1 fun H hH => fits_push.2 ?_
    obtain rfl : H = [] := length_eq_zero_iff.1 ((hH.idle hc.1).symm.trans hc.2.1)
    simpa [Fits, hκ.handler] using hH.fits
  | fault c =>
    simp only [Cpus.next] at hs
    split_ifs at hs with hc
    cases hs
    refine h.goto hc.1 fun H hH => fits_push.2 ?_
    have hdepth : s.depth c = 0 := by simpa [spares] using hok
    obtain rfl : H = [] := length_eq_zero_iff.1 ((hH.idle hc.1).symm.trans hdepth)
    have hfault := hκ.fault
    simp only [Fits] at hfault ⊢
    cases hf : κ.fault.check o [] <;> simp_all
  | halt c =>
    simp only [Cpus.next] at hs
    split_ifs at hs with hc
    cases hs
    exact h.goto hc fun H hH => by simp [Fits]

/-! ## Runs -/

variable {start : C → Code K E}

section

variable (hκ : κ.Checked o) (hstart : ∀ c, Fits o [start c] [])

include hκ hstart

theorem sound_of_reachable
    (h : (sys κ start).ReachableVia (fun s i => spares o s i) s) : Sound κ o s := by
  refine Machine.Sys.ReachableVia.invariant (I := Sound κ o) ?_ ?_ h
  · rintro s rfl
    exact sound_boot hstart
  · intro s s' i hI hok hs
    exact hI.next hκ hok hs

theorem rank_lt_of_nested {k k' : K}
    (h : Nested κ start (fun s i => spares o s i) k k') : o.rank k < o.rank k' := by
  obtain ⟨s, hs, c, l, l', hl, hw, rfl, rfl⟩ := h
  exact (sound_of_reachable hκ hstart hs).rank_lt hl hw

theorem not_transGen_nested (k : K) :
    ¬ Relation.TransGen (Nested κ start fun s i => spares o s i) k k := fun h =>
  lt_irrefl _ (rank_lt_of_transGen (f := o.rank) (fun _ _ => rank_lt_of_nested hκ hstart) h)

theorem not_deadlock
    (h : (sys κ start).ReachableVia (fun s i => spares o s i) s) : ¬ Deadlock s := by
  have hsound := sound_of_reachable hκ hstart h
  rintro ⟨c, hc⟩
  exact LockProg.not_cycle_of_order
    (fun l h => lt_irrefl _ (rank_lt_of_transGen (f := fun l => o.rank (κ.kind l)) (fun _ _ h => h)
      h))
    (fun c d l hw _ l' hl' => hsound.rank_lt hl' hw) c hc

end

end

end LockCode
