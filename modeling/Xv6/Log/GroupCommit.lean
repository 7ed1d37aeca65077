import Xv6.Log.Commit
import Xv6.Lib.Machine
import Xv6.Lib.Tally

/-!
# Group commit

Any number of threads run `begin_op; log_write*; end_op`.  Each `log.lock` critical section is one
step, the unlocked checks at the head of `log_write` are one step, and the disk writes of `commit`
are separate steps.  Sleeping threads are woken by `wakeup(&log)`, or at any time by `kill`.

`used` and `group` are ghost fields: the blocks the current operation of a thread has logged, and
the blocks logged since `log.lh.n` was last cleared.
-/

namespace Xv6.Log

open Tally Function Option

inductive Pc where
  | idle
  /-- RUNNABLE in the loop of `begin_op`. -/
  | beginOp
  /-- SLEEPING on `&log` in `begin_op`. -/
  | sleeping
  | op
  /-- In `log_write` on block `b`, past its checks. -/
  | logWrite (b : ℕ)
  /-- In `end_op`, before its first critical section. -/
  | endOp
  /-- `commit()` has been called. -/
  | commit
  /-- In the loop of `write_log`. -/
  | writeLog (tail : ℕ)
  /-- In the loop of `install_trans`. -/
  | installTrans (tail : ℕ)
  /-- `log.lh.n` is cleared, the empty header not yet written. -/
  | erase
  | endCommit
  /-- `panic("too big a transaction")`. -/
  | tooBig
  /-- `panic("log_write outside of trans")`. -/
  | outsideTrans
  /-- `panic("log.committing")`. -/
  | logCommitting
  deriving DecidableEq

namespace Pc

/-- Between the increment of `log.outstanding` and its decrement. -/
def inOp : Pc → Bool
  | op | logWrite _ | endOp | tooBig | outsideTrans => true
  | _ => false

/-- Between setting `log.committing` and clearing it. -/
def inCommit : Pc → Bool
  | commit | writeLog _ | installTrans _ | erase | endCommit => true
  | _ => false

/-- In `commit`, past the clearing of `log.lh.n`. -/
def cleared : Pc → Bool
  | erase | endCommit => true
  | _ => false

end Pc

/-- `struct log`, the device below it and the threads. -/
structure Group (T : Type) where
  outstanding : ℤ
  committing : Bool
  /-- `log.lh.block[0..n)`. -/
  lh : List ℕ
  dev : Dev
  pc : T → Pc
  /-- Ghost: the blocks logged by the current operation of a thread. -/
  used : T → Finset ℕ
  /-- Ghost: the blocks logged since `log.lh.n` was last cleared. -/
  group : Finset ℕ

inductive Act where
  | beginOp
  /-- Set the contents of the locked buffer of block `b` to `v` and call `log_write` on it. -/
  | logWrite (b : ℕ) (v : Block)
  | endOp
  /-- Run to the end of the next critical section, disk write or check. -/
  | run
  /-- The thread is killed, which wakes it. -/
  | kill

variable {T : Type}

namespace Group

def wakeup (s : Group T) : Group T :=
  { s with pc := fun t => if s.pc t = .sleeping then .beginOp else s.pc t }

variable [DecidableEq T]

variable (s : Group T) (t : T)

def goto (p : Pc) : Group T := { s with pc := update s.pc t p }

def beginOp : Group T :=
  if s.committing then s.goto t .sleeping
  else if (s.lh.length : ℤ) + (s.outstanding + 1) * MAXOPBLOCKS > LOGSIZE then s.goto t .sleeping
  else { s with outstanding := s.outstanding + 1, used := update s.used t ∅ }.goto t .op

/-- The checks of `log_write`, made without the lock, after the caller has modified the buffer. -/
def logWriteCheck (L : LogArea) (s : Group T) (t : T) (b : ℕ) (v : Block) : Group T :=
  let s := { s with dev := { s.dev with cache := update s.dev.cache b (some v) } }
  if s.lh.length ≥ LOGSIZE ∨ (s.lh.length : ℤ) ≥ L.size - 1 then s.goto t .tooBig
  else if s.outstanding < 1 then s.goto t .outsideTrans
  else s.goto t (.logWrite b)

/-- The critical section of `log_write`: record the block number, with absorption. -/
def logWrite (b : ℕ) : Group T :=
  { s with
    lh := if b ∈ s.lh then s.lh else s.lh ++ [b]
    used := update s.used t (insert b (s.used t))
    group := insert b s.group }.goto t .op

def endOp : Group T :=
  let s := { s with outstanding := s.outstanding - 1 }
  if s.committing then s.goto t .logCommitting
  else if s.outstanding = 0 then { s with committing := true }.goto t .commit
  else s.wakeup.goto t .idle

/-- One step of `write_log`, and of `write_head` after it. -/
def writeLog (L : LogArea) (s : Group T) (t : T) (tail : ℕ) : Group T :=
  match s.lh[tail]? with
  | some b =>
    { s with dev := s.dev.bwrite (L.start + tail + 1) (s.dev.bread b) }.goto t
      (.writeLog (tail + 1))
  | none => { s with dev := writeHead L s.lh s.dev }.goto t (.installTrans 0)

/-- One step of `install_trans`; after it `log.lh.n` is cleared. -/
def installTrans (L : LogArea) (s : Group T) (t : T) (tail : ℕ) : Group T :=
  match s.lh[tail]? with
  | some b =>
    { s with dev := s.dev.bwrite b (s.dev.bread (L.start + tail + 1)) }.goto t
      (.installTrans (tail + 1))
  | none => { s with lh := [], group := ∅ }.goto t .erase

def endCommit : Group T := { s with committing := false }.wakeup.goto t .idle

def next (L : LogArea) (s : Group T) (t : T) : Act → Option (Group T)
  | .beginOp => if s.pc t = .idle then some (s.goto t .beginOp) else none
  | .logWrite b v => if s.pc t = .op then some (s.logWriteCheck L t b v) else none
  | .endOp => if s.pc t = .op then some (s.goto t .endOp) else none
  | .kill => if s.pc t = .sleeping then some (s.goto t .beginOp) else none
  | .run =>
    match s.pc t with
    | .beginOp => some (s.beginOp t)
    | .logWrite b => some (s.logWrite t b)
    | .endOp => some (s.endOp t)
    | .commit => some (s.goto t (if 0 < s.lh.length then .writeLog 0 else .endCommit))
    | .writeLog tail => some (s.writeLog L t tail)
    | .installTrans tail => some (s.installTrans L t tail)
    | .erase => some ({ s with dev := writeHead L [] s.dev }.goto t .endCommit)
    | .endCommit => some (s.endCommit t)
    | _ => none

end Group

def Group.start (d : Dev) : Group T := ⟨0, false, [], d, fun _ => .idle, fun _ => ∅, ∅⟩

def groupSys (T : Type) [DecidableEq T] (L : LogArea) : Machine.Sys (Group T) (T × Act) where
  init s := s.outstanding = 0 ∧ s.committing = false ∧ s.lh = [] ∧ (∀ t, s.pc t = .idle) ∧
    s.group = ∅
  next s i := s.next L i.1 i.2

/-! ## The invariant -/

variable [Fintype T]

structure GroupInv (s : Group T) : Prop where
  outstanding : s.outstanding = tally Pc.inOp s.pc
  committing : tally Pc.inCommit s.pc = s.committing.toNat
  exclusive : s.committing → s.outstanding = 0
  nodup : s.lh.Nodup
  /-- Once a commit is over and until the next operation, the log is empty. -/
  quiet : s.committing = false → s.outstanding = 0 → s.lh = []
  cleared : ∀ t, (s.pc t).cleared → s.lh = []
  sleeping : ∀ t, s.pc t = .sleeping → s.committing ∨ 0 < s.outstanding
  calm : ∀ t, s.pc t ≠ .outsideTrans ∧ s.pc t ≠ .logCommitting
  group : s.group = s.lh.toFinset

namespace GroupInv

section

variable {s : Group T} (h : GroupInv s)

include h

theorem setDev (d : Dev) : GroupInv { s with dev := d } :=
  ⟨h.outstanding, h.committing, h.exclusive, h.nodup, h.quiet, h.cleared, h.sleeping, h.calm,
    h.group⟩

theorem inCommit_false (hc : s.committing = false) (t : T) : (s.pc t).inCommit = false := by
  refine eq_of_tally_eq_zero ?_ t
  rw [h.committing, hc]
  rfl

theorem committing_of_inCommit {t : T} (ht : (s.pc t).inCommit) : s.committing := by
  by_contra hc
  have := h.inCommit_false (by simpa using hc) t
  rw [ht] at this
  cases this

theorem pos_of_inOp {t : T} (ht : (s.pc t).inOp) : 0 < s.outstanding := by
  have := tally_pos ht
  rw [h.outstanding]
  omega

theorem committing_of_inOp {t : T} (ht : (s.pc t).inOp) : s.committing = false := by
  by_contra hc
  have := h.exclusive (by simpa using hc)
  have := h.pos_of_inOp ht
  omega

end

attribute [local simp] Pc.cleared Pc.inCommit

theorem not_cleared_of_inOp {s : Group T} (h : GroupInv s) {t : T} (ht : (s.pc t).inOp)
    (u : T) : (s.pc u).cleared = false := by
  have := h.inCommit_false (h.committing_of_inOp ht) u
  revert this
  cases s.pc u <;> simp

theorem wakeup {s : Group T} (h : GroupInv s) : GroupInv s.wakeup := by
  have hpc : ∀ t p, s.wakeup.pc t = p → p ≠ .beginOp → s.pc t = p ∧ p ≠ .sleeping := by
    intro t p hp hne
    simp only [Group.wakeup] at hp
    split_ifs at hp with hs
    · exact absurd hp.symm hne
    · exact ⟨hp, hp ▸ hs⟩
  have htally : ∀ p : Pc → Bool, p .sleeping = p .beginOp → tally p s.wakeup.pc = tally p s.pc := by
    refine fun p hp => tally_congr fun t => ?_
    simp only [Group.wakeup]
    split_ifs with ht
    · rw [ht, hp]
    · rfl
  refine ⟨?_, ?_, h.exclusive, h.nodup, h.quiet, fun t ht => ?_, fun t ht => ?_,
    fun t => ⟨fun ht => ?_, fun ht => ?_⟩, h.group⟩
  · rw [htally _ rfl]; exact h.outstanding
  · rw [htally _ rfl]; exact h.committing
  · have hp := hpc t _ rfl (by rintro he; rw [he] at ht; cases ht)
    exact h.cleared t (by rw [hp.1]; exact ht)
  · exact absurd rfl (hpc t _ ht (by simp)).2
  · exact (h.calm t).1 (hpc t _ ht (by simp)).1
  · exact (h.calm t).2 (hpc t _ ht (by simp)).1

variable [DecidableEq T]

section

variable {s : Group T} (h : GroupInv s) {t : T}

include h

/-- A move of thread `t` to `q` that changes the two counters as the move requires. -/
theorem move {q : Pc} {o : ℤ} {c : Bool}
    (ho : o + (s.pc t).inOp.toNat = s.outstanding + q.inOp.toNat)
    (hc : c.toNat + (s.pc t).inCommit.toNat = s.committing.toNat + q.inCommit.toNat)
    (hex : c → o = 0) (hqt : c = false → o = 0 → s.lh = []) (hcl : q.cleared → s.lh = [])
    (hsl : q = .sleeping ∨ (∃ u, u ≠ t ∧ s.pc u = .sleeping) → c ∨ 0 < o)
    (hq : q ≠ .outsideTrans ∧ q ≠ .logCommitting) :
    GroupInv ({ s with outstanding := o, committing := c }.goto t q) where
  outstanding := by
    have := tally_update Pc.inOp s.pc t q
    have := h.outstanding
    simp only [Group.goto]
    omega
  committing := by
    have := tally_update Pc.inCommit s.pc t q
    have := h.committing
    simp only [Group.goto]
    omega
  exclusive := hex
  nodup := h.nodup
  quiet := hqt
  cleared := (forall_update_iff s.pc fun _ p => p.cleared → s.lh = []).2
    ⟨hcl, fun u _ => h.cleared u⟩
  sleeping := (forall_update_iff s.pc fun _ p => p = .sleeping → c ∨ 0 < o).2
    ⟨fun hs => hsl (.inl hs), fun u hu hs => hsl (.inr ⟨u, hu, hs⟩)⟩
  calm := (forall_update_iff s.pc fun _ p => p ≠ .outsideTrans ∧ p ≠ .logCommitting).2
    ⟨hq, fun u _ => h.calm u⟩
  group := h.group

theorem goto {q : Pc} (hop : q.inOp = (s.pc t).inOp)
    (hcm : q.inCommit = (s.pc t).inCommit) (hcl : q.cleared → s.lh = [])
    (hsl : q = .sleeping → s.committing ∨ 0 < s.outstanding)
    (hq : q ≠ .outsideTrans ∧ q ≠ .logCommitting) : GroupInv (s.goto t q) := by
  refine h.move (o := s.outstanding) (c := s.committing) (by rw [hop]) (by rw [hcm]) h.exclusive
    h.quiet hcl ?_ hq
  rintro (hs | ⟨u, -, hu⟩)
  · exact hsl hs
  · exact h.sleeping u hu

theorem beginOp (ht : s.pc t = .beginOp) : GroupInv (s.beginOp t) := by
  have h0 : 0 ≤ s.outstanding := by rw [h.outstanding]; omega
  unfold Group.beginOp
  split_ifs with hc hl
  · exact h.goto (by rw [ht]; rfl) (by rw [ht]; rfl) (by simp) (fun _ => .inl hc) (by simp)
  · refine h.goto (by rw [ht]; rfl) (by rw [ht]; rfl) (by simp) (fun _ => .inr ?_) (by simp)
    -- with no operation outstanding the log would be empty and the reservation would fit
    by_contra hpos
    have hz : s.outstanding = 0 := by omega
    rw [h.quiet (by simpa using hc) hz, hz] at hl
    simp [MAXOPBLOCKS, LOGSIZE] at hl
  · have := h.move (t := t) (q := .op) (o := s.outstanding + 1) (c := s.committing)
      (by rw [ht]; simp [Pc.inOp]) (by rw [ht]; simp) (fun hcm => absurd hcm hc)
      (fun _ hz => by omega) (by simp) (fun _ => .inr (by omega)) (by simp)
    exact ⟨this.outstanding, this.committing, this.exclusive, this.nodup, this.quiet, this.cleared,
      this.sleeping, this.calm, this.group⟩

theorem logWriteCheck (ht : s.pc t = .op) (L : LogArea)
    (b : ℕ) (v : Block) : GroupInv (s.logWriteCheck L t b v) := by
  have h' := h.setDev { s.dev with cache := update s.dev.cache b (some v) }
  have hpos : 0 < s.outstanding := h.pos_of_inOp (t := t) (by rw [ht]; rfl)
  unfold Group.logWriteCheck
  simp only
  split_ifs with hbig hout
  · exact h'.goto (by simp only [ht]; rfl) (by simp only [ht]; rfl) (by simp) (by simp)
      (by simp)
  · omega
  · exact h'.goto (by simp only [ht]; rfl) (by simp only [ht]; rfl) (by simp) (by simp)
      (by simp)

theorem logWrite {b : ℕ} (ht : s.pc t = .logWrite b) : GroupInv (s.logWrite t b) := by
  have hin : (s.pc t).inOp := by rw [ht]; rfl
  have hpos := h.pos_of_inOp hin
  have hg := h.goto (t := t) (q := .op) (by rw [ht]; rfl) (by rw [ht]; rfl) (by simp)
    (by simp) (by simp)
  refine ⟨hg.outstanding, hg.committing, hg.exclusive, ?_, ?_, ?_, hg.sleeping, hg.calm, ?_⟩
  · simp only [Group.logWrite, Group.goto]
    split_ifs with hb
    · exact h.nodup
    · exact List.nodup_append.2 ⟨h.nodup, List.nodup_singleton b, by
        rintro x hx y hy rfl
        exact hb (List.mem_singleton.1 hy ▸ hx)⟩
  · intro _ hz
    exact absurd hz (by simp only [Group.logWrite, Group.goto]; omega)
  · refine (forall_update_iff s.pc fun _ p => p.cleared → _).2
      ⟨by simp, fun u _ hu => ?_⟩
    rw [h.not_cleared_of_inOp hin u] at hu
    cases hu
  · simp only [Group.logWrite, Group.goto, h.group]
    split_ifs with hb
    · simpa using hb
    · ext x
      simp

end

attribute [local simp] Group.wakeup

section

variable {s : Group T} (h : GroupInv s) {t : T}

include h

theorem endOp (ht : s.pc t = .endOp) : GroupInv (s.endOp t) := by
  have hin : (s.pc t).inOp := by rw [ht]; rfl
  have hpos := h.pos_of_inOp hin
  have hc := h.committing_of_inOp hin
  unfold Group.endOp
  simp only [hc, Bool.false_eq_true, if_false]
  split_ifs with hz
  · exact h.move (c := true) (by rw [ht]; simp [Pc.inOp]) (by rw [ht, hc]; simp)
      (fun _ => hz) (by simp) (by simp) (fun _ => .inl rfl) (by simp)
  · have hwt : s.wakeup.pc t = .endOp := by simp [ht]
    exact h.wakeup.move (q := .idle) (o := s.outstanding - 1) (c := false)
      (by rw [hwt]; simp [Pc.inOp])
      (by rw [hwt]; simp [hc]) (by simp) (fun _ he => absurd he hz) (by simp)
      (fun _ => .inr (by omega)) (by simp)

theorem writeLog {tail : ℕ} (ht : s.pc t = .writeLog tail)
    (L : LogArea) : GroupInv (s.writeLog L t tail) := by
  unfold Group.writeLog
  split
  all_goals
    exact (h.setDev _).goto (by simp only [ht]; rfl) (by simp only [ht]; rfl) (by simp)
      (by simp) (by simp)

theorem installTrans {tail : ℕ}
    (ht : s.pc t = .installTrans tail) (L : LogArea) : GroupInv (s.installTrans L t tail) := by
  unfold Group.installTrans
  split
  · exact (h.setDev _).goto (by simp only [ht]; rfl) (by simp only [ht]; rfl)
      (by simp) (by simp) (by simp)
  · have hclr : GroupInv { s with lh := [], group := ∅ } :=
      ⟨h.outstanding, h.committing, h.exclusive, List.nodup_nil, fun _ _ => rfl, fun _ _ => rfl,
        h.sleeping, h.calm, rfl⟩
    exact hclr.goto (by simp only [ht]; rfl) (by simp only [ht]; rfl) (fun _ => rfl) (by simp)
      (by simp)

theorem endCommit (ht : s.pc t = .endCommit) : GroupInv (s.endCommit t) := by
  have hcm := h.committing_of_inCommit (t := t) (by rw [ht]; rfl)
  have hlh := h.cleared t (by rw [ht]; rfl)
  have hwt : s.wakeup.pc t = .endCommit := by simp [ht]
  refine h.wakeup.move (q := .idle) (o := s.outstanding) (c := false)
    (by rw [hwt]; simp [Pc.inOp]) (by rw [hwt]; simp [hcm])
    (by simp) (fun _ _ => hlh) (by simp) ?_ (by simp)
  rintro (hs | ⟨u, -, hu⟩)
  · cases hs
  · simp only [Group.wakeup] at hu
    split_ifs at hu with hs
    exact absurd hu hs

end

theorem next {s s' : Group T} (h : GroupInv s) {L : LogArea} {t : T} {a : Act}
    (hs : s.next L t a = some s') : GroupInv s' := by
  cases a with
  | logWrite b v =>
    simp only [Group.next, ite_none_right_eq_some, some.injEq] at hs
    obtain ⟨ht, rfl⟩ := hs
    exact h.logWriteCheck ht L b v
  | beginOp | endOp | kill =>
    simp only [Group.next, ite_none_right_eq_some, some.injEq] at hs
    obtain ⟨ht, rfl⟩ := hs
    exact h.goto (by rw [ht]; rfl) (by rw [ht]; rfl) (by simp) (by simp) (by simp)
  | run =>
    simp only [Group.next] at hs
    split at hs <;> simp only [some.injEq, reduceCtorEq] at hs <;> subst hs
    case _ ht => exact h.beginOp ht
    case _ b ht => exact h.logWrite ht
    case _ ht => exact h.endOp ht
    case _ ht =>
      split_ifs with hn
      · exact h.goto (by rw [ht]; rfl) (by rw [ht]; rfl) (by simp) (by simp) (by simp)
      · refine h.goto (by rw [ht]; rfl) (by rw [ht]; rfl) (fun _ => ?_) (by simp) (by simp)
        exact List.length_eq_zero_iff.1 (by omega)
    case _ tail ht => exact h.writeLog ht L
    case _ tail ht => exact h.installTrans ht L
    case _ ht =>
      have hlh := h.cleared t (by rw [ht]; rfl)
      exact (h.setDev _).goto (by simp only [ht]; rfl) (by simp only [ht]; rfl) (fun _ => hlh)
        (by simp) (by simp)
    case _ ht => exact h.endCommit ht

end GroupInv

variable [DecidableEq T] {L : LogArea}

theorem groupInv_of_reachable {s : Group T} (h : (groupSys T L).Reachable s) : GroupInv s := by
  refine h.invariant ?_ fun _ _ _ hs => hs.next
  rintro s ⟨ho, hc, hl, hpc, hg⟩
  have hzero : ∀ p : Pc → Bool, p .idle = false → tally p s.pc = 0 := by
    intro p hp
    rw [tally_eq_sum]
    exact Finset.sum_eq_zero fun t _ => by rw [hpc t, hp]; rfl
  refine ⟨?_, ?_, by simp [hc], by simp [hl], fun _ _ => hl, fun _ _ => hl, ?_,
    ?_, by simp [hg, hl]⟩
  · rw [ho, hzero _ rfl]; rfl
  · rw [hc, hzero _ rfl]; rfl
  · intro t ht
    rw [hpc t] at ht
    cases ht
  · intro t
    simp [hpc t]

/-- A group commit contains whole operations only: `log.outstanding` counts the threads inside an
operation, and during a commit there is none; the logged block numbers are distinct; and a thread
sleeps in `begin_op` only while a commit or an operation that will wake it is under way. -/
theorem groupCommit_invariant {s : Group T} (h : (groupSys T L).Reachable s) :
    s.outstanding = (Finset.univ.filter fun t => (s.pc t).inOp).card ∧
    (s.committing → s.outstanding = 0 ∧
      ∀ t, s.pc t ≠ .op ∧ (∀ b, s.pc t ≠ .logWrite b) ∧ s.pc t ≠ .endOp) ∧
    (∀ t, s.pc t ≠ .logCommitting) ∧ s.lh.Nodup ∧
    (∀ t, s.pc t = .sleeping → s.committing ∨ 0 < s.outstanding) := by
  have hi := groupInv_of_reachable h
  refine ⟨hi.outstanding, fun hc => ⟨hi.exclusive hc, fun t => ?_⟩, fun t => (hi.calm t).2,
    hi.nodup, hi.sleeping⟩
  have hz : tally Pc.inOp s.pc = 0 := by
    have := hi.outstanding
    have := hi.exclusive hc
    omega
  have ht := eq_of_tally_eq_zero hz t
  refine ⟨?_, fun b => ?_, ?_⟩ <;> intro he <;> rw [he] at ht <;> cases ht

/-- Thread 0 logs two blocks and starts to commit, and thread 1 calls `begin_op` meanwhile. -/
def beginDuringCommit : List (Fin 2 × Act) :=
  [(0, .beginOp), (0, .run), (0, .logWrite 100 fun _ => 7), (0, .run),
    (0, .logWrite 101 fun _ => 8), (0, .run),
    (0, .endOp), (0, .run), (1, .beginOp), (1, .run)]

theorem groupCommit_beginDuringCommit :
    ∃ s, (groupSys (Fin 2) mkfsLog).Reachable s ∧ s.lh = [100, 101] ∧ s.pc 1 = .sleeping ∧
      (s.committing ∨ 0 < s.outstanding) := by
  obtain ⟨s, hr, hl, hp⟩ : ∃ s, (groupSys (Fin 2) mkfsLog).Reachable s ∧ s.lh = [100, 101] ∧
    s.pc 1 = .sleeping :=
    Machine.Sys.exists_reachable beginDuringCommit
      (show (groupSys (Fin 2) mkfsLog).init (Group.start (.boot fun _ _ => 0))
        from ⟨rfl, rfl, rfl, fun _ => rfl, rfl⟩) (by decide +kernel)
  exact ⟨s, hr, hl, hp, (groupCommit_invariant hr).2.2.2.2 1 hp⟩

end Xv6.Log
