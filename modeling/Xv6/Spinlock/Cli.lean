import Xv6.Param
import Xv6.Lib.Machine
import Mathlib.Data.Int.Notation
import Mathlib.Logic.Function.Basic

/-!
# Interrupts

`pushcli` and `popcli` of `spinlock.c`, traps, `sched` and `scheduler`.  `ncli` and `intena` belong
to a CPU, but the threads that use them move between CPUs.  `pushcli` is one step: an interrupt that
comes before its `cli` returns with the flag as it was.  Locks and the states of threads are left
out: any thread that no CPU runs may be picked.  That a CPU with a spin lock is not interrupted is
what the models of `ptable.lock` and of the lock order assume.

Ghost fields of a context: `depth`, its calls of `pushcli` that are not yet undone, and `base`, the
interrupt flag before the first of them.  `forkret` begins with a `popcli` that undoes the `pushcli`
of `scheduler`, which goes on with the `intena` that threads have left: a new thread and a scheduler
that has switched have no `base`.
-/

namespace Xv6.Cli

open Function

variable {C T : Type}

inductive Panic where
  | mycpu
  /-- `popcli - interruptible` -/
  | interruptible
  | popcli
  /-- `sched locks` -/
  | locks

structure Cpu where
  /-- `FL_IF` in `%eflags` -/
  IF : Bool
  ncli : ℤ
  intena : Bool

/-- The kernel stack of a thread, or of the scheduler of a CPU. -/
structure Ctx (C : Type) where
  cpu : Option C
  depth : ℕ
  base : Option Bool
  /-- The flag in the trap frames. -/
  frames : List Bool
  /-- `intena` of a `sched` that has left the CPU -/
  intena : Option Bool

inductive Op where
  | pushcli
  | popcli
  /-- Through an interrupt gate, which clears the flag, or through the trap gate of system calls. -/
  | trap (gate : Bool)
  | iret
  | sti

def Op.run (p : Cpu) (k : Ctx C) : Op → Except Panic (Cpu × Ctx C)
  | .pushcli => .ok (⟨false, p.ncli + 1, if p.ncli = 0 then p.IF else p.intena⟩,
      { k with depth := k.depth + 1, base := if k.depth = 0 then some p.IF else k.base })
  | .popcli =>
    if p.IF then .error .interruptible
    else if p.ncli - 1 < 0 then .error .popcli
    else .ok (⟨p.ncli - 1 = 0 && p.intena, p.ncli - 1, p.intena⟩, { k with depth := k.depth - 1 })
  | .trap gate => .ok ({ p with IF := !gate && p.IF }, { k with frames := p.IF :: k.frames })
  | .iret => .ok ({ p with IF := k.frames.headD p.IF }, { k with frames := k.frames.tail })
  | .sti => .ok ({ p with IF := true }, k)

/-- Calls are matched, and a trap returns with none left. -/
def Op.Ok (p : Cpu) (k : Ctx C) : Op → Prop
  | .pushcli => True
  | .popcli => k.depth ≠ 0
  | .trap _ => p.IF
  | .iret | .sti => k.depth = 0

instance decidableOk (p : Cpu) (k : Ctx C) : ∀ o : Op, Decidable (o.Ok p k)
  | .pushcli => isTrue trivial
  | .popcli => inferInstanceAs (Decidable (_ ≠ _))
  | .trap _ | .iret | .sti => inferInstanceAs (Decidable (_ = _))

/-- The code after `swtch`.  Only `sched` restores `intena`: `scheduler` and `forkret` go on with
what is there. -/
def resume (c : C) (p : Cpu) (k : Ctx C) : Cpu × Ctx C :=
  match k.intena with
  | some i => ({ p with intena := i }, { k with intena := none, cpu := some c })
  | none => (p, { k with cpu := some c })

structure Runs (p : Cpu) (k : Ctx C) : Prop where
  ncli : p.ncli = k.depth
  off : k.depth ≠ 0 → p.IF = false ∧ ∀ b ∈ k.base, p.intena = b

/-- A context that no CPU runs: what it has saved is its own. -/
def Left (k : Ctx C) : Prop := k.depth = 1 ∧ ∀ b ∈ k.base, k.intena = some b

theorem Runs.run {p : Cpu} {k : Ctx C} (h : Runs p k) {o : Op} (ho : o.Ok p k) :
    ∃ x, o.run p k = .ok x ∧ Runs x.1 x.2 ∧ x.2.cpu = k.cpu ∧
      (o = .popcli → k.depth = 1 → ∀ b ∈ k.base, x.1.IF = b) := by
  obtain ⟨hncli, hoff⟩ := h
  cases o with
  | pushcli =>
    refine ⟨_, rfl, ⟨by simp [hncli], fun _ => ⟨rfl, ?_⟩⟩, rfl, nofun⟩
    by_cases hd : k.depth = 0
    · simp [hncli, hd]
    · simpa [hncli, hd] using (hoff hd).2
  | popcli =>
    have hd : k.depth ≠ 0 := ho
    obtain ⟨hIF, hbase⟩ := hoff hd
    have hpos : ¬ p.ncli - 1 < 0 := by omega
    refine ⟨_, by rw [Op.run, hIF, if_neg Bool.false_ne_true, if_neg hpos],
      ⟨?_, fun hd' => ⟨?_, hbase⟩⟩, rfl,
      fun _ h1 b hb => by simp [hncli, h1, hbase b hb]⟩
    · simp only; omega
    · have : p.ncli - 1 ≠ 0 := by simp only at hd'; omega
      simp [this]
  | trap gate =>
    -- Interrupts are on, so no `pushcli` is outstanding.
    exact ⟨_, rfl, ⟨hncli, fun hd => absurd ((hoff hd).1.symm.trans ho) (by decide)⟩, rfl, nofun⟩
  | iret | sti => exact ⟨_, rfl, ⟨hncli, fun hd => absurd ho hd⟩, rfl, nofun⟩

theorem Left.resume {c : C} {p : Cpu} {k : Ctx C} (h : Left k) (hncli : p.ncli = 1)
    (hIF : p.IF = false) : Runs (resume c p k).1 (resume c p k).2 ∧
    (resume c p k).2.cpu = some c := by
  unfold Cli.resume
  cases hi : k.intena with
  | some i =>
    exact ⟨⟨by simp [hncli, h.1],
      fun _ => ⟨hIF, fun b hb => Option.some.inj (hi.symm.trans (h.2 b hb))⟩⟩, rfl⟩
  | none =>
    exact ⟨⟨by simp [hncli, h.1], fun _ => ⟨hIF, fun b hb => by simpa [hi] using h.2 b hb⟩⟩, rfl⟩

structure State (C T : Type) where
  cpu : C → Cpu
  /-- Of the schedulers and of the threads. -/
  ctx : C ⊕ T → Ctx C

inductive Act (T : Type) where
  | op (o : Op)
  | sched
  | pick (t : T)

variable [DecidableEq C] [DecidableEq T] {s : State C T} {c : C} {i j : C ⊕ T} {x : Cpu × Ctx C}

def State.set (s : State C T) (c : C) (i : C ⊕ T) (x : Cpu × Ctx C) : State C T where
  cpu := update s.cpu c x.1
  ctx := update s.ctx i x.2

/-- From `i` to `j` on CPU `c`.  `sched` keeps `intena` in a variable, `scheduler` does not. -/
def State.swtch (s : State C T) (c : C) (i j : C ⊕ T) (saved : Option Bool) : State C T :=
  let s' := s.set c i (s.cpu c,
    { s.ctx i with intena := saved, base := saved.bind fun _ => (s.ctx i).base, cpu := none })
  s'.set c j (resume c (s.cpu c) (s'.ctx j))

def State.step (s : State C T) (c : C) (i : C ⊕ T) : Act T → Except Panic (State C T)
  | .op o => (o.run (s.cpu c) (s.ctx i)).map (s.set c i)
  | .sched =>
    if (s.cpu c).IF then .error .mycpu
    else if (s.cpu c).ncli ≠ 1 then .error .locks
    else .ok (s.swtch c i (.inl c) (some (s.cpu c).intena))
  | .pick t => .ok (s.swtch c i (.inr t) none)

/-- `sched` and `scheduler` switch with `ptable.lock` alone. -/
def Allowed (s : State C T) : C × (C ⊕ T) × Act T → Prop
  | (c, i, a) => (s.ctx i).cpu = some c ∧ match a with
    | .op o => o.Ok (s.cpu c) (s.ctx i)
    | .sched => i ≠ .inl c ∧ (s.ctx i).depth = 1
    | .pick t => i = .inl c ∧ (s.ctx i).depth = 1 ∧ (s.ctx (.inr t)).cpu = none

instance decidableAllowed (s : State C T) : ∀ x, Decidable (Allowed s x)
  | (_, _, .op _) | (_, _, .sched) | (_, _, .pick _) => inferInstanceAs (Decidable (_ ∧ _))

/-- CPUs enter `scheduler` with interrupts off; a thread starts in `forkret` with `ptable.lock`. -/
def start : State C T where
  cpu _ := ⟨false, 0, false⟩
  ctx
    | .inl c => ⟨some c, 0, none, [], none⟩
    | .inr _ => ⟨none, 1, none, [true], none⟩

def cliSys (C T : Type) [DecidableEq C] [DecidableEq T] :
    Machine.Sys (State C T) (C × (C ⊕ T) × Act T) where
  init s := s = start
  next s x := (s.step x.1 x.2.1 x.2.2).toOption

structure Inv (s : State C T) : Prop where
  runs : ∀ i c, (s.ctx i).cpu = some c → Runs (s.cpu c) (s.ctx i)
  left : ∀ i, (s.ctx i).cpu = none → Left (s.ctx i)
  one : ∀ i j c, (s.ctx i).cpu = some c → (s.ctx j).cpu = some c → i = j
  home : ∀ c d, (s.ctx (.inl c)).cpu = some d → d = c

@[grind =]
theorem State.cpu_set (d : C) : (s.set c i x).cpu d = if d = c then x.1 else s.cpu d :=
  update_apply ..

@[grind =]
theorem State.ctx_set : (s.set c i x).ctx j = if j = i then x.2 else s.ctx j := update_apply ..

/-- `c` goes on with `i`. -/
theorem Inv.set (h : Inv s) (hfree : ∀ j, (s.ctx j).cpu = some c → j = i)
    (hi : ∀ d, i = .inl d → d = c) (hx : Runs x.1 x.2) (hc : x.2.cpu = some c) :
    Inv (s.set c i x) := by
  obtain ⟨hruns, hleft, hone, hhome⟩ := h
  constructor <;> grind

theorem Inv.leave (h : Inv s) (hi : (s.ctx i).cpu = some c) {k : Ctx C} (hk : Left k)
    (hc : k.cpu = none) : Inv (s.set c i (s.cpu c, k)) := by
  obtain ⟨hruns, hleft, hone, hhome⟩ := h
  constructor <;> grind

theorem Inv.swtch (h : Inv s) {saved : Option Bool} (hi : (s.ctx i).cpu = some c)
    (hd : (s.ctx i).depth = 1) (hsaved : ∀ b ∈ saved, b = (s.cpu c).intena)
    (hj : ∀ d, j = .inl d → d = c) (hidle : (s.ctx j).cpu = none) : Inv (s.swtch c i j saved) := by
  have hr := h.runs i c hi
  have hoff := hr.off (by omega)
  have hleft := h.leave hi
    (k := { s.ctx i with intena := saved, base := saved.bind fun _ => (s.ctx i).base, cpu := none })
    ⟨hd, fun b hb => by
      obtain ⟨a, rfl, hb⟩ := Option.bind_eq_some_iff.1 hb
      rw [hsaved a rfl, hoff.2 b hb]⟩ rfl
  obtain ⟨hruns, hc⟩ := (hleft.left j (by grind)).resume (c := c) (p := s.cpu c)
    (by simp [hr.ncli, hd]) hoff.1
  refine hleft.set (fun l hl => ?_) hj hruns hc
  have := h.one l i c
  grind

theorem Inv.step (h : Inv s) {a : Act T} (ha : Allowed s (c, i, a)) : ∃ s', s.step c i a = .ok s' ∧
    Inv s' ∧ (a = .op .popcli → (s.ctx i).depth = 1 → ∀ b ∈ (s.ctx i).base, (s'.cpu c).IF = b) := by
  obtain ⟨hi, ha⟩ := ha
  have hr := h.runs i c hi
  cases a with
  | op o =>
    obtain ⟨x, hrun, hx, hcpu, hpop⟩ := hr.run ha
    refine ⟨_, by rw [State.step, hrun]; rfl, ?_, fun ho hd => ?_⟩
    · exact h.set (fun j hj => h.one j i c hj hi) (fun d hd => (h.home d c (hd ▸ hi)).symm) hx
        (hcpu.trans hi)
    · cases ho
      simpa [State.set] using hpop rfl hd
  | sched =>
    obtain ⟨hne, hd⟩ := ha
    refine ⟨_, by rw [State.step, if_neg (by simp [(hr.off (by omega)).1]), if_neg (by simp [hr.ncli, hd])], ?_, nofun⟩
    refine h.swtch hi hd (by simp) (fun d => Eq.symm ∘ Sum.inl.inj)
      (Option.eq_none_iff_forall_ne_some.2 fun d hd => hne ?_)
    obtain rfl := h.home c d hd
    exact h.one _ _ _ hi hd
  | pick t =>
    obtain ⟨-, hd, ht⟩ := ha
    exact ⟨_, rfl, h.swtch hi hd nofun nofun ht, nofun⟩

/-- No interrupt comes between a `pushcli` and the `popcli` that undoes it, no check of `mycpu`,
`popcli` or `sched` fails, and the last `popcli` of a thread, on whatever CPU, restores the flag
from before its first `pushcli`; that of a scheduler does if it has not switched in between. -/
theorem interrupts_nest (h : (cliSys C T).ReachableVia Allowed s) :
    (∀ i c, (s.ctx i).cpu = some c → (s.ctx i).depth ≠ 0 → (s.cpu c).IF = false) ∧
      ∀ c i a, Allowed s (c, i, a) → ∃ s', s.step c i a = .ok s' ∧
        (a = .op .popcli → (s.ctx i).depth = 1 → ∀ b ∈ (s.ctx i).base, (s'.cpu c).IF = b) := by
  have hI : Inv s := by
    refine h.invariant (I := Inv) ?_ fun s x s' hs hok hn => ?_
    · rintro _ rfl
      constructor <;> grind [start, Runs, Left]
    · obtain ⟨s₁, hrun, hinv, -⟩ := hs.step hok
      simp only [cliSys, hrun] at hn
      cases hn
      exact hinv
  refine ⟨fun i c hi hd => ((hI.runs i c hi).off hd).1, fun c i a ha => ?_⟩
  obtain ⟨s', hrun, -, hpop⟩ := hI.step ha
  exact ⟨s', hrun, hpop⟩

/-- A thread calls `pushcli` on CPU 0 with interrupts on and `popcli` on CPU 1, whose scheduler has
them off. -/
theorem interrupts_nest_moved : ∃ s s' :
    State (Fin 2) Unit, (cliSys (Fin 2) Unit).ReachableVia Allowed s ∧ (s.cpu 1).IF = false ∧
      (s.ctx (.inr ())).base = some true ∧ s.step 1 (.inr ()) (.op .popcli) = .ok s' ∧
      (s'.cpu 1).IF := by
  obtain ⟨s, h, ha, hd, hbase⟩ : ∃ s :
    State (Fin 2) Unit, (cliSys (Fin 2) Unit).ReachableVia Allowed s ∧
      Allowed s (1, .inr (), .op .popcli) ∧ (s.ctx (.inr ())).depth = 1 ∧
      (s.ctx (.inr ())).base = some true :=
    Machine.Sys.exists_reachableVia [(0, .inl 0, .op .sti), (0, .inl 0, .op .pushcli),
      (0, .inl 0, .pick ()), (0, .inr (), .op .popcli), (0, .inr (), .op .pushcli),
      (0, .inr (), .sched), (1, .inl 1, .op .pushcli),
      (1, .inl 1, .pick ())] rfl (by decide +kernel)
  obtain ⟨hoff, hstep⟩ := interrupts_nest h
  obtain ⟨s', hrun, hpop⟩ := hstep 1 (.inr ()) (.op .popcli) ha
  exact ⟨s, s', h, hoff (.inr ()) 1 ha.1 (by omega), hbase, hrun, hpop rfl hd true hbase⟩

end Xv6.Cli
