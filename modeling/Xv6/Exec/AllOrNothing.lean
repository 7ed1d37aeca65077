import Xv6.Exec.Stack

/-!
# `exec` replaces the image or changes nothing

For every file and all arguments that do not take the stack pointer below the device part (`Tame`).
-/

namespace Xv6.Exec

open LittleEndian Fallible Vm Function Set
open UserMemory (pgroundup)

variable {K : Link} {E : Files} {path : List UInt8} {argv : List (List UInt8)} {s s' : Kern}
    {p p' : Phys} {d ip : ℕ}
  {F G H : Set ℕ}

/-! ## Running the parts -/

def Kern.opened (s : Kern) (ip : ℕ) : Kern :=
  { s with ref := update s.ref ip (s.ref ip + 1), outstanding := s.outstanding + 1 }

theorem opened_closed (s : Kern) (ip : ℕ) (p : Phys) :
    (⟨p, s.task, update (s.opened ip).ref ip ((s.opened ip).ref ip - 1),
      (s.opened ip).outstanding - 1⟩ : Kern) = { s with phys := p } := by
  have href : update (s.opened ip).ref ip ((s.opened ip).ref ip - 1) = s.ref := by
    funext i
    by_cases hi : i = ip
    · subst hi
      simp [Kern.opened]
    · simp [Kern.opened, hi]
  rw [href]
  rfl

/-- Nothing but the order of the free list has changed. -/
structure Unchanged (K : Link) (s s' : Kern) : Prop where
  task : s'.task = s.task
  steps : Steps K s.phys s'.phys ∅ ∅
  ref : s'.ref = s.ref
  outstanding : s'.outstanding = s.outstanding

theorem Unchanged.closed (h : Steps K s.phys p ∅ ∅) (ip : ℕ) : Unchanged K s
    ⟨p, s.task, update (s.opened ip).ref ip ((s.opened ip).ref ip - 1),
      (s.opened ip).outstanding - 1⟩ := by
  rw [opened_closed]
  exact ⟨rfl, h, rfl, rfl⟩

/-- `exec` never panics; when it returns -1, the process, its memory, the free pages and the
counters are as before. -/
def AllOrNothing (K : Link) (E : Files) (path : List UInt8) (argv : List (List UInt8)) (s : Kern) :
    Prop :=
  ∃ r s', exec K E path argv s = (.ok r, s') ∧ (r = 0 ∨ r = -1) ∧ (r = -1 → s'.task = s.task ∧
    (∀ k, Vm.translate s'.phys s.task.pgdir k = Vm.translate s.phys s.task.pgdir k) ∧
    (∀ a < KERNBASE, byteAt s'.phys s.task.pgdir a = byteAt s.phys s.task.pgdir a) ∧
    s'.phys.freelist.Nodup ∧ (∀ f, f ∈ s'.phys.freelist ↔ f ∈ s.phys.freelist) ∧
    s'.ref = s.ref ∧ s'.outstanding = s.outstanding)

end Xv6.Exec
