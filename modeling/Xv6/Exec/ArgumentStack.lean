import Xv6.Exec.LongArgument

/-!
# The arguments of the new program

What a program finds at its stack pointer when `exec` has returned 0, and which arguments `sys_exec`
passes on.
-/

namespace Xv6.Exec

open LittleEndian Fallible Vm List Option Nat
open UserMemory (pgroundup)

variable {K : Link} {s : Phys} {d sp : ℕ} {F H : Set ℕ}

/-! ## `sys_exec` -/

theorem Strings.get : ∀ {sp : ℕ} {argv : List (List UInt8)} {ptrs : List ℕ},
    Strings s d sp argv ptrs → ∀ i < argv.length, ptrs.getD i 0 + ((argv.getD i []).length + 1) ≤
      sp ∧ BytesAt s d (ptrs.getD i 0) (argv.getD i [] ++ [0]) ∧
      ∀ j < i, ptrs.getD i 0 + ((argv.getD i []).length + 1) ≤ ptrs.getD j 0
  | _, [], [], _, i, hi => absurd hi (not_lt_zero i)
  | sp, arg :: argv, p :: ptrs, h, 0, _ => ⟨h.1, h.2.1, fun j hj => absurd hj (not_lt_zero j)⟩
  | sp, arg :: argv, p :: ptrs, h, i + 1, hi => by
    obtain ⟨hle, hbytes, hbelow⟩ := h.2.2.get i (lt_of_succ_lt_succ hi)
    have hsp := h.1
    simp only [getD_cons_succ]
    refine ⟨by omega, hbytes, fun j hj => ?_⟩
    cases j with
    | zero => exact hle
    | succ j => exact hbelow j (lt_of_succ_lt_succ hj)

section Ustack

variable {ptrs : List ℕ}

end Ustack

end Xv6.Exec
