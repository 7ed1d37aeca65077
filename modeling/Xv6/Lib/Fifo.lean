import Mathlib.Data.Fin.Basic
import Mathlib.Data.Nat.ModEq
import Mathlib.Logic.Function.Basic

/-!
# Cyclic buffers with wrapping counters

A buffer of `N` cells with a counter of the elements taken out and one of the elements put in.  The
counters wrap at `W`, and the cell of a count is its remainder modulo `N`, so `N` has to divide `W`.

`contents` are the elements in the buffer, the oldest first.
-/

namespace Fifo

open List Nat Fin

/-- `N` cells, and the counters of the elements taken out and put in. -/
structure Buffer (N W : Nat) (α : Type) where
  cell : Fin N → α
  out : Fin W
  inn : Fin W

namespace Buffer

variable {N W : Nat} {α : Type} [NeZero N] [NeZero W] (b : Buffer N W α) (x : α)

def size : Nat := (b.inn - b.out).val

/-- The cell of the `k`-th element, counted from the oldest one. -/
def slot (k : Nat) : Fin N := Fin.ofNat N (b.out + Fin.ofNat W k).val

def contents : List α := (range b.size).map fun k => b.cell (b.slot k)

def push : Buffer N W α where
  cell := Function.update b.cell (Fin.ofNat N b.inn.val) x
  out := b.out
  inn := b.inn + 1

def front : α := b.cell (Fin.ofNat N b.out.val)

def pop : Buffer N W α := { b with out := b.out + 1 }

def retract : Buffer N W α := { b with inn := b.inn - 1 }

/-! ## Counters -/

section

omit [NeZero N]

omit [NeZero W] in
theorem size_lt : b.size < W := (b.inn - b.out).isLt

omit [NeZero W] in
theorem inn_val : b.inn.val = (b.out.val + b.size) % W := by
  have hin := b.inn.isLt
  have hout := b.out.isLt
  rw [size, val_sub]
  rcases lt_or_ge (W - b.out.val + b.inn.val) W with h | h
  · rw [mod_eq_of_lt h, show b.out.val + (W - b.out.val + b.inn.val) = b.inn.val + W by omega,
      add_mod_right, mod_eq_of_lt hin]
  · rw [mod_eq_sub_mod h, show W - b.out.val + b.inn.val - W = b.inn.val - b.out.val by omega,
      mod_eq_of_lt (by omega : b.inn.val - b.out.val < W), mod_eq_of_lt (by omega)]
    omega

omit [NeZero W] in
theorem size_eq {n : Nat} (hn : n < W) (h : b.inn.val = (b.out.val + n) % W) : b.size = n := by
  have hmod : b.out.val + b.size ≡ b.out.val + n [MOD W] := b.inn_val.symm.trans h
  have hsize := Nat.ModEq.add_left_cancel' _ hmod
  rwa [Nat.ModEq, mod_eq_of_lt b.size_lt, mod_eq_of_lt hn] at hsize

theorem size_eq_zero_iff : b.size = 0 ↔ b.out = b.inn := by
  constructor
  · intro h
    rw [Fin.ext_iff, inn_val, h, add_zero, mod_eq_of_lt b.out.isLt]
  · intro h
    refine b.size_eq (pos_of_neZero W) ?_
    rw [← h, add_zero, mod_eq_of_lt b.out.isLt]

theorem size_eq_iff (h : N < W) : b.size = N ↔ b.inn = b.out + Fin.ofNat W N := by
  rw [Fin.ext_iff, Fin.val_add, Fin.val_ofNat, add_mod_mod]
  refine ⟨fun hs => ?_, b.size_eq h⟩
  rw [inn_val, hs]

end

theorem size_push (h : b.size < N) (hW : N < W) : (b.push x).size = b.size + 1 := by
  refine (b.push x).size_eq (by omega) ?_
  rw [push, Fin.val_add, inn_val, Fin.val_one', mod_add_mod, add_mod_mod, add_assoc]

omit [NeZero N] in
theorem size_pop (h : 0 < b.size) : b.pop.size = b.size - 1 := by
  have hlt := b.size_lt
  refine b.pop.size_eq (by omega) ?_
  rw [show b.pop.inn = b.inn from rfl, show b.pop.out = b.out + 1 from rfl, val_add, val_one',
    inn_val, add_mod_mod, mod_add_mod,
    show b.out.val + 1 + (b.size - 1) = b.out.val + b.size by omega]

omit [NeZero N] in
theorem size_retract (h : 0 < b.size) : b.retract.size = b.size - 1 := by
  have hlt := b.size_lt
  refine b.retract.size_eq (by omega) ?_
  rw [show b.retract.inn = b.inn - 1 from rfl, show b.retract.out = b.out from rfl, val_sub,
    val_one', mod_eq_of_lt (by omega : 1 < W), inn_val, add_mod_mod,
    show W - 1 + (b.out.val + b.size) = b.out.val + (b.size - 1) + W by omega, add_mod_right]

/-! ## Contents -/

@[simp] theorem length_contents : b.contents.length = b.size := by simp [contents]

section

variable (hdvd : N ∣ W)

include hdvd

theorem slot_val (k : Nat) : (b.slot k).val = (b.out.val + k) % N := by
  rw [slot, Fin.val_ofNat, Fin.val_add, Fin.val_ofNat, add_mod_mod, mod_mod_of_dvd _ hdvd]

theorem slot_size : b.slot b.size = Fin.ofNat N b.inn.val := by
  rw [Fin.ext_iff, slot_val b hdvd, Fin.val_ofNat, inn_val, mod_mod_of_dvd _ hdvd]

theorem slot_ne {k : Nat} (hk : k < b.size) (h : b.size < N) : b.slot k ≠ b.slot b.size := by
  intro heq
  have hmod : b.out.val + k ≡ b.out.val + b.size [MOD N] := by
    rw [Nat.ModEq, ← slot_val b hdvd, ← slot_val b hdvd, heq]
  have hsize := Nat.ModEq.add_left_cancel' _ hmod
  rw [Nat.ModEq, mod_eq_of_lt (hk.trans h), mod_eq_of_lt h] at hsize
  omega

theorem contents_push (h : b.size < N) (hW : N < W) : (b.push x).contents = b.contents ++ [x] := by
  rw [contents, size_push b x h hW, List.range_succ, map_append]
  congr 1
  · refine map_congr_left fun k hk => ?_
    have hne := slot_ne b hdvd (mem_range.1 hk) h
    rw [slot_size b hdvd] at hne
    exact Function.update_of_ne hne _ _
  · have hslot : (b.push x).slot b.size = Fin.ofNat N b.inn.val := slot_size b hdvd
    rw [map_singleton, hslot]
    exact congrArg (fun y => [y]) (Function.update_self ..)

theorem contents_retract (h : 0 < b.size) :
    b.contents = b.retract.contents ++ [b.cell (Fin.ofNat N (b.inn - 1).val)] := by
  have hsize := b.size_retract h
  rw [contents, show b.size = b.retract.size + 1 by omega, List.range_succ, map_append, map_singleton]
  have hslot : b.slot b.retract.size = Fin.ofNat N (b.inn - 1).val := slot_size b.retract hdvd
  rw [hslot]
  rfl

omit hdvd in
theorem contents_pop (h : 0 < b.size) : b.contents = b.front :: b.pop.contents := by
  obtain ⟨n, hn⟩ := exists_eq_succ_of_ne_zero h.ne'
  rw [contents, contents, size_pop b h, hn, range_succ_eq_map]
  simp only [map_cons, map_map, succ_sub_one]
  congr 1
  · simp [slot, front]
  · refine map_congr_left fun k _ => ?_
    have hslot : b.slot (k + 1) = b.pop.slot k := by
      rw [Fin.ext_iff]
      simp only [slot, pop, Fin.val_ofNat, Fin.val_add, Fin.val_one', add_mod_mod, mod_add_mod]
      rw [show b.out.val + (k + 1) = b.out.val + 1 + k by omega]
    simp [hslot, pop]

end

end Buffer

end Fifo
