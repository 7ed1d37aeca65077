import Xv6.Param
import Mathlib.Logic.Function.Basic
import Mathlib.Tactic.SplitIfs

/-!
# The two `memmove`s

`memmove` of `string.c` copies downwards if the destination begins inside of the source; `memmove`
of `ulib.c` always copies upwards, and so overwrites bytes of such a source before it has read them
(`memmove_overlap`).
-/

namespace Xv6.Memmove

open Function Nat

/-- Bytes by address.  Addresses are below `2 ^ 32`; the ranges that are copied do not wrap. -/
abbrev Mem := ℕ → UInt8

/-- `while(n-- > 0) *d++ = *s++;` -/
def copyUp : ℕ → Mem → ℕ → ℕ → Mem
  | 0, m, _, _ => m
  | n + 1, m, d, s => copyUp n (update m d (m s)) (d + 1) (s + 1)

/-- `while(n-- > 0) *--d = *--s;` -/
def copyDown : ℕ → Mem → ℕ → ℕ → Mem
  | 0, m, _, _ => m
  | n + 1, m, d, s => copyDown n (update m (d - 1) (m (s - 1))) (d - 1) (s - 1)

/-- `memmove` of `string.c`. -/
def Kernel.memmove (m : Mem) (dst src n : ℕ) : Mem :=
  if src < dst ∧ dst < (src + n) % 2 ^ 32 then copyDown n m (dst + n) (src + n) else
    copyUp n m dst src

/-- `memmove` of `ulib.c`; `n` is an `int`. -/
def Ulib.memmove (m : Mem) (dst src : ℕ) (n : ℤ) : Mem := copyUp n.toNat m dst src

/-- The memory after all bytes have been read before one is written. -/
def snapshot (m : Mem) (dst src n : ℕ) : Mem := fun a => if dst ≤ a ∧ a < dst + n then
    m (src + (a - dst)) else m a

theorem snapshot_apply (m : Mem) (dst src : ℕ) {n i : ℕ} (hi : i < n) :
    snapshot m dst src n (dst + i) = m (src + i) := by
  rw [snapshot, if_pos ⟨Nat.le_add_right _ _, by omega⟩, Nat.add_sub_cancel_left]

theorem copyUp_eq {n : ℕ} {m : Mem} {d s : ℕ} (h : d ≤ s ∨ s + n ≤ d) :
    copyUp n m d s = snapshot m d s n := by
  induction n generalizing m d s with
  | zero =>
    funext a
    rw [copyUp, snapshot, if_neg (by omega)]
  | succ n ih =>
    rw [copyUp, ih (by omega)]
    funext a
    rcases Nat.lt_trichotomy a d with had | rfl | had
    · rw [snapshot, snapshot, if_neg (by omega), if_neg (by omega), update_of_ne (by omega)]
    · rw [snapshot, snapshot, if_neg (by omega), if_pos (by omega), update_self, Nat.sub_self,
        Nat.add_zero]
    · by_cases hn : a < d + (n + 1)
      · -- the byte read later is not the one written first
        rw [snapshot, snapshot, if_pos (by omega), if_pos (by omega), update_of_ne (by omega)]
        congr 1
        omega
      · rw [snapshot, snapshot, if_neg (by omega), if_neg (by omega), update_of_ne (by omega)]

theorem copyDown_eq {n : ℕ} {m : Mem} {d s : ℕ} (h : s ≤ d) :
    copyDown n m (d + n) (s + n) = snapshot m d s n := by
  induction n generalizing m with
  | zero =>
    funext a
    rw [copyDown, snapshot, if_neg (by omega)]
  | succ n ih =>
    rw [copyDown, show d + (n + 1) - 1 = d + n by omega, show s + (n + 1) - 1 = s + n by omega, ih]
    funext a
    by_cases hin : d ≤ a ∧ a < d + n
    · rw [snapshot, snapshot, if_pos hin, if_pos (by omega), update_of_ne (by omega)]
    · by_cases ha : a = d + n
      · rw [ha, snapshot_apply m d s (lt_succ_self n), snapshot, if_neg (by omega), update_self]
      · rw [snapshot, snapshot, if_neg hin, if_neg (by omega), update_of_ne ha]

theorem copyUp_add (a b : ℕ) (m : Mem) (d s : ℕ) :
    copyUp (a + b) m d s = copyUp b (copyUp a m d s) (d + a) (s + a) := by
  induction a generalizing m d s with
  | zero => simp [copyUp]
  | succ a ih =>
    rw [Nat.add_right_comm, copyUp, ih, copyUp, Nat.add_assoc, Nat.add_assoc, Nat.add_comm 1 a]

theorem copyUp_below {n : ℕ} {m : Mem} {d s a : ℕ} (h : a < d) : copyUp n m d s a = m a := by
  induction n generalizing m d s with
  | zero => rfl
  | succ n ih => rw [copyUp, ih (by omega), update_of_ne (by omega)]

/-- If the destination begins inside of the source, the byte copied first is copied again from
there. -/
theorem copyUp_overlap {n k : ℕ} (m : Mem) (s : ℕ) (hk : 0 < k) (hn : k < n) :
    copyUp n m (s + k) s (s + k + k) = m s := by
  obtain ⟨r, rfl⟩ : ∃ r, n = k + (r + 1) := ⟨n - k - 1, by omega⟩
  rw [copyUp_add, copyUp_eq (.inr (Nat.le_refl _)), copyUp, copyUp_below (by omega), update_self]
  exact snapshot_apply m (s + k) s (i := 0) hk

theorem Kernel.memmove_eq (m : Mem) {dst src n : ℕ} (hs : src + n ≤ 2 ^ 32)
    (hd : dst + n ≤ 2 ^ 32) : Kernel.memmove m dst src n = snapshot m dst src n := by
  unfold Kernel.memmove
  split_ifs with h
  · exact copyDown_eq (by omega)
  · refine copyUp_eq ?_
    by_contra hov
    -- a destination that begins inside of the source ends after it, so the source ends below `2 ^ 32`
    rw [mod_eq_of_lt (by omega)] at h
    omega

/-- The kernel's `memmove` copies as if from a snapshot.  The library's does so, and so agrees with
it, for every memory, exactly if the destination does not begin inside of the source. -/
theorem memmove_snapshot (dst src n : ℕ) (hs : src + n ≤ 2 ^ 32) (hd : dst + n ≤ 2 ^ 32) :
    (∀ m, Kernel.memmove m dst src n = snapshot m dst src n) ∧
      ((∀ m, Ulib.memmove m dst src n = snapshot m dst src n) ↔ ¬ (src < dst ∧ dst < src + n)) ∧
      ((∀ m, Kernel.memmove m dst src n = Ulib.memmove m dst src n) ↔
      ¬ (src < dst ∧ dst < src + n)) := by
  have hkernel := fun m => Kernel.memmove_eq m hs hd
  have hulib : (∀ m, Ulib.memmove m dst src n = snapshot m dst src n) ↔
    ¬ (src < dst ∧ dst < src + n) := by
    simp only [Ulib.memmove, Int.toNat_natCast]
    refine ⟨fun h ⟨hlt, hov⟩ => ?_, fun h m => copyUp_eq (by omega)⟩
    obtain ⟨k, rfl⟩ := Nat.exists_eq_add_of_le (Nat.le_of_lt hlt)
    -- only the first byte of the source is not zero
    have hcopy := copyUp_overlap (update (fun _ => 0) src 1) src (k := k) (n := n) (by omega)
      (by omega)
    rw [h, snapshot_apply _ _ _ (by omega), update_self, update_of_ne (by omega)] at hcopy
    exact absurd hcopy (by decide)
  refine ⟨hkernel, hulib, ?_⟩
  rw [← hulib]
  exact forall_congr' fun m => by rw [hkernel m, eq_comm]

/-- Two bytes are moved down by one. -/
theorem memmove_snapshot_down :
    Ulib.memmove (fun a => .ofNat a) 4 5 2 = snapshot (fun a => .ofNat a) 4 5 2 ∧
      Ulib.memmove (fun a => .ofNat a) 4 5 2 5 = 6 :=
  ⟨(memmove_snapshot 4 5 2 (by decide) (by decide)).2.1.2 (by decide) _, by decide⟩

/-- Two bytes are moved up by one: the library's `memmove` copies the first byte twice. -/
theorem memmove_overlap :
    Ulib.memmove (fun a => .ofNat a) 5 4 2 6 = 4 ∧ snapshot (fun a => .ofNat a) 5 4 2 6 = 5 ∧
      Kernel.memmove (fun a => .ofNat a) 5 4 2 6 = 5 := by
  decide

end Xv6.Memmove
