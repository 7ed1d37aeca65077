import Xv6.Lib.LittleEndian
import Mathlib.Data.Nat.Bitwise

/-!
# Copies into a byte buffer, and its bits

`blit b o m f` copies `m` bytes to offset `o`: the byte `f i` goes to offset `o + i`.  `bit b i` is
bit `i` of the buffer, counted from the least significant bit of byte `0`.
-/

namespace LittleEndian

open Nat

variable {n : ℕ}

/-- Byte `i` of a number, the least significant one first. -/
def byteOf (v i : ℕ) : UInt8 := UInt8.ofNat (v / 256 ^ i)

def blit (b : Buf n) (o m : ℕ) (f : ℕ → UInt8) : Buf n :=
  fun j => if o ≤ j.val ∧ j.val < o + m then f (j.val - o) else b j

def zeroes : Buf n := fun _ => 0

/-! ## Bytes and fields -/

theorem getByte_zeroes (i : ℕ) : getByte (zeroes : Buf n) i = 0 := by
  simp [getByte, zeroes]

theorem getByte_blit {b : Buf n} {o m : ℕ} {f : ℕ → UInt8} {i : ℕ} (hi : o ≤ i) (hm : i < o + m)
    (hn : i < n) : getByte (blit b o m f) i = f (i - o) := by
  simp [getByte, blit, hi, hm, hn]

theorem getByte_blit_of_disjoint (b : Buf n) {o m i : ℕ} (f : ℕ → UInt8) (h : i < o ∨ o + m ≤ i) :
    getByte (blit b o m f) i = getByte b i := by
  have hout : ¬ (o ≤ i ∧ i < o + m) := by omega
  simp [getByte, blit, hout]

theorem getLE_congr {m : ℕ} {b : Buf n} {b' : Buf m} {o o' k : ℕ}
    (h : ∀ i < k, getByte b (o + i) = getByte b' (o' + i)) : getLE b o k = getLE b' o' k := by
  induction k generalizing o o' with
  | zero => rfl
  | succ k ih =>
    have h₀ := h 0 (by omega)
    rw [add_zero, add_zero] at h₀
    rw [getLE, getLE, h₀, ih fun i hi => ?_]
    have := h (i + 1) (by omega)
    rwa [add_right_comm, add_right_comm o']

theorem getLE_blit_of_disjoint (b : Buf n) {o m p k : ℕ} (f : ℕ → UInt8)
    (h : p + k ≤ o ∨ o + m ≤ p) : getLE (blit b o m f) p k = getLE b p k :=
  getLE_congr fun i hi => getByte_blit_of_disjoint b f (by omega)

theorem getLE_zeroes (o k : ℕ) : getLE (zeroes : Buf n) o k = 0 := by
  induction k generalizing o with
  | zero => rfl
  | succ k ih => simp [getLE, getByte_zeroes, ih]

theorem getLE_of_bytes {b : Buf n} {o k v : ℕ} (h : ∀ i < k, getByte b (o + i) = byteOf v i) :
    getLE b o k = v % 256 ^ k := by
  induction k generalizing o v with
  | zero => simp [getLE, Nat.mod_one]
  | succ k ih =>
    have h₀ : getByte b o = UInt8.ofNat v := by
      have := h 0 (by omega)
      rwa [add_zero, byteOf, Nat.pow_zero, Nat.div_one] at this
    have hk : getLE b (o + 1) k = v / 256 % 256 ^ k := by
      refine ih fun i hi => ?_
      have := h (i + 1) (by omega)
      rw [byteOf, pow_succ', ← Nat.div_div_eq_div_mul] at this
      rwa [add_right_comm]
    have hv : (UInt8.ofNat v).toNat = v % 256 := by simp
    rw [getLE, h₀, hk, hv, pow_succ', Nat.mod_mul]

theorem getLE_blit {b : Buf n} {o m p k v : ℕ} {f : ℕ → UInt8} (hp : o ≤ p) (hm : p + k ≤ o + m)
    (hn : p + k ≤ n) (hf : ∀ i < k, f (p - o + i) = byteOf v i) :
    getLE (blit b o m f) p k = v % 256 ^ k := by
  refine getLE_of_bytes fun i hi => ?_
  rw [getByte_blit (by omega) (by omega) (by omega), ← hf i hi]
  congr 1
  omega

/-! ## Bits -/

def bit (b : Buf n) (i : ℕ) : Bool := (getByte b (i / 8)).toNat.testBit (i % 8)

/-- `b[i/8] |= 1 << (i % 8)`. -/
def setBit (b : Buf n) (i : ℕ) : Buf n :=
  setByte b (i / 8) (UInt8.ofNat ((getByte b (i / 8)).toNat ||| 2 ^ (i % 8)))

/-- `b[i/8] &= ~(1 << (i % 8))`. -/
def clearBit (b : Buf n) (i : ℕ) : Buf n :=
  setByte b (i / 8) (UInt8.ofNat ((getByte b (i / 8)).toNat &&& (255 ^^^ 2 ^ (i % 8))))

theorem bit_zeroes (i : ℕ) : bit (zeroes : Buf n) i = false := by
  simp [bit, getByte_zeroes]

theorem testBit_ofNat {x k : ℕ} (hk : k < 8) : (UInt8.ofNat x).toNat.testBit k = x.testBit k := by
  have hx : (UInt8.ofNat x).toNat = x % 2 ^ 8 := by simp
  rw [hx, testBit_mod_two_pow]
  simp [hk]

theorem bit_setBit {b : Buf n} {i : ℕ} (hi : i < n * 8) (j : ℕ) :
    bit (setBit b i) j = (bit b j || decide (i = j)) := by
  unfold bit setBit
  by_cases h : j / 8 = i / 8
  · have hk : i % 8 = j % 8 ↔ i = j := by omega
    rw [h, getByte_setByte_self _ (by omega), testBit_ofNat (mod_lt _ (by decide)), testBit_or,
      testBit_two_pow]
    simp only [hk]
  · have hne : i ≠ j := by
      rintro rfl
      exact h rfl
    rw [getByte_setByte_of_ne _ h]
    simp [hne]

theorem bit_clearBit {b : Buf n} {i : ℕ} (hi : i < n * 8) (j : ℕ) :
    bit (clearBit b i) j = (bit b j && !decide (i = j)) := by
  unfold bit clearBit
  by_cases h : j / 8 = i / 8
  · have hk : i % 8 = j % 8 ↔ i = j := by omega
    have hj : j % 8 < 8 := mod_lt _ (by decide)
    have hmask : (255 : ℕ).testBit (j % 8) := by
      rw [show (255 : ℕ) = 2 ^ 8 - 1 from rfl, testBit_two_pow_sub_one]
      simpa using hj
    rw [h, getByte_setByte_self _ (by omega), testBit_ofNat hj, testBit_and, testBit_xor, hmask,
      testBit_two_pow]
    simp only [hk, Bool.true_xor]
  · have hne : i ≠ j := by
      rintro rfl
      exact h rfl
    rw [getByte_setByte_of_ne _ h]
    simp [hne]

end LittleEndian
