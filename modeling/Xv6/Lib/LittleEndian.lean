import Mathlib.Data.Nat.Notation
import Mathlib.Tactic.Ring

/-!
# Little-endian fields of a byte buffer

`getLE b o k` is the `k`-byte little-endian number at offset `o` of the buffer `b`, and `setLE b o k
v` stores the low `8 * k` bits of `v` there.
-/

namespace LittleEndian

variable {n : ℕ}

abbrev Buf (n : ℕ) := Fin n → UInt8

variable (b : Buf n)

/-- The byte at offset `i`, zero outside the buffer. -/
def getByte (i : ℕ) : UInt8 := if h : i < n then b ⟨i, h⟩ else 0

def setByte (i : ℕ) (v : UInt8) : Buf n := fun j => if j.val = i then v else b j

/-- The `k`-byte number at offset `o`, least significant byte first. -/
def getLE (b : Buf n) (o : ℕ) : ℕ → ℕ
  | 0 => 0
  | k + 1 => (getByte b o).toNat + 256 * getLE b (o + 1) k

/-- Store the low `k` bytes of `v` at offset `o`, least significant byte first. -/
def setLE (b : Buf n) (o : ℕ) : ℕ → ℕ → Buf n
  | 0, _ => b
  | k + 1, v => setByte (setLE b (o + 1) k (v / 256)) o (UInt8.ofNat v)

theorem getByte_setByte_self {i : ℕ} (hi : i < n) (v : UInt8) : getByte (setByte b i v) i = v := by
  simp [getByte, setByte, hi]

theorem getByte_setByte_of_ne {i j : ℕ} (h : j ≠ i) (v : UInt8) :
    getByte (setByte b i v) j = getByte b j := by
  simp [getByte, setByte, h]

theorem getLE_setByte_of_disjoint {i o k : ℕ} (h : i < o ∨ o + k ≤ i) (v : UInt8) :
    getLE (setByte b i v) o k = getLE b o k := by
  induction k generalizing o with
  | zero => rfl
  | succ k ih =>
    rw [getLE, getLE, getByte_setByte_of_ne _ (by omega), ih (by omega)]

theorem getLE_setLE_of_disjoint {o k o' k' : ℕ} (h : o' + k' ≤ o ∨ o + k ≤ o') (v : ℕ) :
    getLE (setLE b o' k' v) o k = getLE b o k := by
  induction k' generalizing o' v with
  | zero => rfl
  | succ k' ih =>
    rcases Nat.eq_zero_or_pos k with rfl | hk
    · rfl
    · rw [setLE, getLE_setByte_of_disjoint _ (by omega), ih (by omega)]

theorem getLE_setLE {o k : ℕ} (h : o + k ≤ n) (v : ℕ) :
    getLE (setLE b o k v) o k = v % 256 ^ k := by
  induction k generalizing o v with
  | zero => simp [getLE, Nat.mod_one]
  | succ k ih =>
    have hv : (UInt8.ofNat v).toNat = v % 256 := by simp
    rw [setLE, getLE, getByte_setByte_self _ (by omega), getLE_setByte_of_disjoint _ (by omega),
      ih (by omega), hv, pow_succ', Nat.mod_mul]

theorem getLE_lt (o k : ℕ) : getLE b o k < 256 ^ k := by
  induction k generalizing o with
  | zero => simp [getLE]
  | succ k ih =>
    have hb : (getByte b o).toNat < 256 := (getByte b o).toNat_lt
    have := ih (o + 1)
    rw [getLE, pow_succ']
    omega

end LittleEndian
