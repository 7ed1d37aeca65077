import Xv6.Fs.Format
import Xv6.Lib.WriteSeq
import Mathlib.Tactic.Common

/-!
# The redo log: commit and recovery

The disk side of `log.c`.  A device `Dev` holds the disk, the contents of the cached blocks and the
block writes issued so far, in order; `bread` prefers the cached copy and `bwrite` writes through.

The header block is `struct logheader`: the count `n` at byte 0 and `block[i]` at byte `4 + 4 * i`.
-/

namespace Xv6

open LittleEndian Function List

namespace Log

/-! ## The header block -/

/-- The field `n` of the header block, read as a signed `int` and used as a loop bound. -/
def headN (b : Block) : ℕ := if getLE b 0 4 < 2 ^ 31 then getLE b 0 4 else 0

/-- The loop of `read_head`: the first `n` block numbers of the header block. -/
def headBlocks (b : Block) : List ℕ := (range (headN b)).map fun i => getLE b (4 + 4 * i) 4

/-- The loop of `write_head`: store block numbers from index `i` on. -/
def putBlocks (b : Block) : ℕ → List ℕ → Block
  | _, [] => b
  | i, x :: xs => putBlocks (setLE b (4 + 4 * i) 4 x) (i + 1) xs

/-- The header block with `n` and `block[0..n)` set; the bytes behind them stay. -/
def putHead (b : Block) (lh : List ℕ) : Block := putBlocks (setLE b 0 4 lh.length) 0 lh

theorem getLE_putBlocks_of_le (b : Block) {i o k : ℕ} (xs : List ℕ) (h : o + k ≤ 4 + 4 * i) :
    getLE (putBlocks b i xs) o k = getLE b o k := by
  induction xs generalizing b i with
  | nil => rfl
  | cons x xs ih => rw [putBlocks, ih _ (by omega), getLE_setLE_of_disjoint _ (by omega)]

theorem getLE_putBlocks (b : Block) {i : ℕ} (xs : List ℕ) (hfit : i + xs.length ≤ LOGSIZE)
    (hlt : ∀ x ∈ xs, x < 2 ^ 32) {j : ℕ} (hj : j < xs.length) :
    getLE (putBlocks b i xs) (4 + 4 * (i + j)) 4 = xs[j] := by
  induction xs generalizing b i j with
  | nil => simp at hj
  | cons x xs ih =>
    simp only [length_cons] at hfit hj
    cases j with
    | zero =>
      have hx := hlt x mem_cons_self
      rw [putBlocks, getLE_putBlocks_of_le _ _ (by omega), add_zero, getLE_setLE]
      · simpa using Nat.mod_eq_of_lt hx
      · simp only [LOGSIZE, MAXOPBLOCKS] at hfit
        simp only [BSIZE]
        omega
    | succ j =>
      rw [putBlocks, ← add_assoc, add_right_comm i j 1,
        ih _ (by omega) (fun y hy => hlt y (mem_cons_of_mem _ hy)) (by omega)]
      rfl

theorem headN_putHead (b : Block) {lh : List ℕ} (hlen : lh.length ≤ LOGSIZE) :
    headN (putHead b lh) = lh.length := by
  have hsmall : lh.length < 2 ^ 31 := by
    simp only [LOGSIZE, MAXOPBLOCKS] at hlen
    omega
  have hn : getLE (putHead b lh) 0 4 = lh.length := by
    rw [putHead, getLE_putBlocks_of_le _ _ (by omega), getLE_setLE _ (by simp [BSIZE])]
    exact Nat.mod_eq_of_lt (by omega)
  rw [headN, hn, if_pos hsmall]

theorem headBlocks_putHead (b : Block) {lh : List ℕ} (hlen : lh.length ≤ LOGSIZE)
    (hlt : ∀ x ∈ lh, x < 2 ^ 32) : headBlocks (putHead b lh) = lh := by
  apply ext_getElem
  · simp [headBlocks, headN_putHead b hlen]
  · intro j h₁ h₂
    have := getLE_putBlocks (setLE b 0 4 lh.length) (i := 0) lh (by omega) hlt h₂
    simpa [headBlocks, putHead] using this

@[simp] theorem headBlocks_putHead_nil (b : Block) : headBlocks (putHead b []) = [] :=
  headBlocks_putHead b (by simp) (by simp)

/-! ## The device -/

/-- A disk behind a write-through block cache, with the writes issued to it. -/
structure Dev where
  disk : ℕ → Block
  cache : ℕ → Option Block
  /-- Block writes issued so far, oldest first. -/
  writes : List (ℕ × Block)

namespace Dev

variable (d : Dev) (b : ℕ)

/-- The contents `bread` returns: the cached copy, or the disk's. -/
def bread : Block := (d.cache b).getD (d.disk b)

/-- `bwrite` of the buffer of block `b` holding `v`. -/
def bwrite (v : Block) : Dev where
  disk := update d.disk b v
  cache := update d.cache b (some v)
  writes := d.writes ++ [(b, v)]

def boot (disk : ℕ → Block) : Dev := ⟨disk, fun _ => none, []⟩

/-- Going from `d` to `d'` issues exactly the writes `ws`, to the disk and through the cache. -/
structure Issues (d d' : Dev) (ws : List (ℕ × Block)) : Prop where
  writes : d'.writes = d.writes ++ ws
  disk : d'.disk = WriteSeq.apply ws d.disk
  bread : d'.bread = WriteSeq.apply ws d.bread

theorem Issues.refl : Issues d d [] := ⟨by simp, rfl, rfl⟩

theorem Issues.trans {d d₁ d₂ : Dev} {ws vs : List (ℕ × Block)} (h₁ : Issues d d₁ ws)
    (h₂ : Issues d₁ d₂ vs) : Issues d d₂ (ws ++ vs) where
  writes := by rw [h₂.writes, h₁.writes, append_assoc]
  disk := by rw [h₂.disk, h₁.disk, WriteSeq.apply_append]
  bread := by rw [h₂.bread, h₁.bread, WriteSeq.apply_append]

theorem bread_bwrite (v : Block) : (d.bwrite b v).bread = update d.bread b v := by
  funext x
  by_cases hx : x = b
  · subst hx
    simp [bread, bwrite]
  · simp [bread, bwrite, hx]

theorem issues_bwrite (v : Block) : Issues d (d.bwrite b v) [(b, v)] :=
  ⟨rfl, rfl, bread_bwrite d b v⟩

end Dev

/-! ## `log.c` -/

/-- The on-disk log: `size` blocks from `start`, the first of them the header. -/
structure LogArea where
  start : ℕ
  size : ℕ
  pos : 0 < size

/-- Block `b` belongs to the log. -/
def LogArea.Mem (L : LogArea) (b : ℕ) : Prop := L.start ≤ b ∧ b < L.start + L.size

instance (L : LogArea) (b : ℕ) : Decidable (L.Mem b) :=
  inferInstanceAs (Decidable (_ ∧ _))

theorem LogArea.mem_start (L : LogArea) : L.Mem L.start := ⟨le_rfl, Nat.lt_add_of_pos_right L.pos⟩

/-- The log `mkfs` lays out: `nlog = LOGSIZE` blocks from block 2. -/
def mkfsLog : LogArea := ⟨2, LOGSIZE, by decide⟩

variable (L : LogArea) {bs : List ℕ}

/-- The loop of `install_trans` from `tail` on: copy log blocks to their home locations. -/
def installTrans : ℕ → List ℕ → Dev → Dev
  | _, [], d => d
  | tail, b :: bs, d =>
    let lbuf := d.bread (L.start + tail + 1)
    installTrans (tail + 1) bs (d.bwrite b lbuf)

def readHead (d : Dev) : List ℕ := headBlocks (d.bread L.start)

def writeHead (lh : List ℕ) (d : Dev) : Dev := d.bwrite L.start (putHead (d.bread L.start) lh)

/-- Recovery: install what the header lists, then clear the log. -/
def recoverFromLog (d : Dev) : Dev :=
  let lh := readHead L d
  writeHead L [] (installTrans L 0 lh d)

/-- The loop of `write_log` from `tail` on: copy modified blocks from the cache to the log. -/
def writeLog : ℕ → List ℕ → Dev → Dev
  | _, [], d => d
  | tail, b :: bs, d =>
    let src := d.bread b
    writeLog (tail + 1) bs (d.bwrite (L.start + tail + 1) src)

def commit (lh : List ℕ) (d : Dev) : Dev :=
  if 0 < lh.length then
    writeHead L [] (installTrans L 0 lh (writeHead L lh (writeLog L 0 lh d)))
  else d

/-! ## The writes each of them issues -/

/-- The writes of `write_log`, where `src` gives the cached contents of the home blocks. -/
def logWrites (src : ℕ → Block) : ℕ → List ℕ → List (ℕ × Block)
  | _, [] => []
  | tail, b :: bs => (L.start + tail + 1, src b) :: logWrites src (tail + 1) bs

/-- The writes of `install_trans`, where `src` gives the contents of the log blocks. -/
def homeWrites (src : ℕ → Block) : ℕ → List ℕ → List (ℕ × Block)
  | _, [] => []
  | tail, b :: bs => (b, src (L.start + tail + 1)) :: homeWrites src (tail + 1) bs

theorem mem_logWrites {src : ℕ → Block} {tail : ℕ} {w : ℕ × Block}
    (h : w ∈ logWrites L src tail bs) :
    L.start + tail + 1 ≤ w.1 ∧ w.1 < L.start + tail + 1 + bs.length := by
  induction bs generalizing tail with
  | nil => simp [logWrites] at h
  | cons b bs ih =>
    rcases mem_cons.1 h with rfl | h
    · simp
    · have := ih h
      simp only [length_cons]
      omega

variable (src : ℕ → Block) (tail : ℕ)

theorem length_logWrites (bs : List ℕ) : (logWrites L src tail bs).length = bs.length := by
  induction bs generalizing tail with
  | nil => rfl
  | cons b bs ih => rw [logWrites, length_cons, ih, length_cons]

theorem logWrites_congr {src src' : ℕ → Block} {tail : ℕ}
    (h : ∀ b ∈ bs, src b = src' b) : logWrites L src tail bs = logWrites L src' tail bs := by
  induction bs generalizing tail with
  | nil => rfl
  | cons b bs ih =>
    rw [logWrites, logWrites, h b mem_cons_self, ih fun x hx => h x (mem_cons_of_mem _ hx)]

theorem map_fst_homeWrites (bs : List ℕ) : (homeWrites L src tail bs).map Prod.fst = bs := by
  induction bs generalizing tail with
  | nil => rfl
  | cons b bs ih => rw [homeWrites, map_cons, ih]

theorem mem_homeWrites {i : ℕ} (hi : i < bs.length) :
    (bs[i], src (L.start + (tail + i) + 1)) ∈ homeWrites L src tail bs := by
  induction bs generalizing tail i with
  | nil => simp at hi
  | cons b bs ih =>
    cases i with
    | zero => exact mem_cons_self
    | succ i =>
      rw [homeWrites, ← add_assoc tail i 1, add_right_comm tail i 1]
      exact mem_cons_of_mem _ (ih (tail + 1) (by simpa using hi))

theorem homeWrites_congr {src src' : ℕ → Block} {tail : ℕ}
    (h : ∀ i, i < bs.length → src (L.start + (tail + i) + 1) = src' (L.start + (tail + i) + 1)) :
    homeWrites L src tail bs = homeWrites L src' tail bs := by
  induction bs generalizing tail with
  | nil => rfl
  | cons b bs ih =>
    have h0 : src (L.start + tail + 1) = src' (L.start + tail + 1) := h 0 (by simp)
    rw [homeWrites, homeWrites, h0, ih]
    intro i hi
    rw [add_right_comm tail 1 i, add_assoc tail i 1]
    exact h (i + 1) (by simpa using hi)

theorem apply_logWrites (d : ℕ → Block) {tail : ℕ} {i : ℕ} (hi : i < bs.length) :
    WriteSeq.apply (logWrites L src tail bs) d (L.start + (tail + i) + 1) = src bs[i] := by
  induction bs generalizing tail i d with
  | nil => simp at hi
  | cons b bs ih =>
    cases i with
    | zero =>
      rw [logWrites, WriteSeq.apply_cons, WriteSeq.apply_of_notMem]
      · simp
      · rintro hm
        obtain ⟨w, hw, he⟩ := mem_map.1 hm
        have := mem_logWrites L hw
        omega
    | succ i =>
      rw [logWrites, WriteSeq.apply_cons, ← add_assoc tail i 1, add_right_comm tail i 1,
        ih _ (by simpa using hi)]
      rfl

theorem writeLog_issues {tail : ℕ} {d : Dev} (hout : ∀ b ∈ bs, ¬ L.Mem b)
    (hfit : tail + bs.length < L.size) :
    Dev.Issues d (writeLog L tail bs d) (logWrites L d.bread tail bs) := by
  induction bs generalizing tail d with
  | nil => exact .refl d
  | cons b bs ih =>
    simp only [length_cons] at hfit
    have hrest := @ih (tail + 1) (d.bwrite (L.start + tail + 1) (d.bread b))
      (fun x hx => hout x (mem_cons_of_mem _ hx)) (by omega)
    -- the block just written is a log block, and the home blocks are not
    have hsame : logWrites L (d.bwrite (L.start + tail + 1) (d.bread b)).bread (tail + 1) bs =
        logWrites L d.bread (tail + 1) bs := by
      apply logWrites_congr
      intro x hx
      rw [Dev.bread_bwrite, update_of_ne]
      rintro rfl
      exact hout _ (mem_cons_of_mem _ hx) ⟨by omega, by omega⟩
    rw [hsame] at hrest
    exact (d.issues_bwrite _ _).trans hrest

theorem writeHead_issues (lh : List ℕ) (d : Dev) :
    Dev.Issues d (writeHead L lh d) [(L.start, putHead (d.bread L.start) lh)] :=
  d.issues_bwrite _ _

theorem installTrans_issues {tail : ℕ} {d : Dev} (hout : ∀ b ∈ bs, ¬ L.Mem b)
    (hfit : tail + bs.length < L.size) :
    Dev.Issues d (installTrans L tail bs d) (homeWrites L d.bread tail bs) := by
  induction bs generalizing tail d with
  | nil => exact .refl d
  | cons b bs ih =>
    simp only [length_cons] at hfit
    have hrest := @ih (tail + 1) (d.bwrite b (d.bread (L.start + tail + 1)))
      (fun x hx => hout x (mem_cons_of_mem _ hx)) (by omega)
    have hsame : homeWrites L (d.bwrite b (d.bread (L.start + tail + 1))).bread (tail + 1) bs =
        homeWrites L d.bread (tail + 1) bs := by
      apply homeWrites_congr
      intro i hi
      rw [Dev.bread_bwrite, update_of_ne]
      rintro rfl
      exact hout _ mem_cons_self ⟨by omega, by omega⟩
    rw [hsame] at hrest
    exact (d.issues_bwrite _ _).trans hrest

end Log

end Xv6
