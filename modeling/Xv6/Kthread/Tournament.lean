import Mathlib.Algebra.Order.Ring.Int
import Mathlib.Tactic.Positivity
import Mathlib.Tactic.Ring

/-!
# Tournament trees

`trnmnt_tree_acquire` and `trnmnt_tree_release` of `tournament_tree.c`, for one thread, over mutexes
that behave as their calls promise.  A call returns if it does so after some number of rounds.
Acquire rejects every positive ID, and release starts from node ID and not from leaf `2^depth - 1 +
ID`.
-/

namespace Xv6.Kthread

open Function

def power (b : ℤ) : ℕ → ℤ
  | 0 => 1
  | pwr + 1 => power b pwr * b

theorem power_eq (b : ℤ) (pwr : ℕ) : power b pwr = b ^ pwr := by
  induction pwr with
  | zero => rw [power, pow_zero]
  | succ n ih => rw [power, ih, pow_succ]

/-- Mutexes by their ids: which are allocated, and which are locked. -/
structure Mutexes where
  live : ℤ → Bool
  locked : ℤ → Bool

namespace Mutexes

/-- Lock a mutex; `none` if the caller has to wait. -/
def lock (m : Mutexes) (id : ℤ) : Option (ℤ × Mutexes) :=
  if m.live id = false then some (-1, m)
  else if m.locked id then none
  else some (0, { m with locked := update m.locked id true })

/-- Unlock a mutex; only one that is locked can be. -/
def unlock (m : Mutexes) (id : ℤ) : ℤ × Mutexes :=
  if m.live id && m.locked id then (0, { m with locked := update m.locked id false })
  else (-1, m)

end Mutexes

/-- A `trnmnt_tree` whose node mutexes are distinct.  `nodes` is the memory at the pointer. -/
structure TrnmntTree where
  nodes : ℤ → ℤ
  depth : ℕ
  nodesNum : ℤ
  one_le_depth : 1 ≤ depth
  nodesNum_eq : nodesNum = power 2 depth
  inj : ∀ i j, 0 ≤ i → i < nodesNum → 0 ≤ j → j < nodesNum → nodes i = nodes j → i = j

/-- The loop of `trnmnt_tree_acquire`. -/
def acquireFrom (tree : TrnmntTree) : ℕ → ℤ → Mutexes → Option (ℤ × Mutexes)
  | 0, _, _ => none
  | n + 1, current, m =>
    if current = 0 then some (0, m)
    else
      let father := (current - 1).tdiv 2
      match m.lock (tree.nodes father) with
      | none => none
      | some (r, m') => if r < 0 then some (-1, m') else acquireFrom tree n father m'

/-- `trnmnt_tree_acquire`, for at most `n` rounds. -/
def trnmntTreeAcquire (tree : TrnmntTree) (n : ℕ) (ID : ℤ) (m : Mutexes) : Option (ℤ × Mutexes) :=
  if ID > 0 ∨ ID > tree.nodesNum then some (-1, m)
  else acquireFrom tree n (tree.nodesNum - 1 + ID) m

/-- `rec_trnmnt_tree_release`, to depth `n` of the recursion: the error flag and the mutexes. -/
def recTrnmntTreeRelease (tree : TrnmntTree) : ℕ → ℤ → Mutexes → Option (ℤ × Mutexes)
  | 0, _, _ => none
  | n + 1, ID, m =>
    let father := (ID - 1).tdiv 2
    if ID = 0 then
      let (r, m') := m.unlock (tree.nodes ID)
      some (if r < 0 then 1 else 0, m')
    else
      match recTrnmntTreeRelease tree n father m with
      | none => none
      | some (error, m') =>
        let (r, m'') := m'.unlock (tree.nodes ID)
        some (if r < 0 then 1 else error, m'')

def trnmntTreeRelease (tree : TrnmntTree) (n : ℕ) (ID : ℤ) (m : Mutexes) : Option (ℤ × Mutexes) :=
  (recTrnmntTreeRelease tree n ID m).map fun (error, m') => (if error > 0 then -1 else 0, m')

/-! ## What the interface says -/

/-- The nodes above node `v`, from its father to the root. -/
def path : ℕ → List ℕ
  | 0 => []
  | v + 1 => v / 2 :: path (v / 2)

theorem length_path_leaf {d i : ℕ} (h : i < 2 ^ d) : (path (2 ^ d - 1 + i)).length = d := by
  induction d generalizing i with
  | zero =>
    obtain rfl : i = 0 := by omega
    show (path 0).length = 0
    rw [path]
    rfl
  | succ d ih =>
    have hpos := Nat.two_pow_pos d
    have hfather : (2 ^ d - 1) * 2 + i + 1 = 2 ^ (d + 1) - 1 + i := by
      rw [pow_succ]
      omega
    have hhalf : ((2 ^ d - 1) * 2 + i) / 2 = 2 ^ d - 1 + i / 2 := by omega
    rw [pow_succ] at h
    rw [← hfather, path, List.length_cons, hhalf, ih (by omega)]

/-- Every node mutex is allocated and free. -/
structure Mutexes.Fresh (m : Mutexes) (tree : TrnmntTree) : Prop where
  live : ∀ i, 0 ≤ i → i < tree.nodesNum → m.live (tree.nodes i)
  free : ∀ i, 0 ≤ i → i < tree.nodesNum → m.locked (tree.nodes i) = false

/-- For the ID of a leaf, acquire locks the nodes above the leaf, `depth` of them, and release
unlocks them.  For any other ID acquire fails and locks nothing. -/
def Inverse (tree : TrnmntTree) (ID : ℤ) : Prop :=
  ∀ m : Mutexes, m.Fresh tree →
    if 0 ≤ ID ∧ ID ≤ 2 ^ tree.depth - 1 then
      let above := path (2 ^ tree.depth - 1 + ID.toNat)
      ∃ n m', trnmntTreeAcquire tree n ID m = some (0, m') ∧ above.length = tree.depth ∧
        (∀ x, m'.locked x ↔ m.locked x ∨ ∃ v ∈ above, tree.nodes v = x) ∧
        ∃ n', trnmntTreeRelease tree n' ID m' = some (0, m)
    else ∃ n, trnmntTreeAcquire tree n ID m = some (-1, m)

/-! ## What the code does -/

variable {tree : TrnmntTree} {m : Mutexes}

theorem tdiv_father (v : ℕ) : ((v + 1 : ℕ) - 1 : ℤ).tdiv 2 = (v / 2 : ℕ) := by
  rw [show ((v + 1 : ℕ) - 1 : ℤ) = (v : ℤ) by push_cast; ring,
    Int.tdiv_eq_ediv_of_nonneg (by omega)]
  rfl

theorem acquireFrom_succ {n v : ℕ} (hlive : m.live (tree.nodes (v / 2 : ℕ))) :
    acquireFrom tree (n + 1) (v + 1 : ℕ) m = if m.locked (tree.nodes (v / 2 : ℕ)) then none
      else acquireFrom tree n (v / 2 : ℕ)
        { m with locked := update m.locked (tree.nodes (v / 2 : ℕ)) true } := by
  rw [acquireFrom, if_neg (by omega), tdiv_father]
  simp only [Mutexes.lock, hlive]
  by_cases hlocked : m.locked (tree.nodes (v / 2 : ℕ))
  · simp only [hlocked, if_true, reduceCtorEq, if_false]
  · simp only [hlocked, reduceCtorEq, if_false, Int.reduceLT]

theorem acquireFrom_ne_fail (hlive : ∀ i, 0 ≤ i → i < tree.nodesNum → m.live (tree.nodes i)) (n : ℕ)
    {v : ℕ} (hv : (v : ℤ) < tree.nodesNum) {m' : Mutexes} :
    acquireFrom tree n v m ≠ some (-1, m') := by
  induction n generalizing v m with
  | zero => exact fun h => nomatch h
  | succ n ih =>
    cases v with
    | zero => simp [acquireFrom]
    | succ v =>
      have hlt : ((v / 2 : ℕ) : ℤ) < tree.nodesNum := by omega
      rw [acquireFrom_succ (hlive _ (Int.natCast_nonneg _) hlt)]
      split_ifs
      · exact fun h => nomatch h
      · refine ih ?_ hlt
        exact hlive

theorem acquireFrom_path {v : ℕ} (hv : (v : ℤ) < tree.nodesNum)
    (hfresh : ∀ i, 0 ≤ i → i < tree.nodesNum → m.live (tree.nodes i) ∧
    (i < v → m.locked (tree.nodes i) = false)) : ∃ n m', acquireFrom tree n v m = some (0, m') ∧
    m'.live = m.live ∧ ∀ x, m'.locked x ↔ m.locked x ∨ ∃ u ∈ path v, tree.nodes u = x := by
  induction v using Nat.strong_induction_on generalizing m with
  | _ v ih =>
    cases v with
    | zero => exact ⟨1, m, rfl, rfl, fun x => by simp [path]⟩
    | succ v =>
      have hlt : ((v / 2 : ℕ) : ℤ) < tree.nodesNum := by omega
      obtain ⟨hlive, hfree⟩ := hfresh _ (Int.natCast_nonneg _) hlt
      have hfree := hfree (by omega)
      -- the father is locked first; the nodes above it have smaller numbers, and other mutexes
      obtain ⟨n, m', hm', hlive', hlocked'⟩ := @ih (v / 2) (by omega)
        { m with locked := update m.locked (tree.nodes (v / 2 : ℕ)) true } hlt
        fun i h0 hi => ⟨(hfresh i h0 hi).1, fun hiv => by
          have hne : tree.nodes i ≠ tree.nodes (v / 2 : ℕ) := fun h => by
            have := tree.inj i _ h0 hi (Int.natCast_nonneg _) hlt h
            omega
          exact (update_of_ne hne _ _).trans ((hfresh i h0 hi).2 (by omega))⟩
      refine ⟨n + 1, m', ?_, hlive', fun x => ?_⟩
      · rw [acquireFrom_succ hlive, if_neg (by rw [hfree]; decide)]
        exact hm'
      · rw [hlocked', path]
        simp only [List.mem_cons, exists_eq_or_imp]
        by_cases hx : tree.nodes (v / 2 : ℕ) = x
        · simp only [← hx, update_self, true_or, or_true]
        · simp only [update_of_ne (Ne.symm hx), hx, false_or]

theorem two_le_nodesNum (tree : TrnmntTree) : 2 ≤ tree.nodesNum := by
  obtain ⟨d, hd⟩ := Nat.exists_eq_add_of_le' tree.one_le_depth
  have : (0 : ℤ) < 2 ^ d := by positivity
  rw [tree.nodesNum_eq, power_eq, hd, pow_succ]
  omega

theorem trnmntTreeRelease_zero {n : ℕ} {m' : Mutexes} {r : ℤ}
    (h : trnmntTreeRelease tree n 0 m = some (r, m')) : m' = (m.unlock (tree.nodes 0)).2 := by
  cases n with
  | zero => simp [trnmntTreeRelease, recTrnmntTreeRelease] at h
  | succ n =>
    simp only [trnmntTreeRelease, recTrnmntTreeRelease, if_pos, Option.map_some, Option.some.injEq,
      Prod.mk.injEq] at h
    exact h.2.symm

theorem inverse_zero (hd : tree.depth = 1) : Inverse tree 0 := by
  intro m hm
  have hnum : tree.nodesNum = 2 := by rw [tree.nodesNum_eq, hd]; rfl
  rw [if_pos (by rw [hd]; omega)]
  have hone : ((1 : ℕ) : ℤ) < tree.nodesNum := by omega
  obtain ⟨n, m', hm', hlive, hlocked⟩ := acquireFrom_path hone
    fun i h0 hi => ⟨hm.live i h0 hi, fun _ => hm.free i h0 hi⟩
  have hroot : path 1 = [0] := by rw [path, Nat.zero_div, path]
  rw [hd]
  refine ⟨n, m', ?_, length_path_leaf (d := 1) (i := 0) (by omega), hlocked, 1, ?_⟩
  · simpa [trnmntTreeAcquire, hnum] using hm'
  · rw [hroot] at hlocked
    have hroot' : m'.locked (tree.nodes 0) := (hlocked _).2 (.inr ⟨0, by simp, rfl⟩)
    have hliveRoot : m'.live (tree.nodes 0) := by rw [hlive]; exact hm.live 0 le_rfl (by omega)
    have hback : update m'.locked (tree.nodes 0) false = m.locked := by
      funext x
      by_cases hx : x = tree.nodes 0
      · rw [hx, update_self, hm.free 0 le_rfl (by omega)]
      · rw [update_of_ne hx, Bool.eq_iff_iff, hlocked]
        simp [Ne.symm hx]
    simp [trnmntTreeRelease, recTrnmntTreeRelease, Mutexes.unlock, hroot', hliveRoot, hback, hlive]

theorem not_inverse_zero (hd : 2 ≤ tree.depth) (hm : m.Fresh tree) : ¬ Inverse tree 0 := by
  intro h
  obtain ⟨d, hd⟩ := Nat.exists_eq_add_of_le' hd
  have hpow := Nat.two_pow_pos d
  have hnum : tree.nodesNum = 2 ^ d * 4 := by
    rw [tree.nodesNum_eq, power_eq, hd, pow_add]
    rfl
  have hnum' : (tree.nodesNum : ℤ) = ((2 ^ d * 4 : ℕ) : ℤ) := by rw [hnum]; push_cast; ring
  have h := h m hm
  have hone : (1 : ℤ) ≤ 2 ^ tree.depth := one_le_pow₀ (by omega)
  rw [if_pos ⟨le_rfl, by omega⟩] at h
  obtain ⟨n, m', -, -, hlocked, n', hrel⟩ := h
  have hpow2 : 2 ^ tree.depth - 1 + (0 : ℤ).toNat = (2 ^ d * 4 - 2) + 1 := by
    rw [hd, pow_add, Int.toNat_zero]
    omega
  -- the father is not the root
  have hmem : (2 ^ d * 4 - 2) / 2 ∈ path (2 ^ tree.depth - 1 + (0 : ℤ).toNat) := by
    rw [hpow2, path]
    exact List.mem_cons_self
  have hfather : m'.locked (tree.nodes ((2 ^ d * 4 - 2) / 2 : ℕ)) :=
    (hlocked _).2 (.inr ⟨_, hmem, rfl⟩)
  have hne : tree.nodes ((2 ^ d * 4 - 2) / 2 : ℕ) ≠ tree.nodes 0 := fun heq => by
    have := tree.inj _ 0 (Int.natCast_nonneg _) (by omega) le_rfl (by omega) heq
    omega
  have hfree := hm.free ((2 ^ d * 4 - 2) / 2 : ℕ) (Int.natCast_nonneg _) (by omega)
  rw [trnmntTreeRelease_zero hrel, Mutexes.unlock] at hfree
  split_ifs at hfree
  · dsimp only at hfree
    rw [update_of_ne hne, hfather] at hfree
    cases hfree
  · rw [hfather] at hfree
    cases hfree

/-- From an ID below `-(2^depth - 1)` the first mutex is read in front of the array. -/
theorem acquire_below (tree : TrnmntTree) {ID : ℤ} (hID : ID < -(tree.nodesNum - 1)) :
    ∃ father < 0, ∀ n m, trnmntTreeAcquire tree (n + 1) ID m =
      (m.lock (tree.nodes father)).bind fun r =>
        if r.1 < 0 then some (-1, r.2) else acquireFrom tree n father r.2 := by
  have htwo := two_le_nodesNum tree
  refine ⟨(tree.nodesNum - 1 + ID - 1).tdiv 2, ?_, fun n m => ?_⟩
  · rw [← neg_neg (tree.nodesNum - 1 + ID - 1), Int.neg_tdiv, Int.tdiv_eq_ediv_of_nonneg (by omega)]
    omega
  · rw [trnmntTreeAcquire, if_neg (by omega), acquireFrom, if_neg (by omega)]
    dsimp only
    cases m.lock (tree.nodes ((tree.nodesNum - 1 + ID - 1).tdiv 2)) <;> rfl

theorem inverse_iff_of_le (tree : TrnmntTree) {ID : ℤ} (hID : -(tree.nodesNum - 1) ≤ ID)
    (hfresh : m.Fresh tree) : Inverse tree ID ↔ (tree.depth = 1 ∧ ID = 0) ∨ tree.nodesNum ≤ ID := by
  have hnum : tree.nodesNum = 2 ^ tree.depth := by rw [tree.nodesNum_eq, power_eq]
  have htwo := two_le_nodesNum tree
  rcases lt_trichotomy ID 0 with hneg | rfl | hpos
  · -- a negative ID is taken for an inner node
    refine iff_of_false (fun h => ?_) (by omega)
    have h := h m hfresh
    rw [if_neg (by omega)] at h
    obtain ⟨n, hn⟩ := h
    obtain ⟨v, hv⟩ := Int.eq_ofNat_of_zero_le (show 0 ≤ tree.nodesNum - 1 + ID by omega)
    rw [trnmntTreeAcquire, if_neg (by omega), hv] at hn
    exact acquireFrom_ne_fail hfresh.live n (by omega) hn
  · by_cases hd : tree.depth = 1
    · exact iff_of_true (inverse_zero hd) (.inl ⟨hd, rfl⟩)
    · have := tree.one_le_depth
      exact iff_of_false (not_inverse_zero (by omega) hfresh) (by omega)
  · -- a positive ID is rejected
    have hreject : ∀ n m, trnmntTreeAcquire tree n ID m = some (-1, m) := fun n m => by
      rw [trnmntTreeAcquire, if_pos (.inl hpos)]
    by_cases hleaf : ID ≤ 2 ^ tree.depth - 1
    · refine iff_of_false (fun h => ?_) (by omega)
      have h := h m hfresh
      rw [if_pos ⟨by omega, hleaf⟩] at h
      obtain ⟨n, m', hn, -⟩ := h
      simp [hreject] at hn
    · refine iff_of_true (fun m _ => ?_) (.inr (by omega))
      rw [if_neg (by omega)]
      exact ⟨0, hreject 0 m⟩

/-- Acquire and release are inverse as their interface says exactly for ID 0 at depth 1 and for the
IDs past the last leaf.  For an ID below `-(2^depth - 1)` acquire leaves the array: it takes for a
mutex what is in front of it. -/
theorem inverse_iff (tree : TrnmntTree) (ID : ℤ) (hfresh : m.Fresh tree) :
    (-(tree.nodesNum - 1) ≤ ID →
      (Inverse tree ID ↔ (tree.depth = 1 ∧ ID = 0) ∨ tree.nodesNum ≤ ID)) ∧
    (ID < -(tree.nodesNum - 1) → ∃ father < 0, ∀ n m, trnmntTreeAcquire tree (n + 1) ID m =
      (m.lock (tree.nodes father)).bind fun r =>
        if r.1 < 0 then some (-1, r.2) else acquireFrom tree n father r.2) :=
  ⟨fun hID => inverse_iff_of_le tree hID hfresh, acquire_below tree⟩

/-- A tree of depth `d` with mutexes `1 .. 2^d`. -/
def countedTree (d : ℕ) (hd : 1 ≤ d) : TrnmntTree where
  nodes i := i + 1
  depth := d
  nodesNum := power 2 d
  one_le_depth := hd
  nodesNum_eq := rfl
  inj _ _ _ _ _ _ h := by omega

def allFree : Mutexes := ⟨fun _ => true, fun _ => false⟩

theorem inverse_iff_depth_one : allFree.Fresh (countedTree 1 le_rfl) ∧
    Inverse (countedTree 1 le_rfl) 0 ∧ Inverse (countedTree 1 le_rfl) 2 := by
  have hfresh : allFree.Fresh (countedTree 1 le_rfl) := ⟨fun _ _ _ => rfl, fun _ _ _ => rfl⟩
  exact ⟨hfresh, ((inverse_iff (countedTree 1 le_rfl) 0 hfresh).1 (by decide)).2 (.inl ⟨rfl, rfl⟩),
    ((inverse_iff (countedTree 1 le_rfl) 2 hfresh).1 (by decide)).2 (.inr (by decide))⟩

/-- At depth 3 acquire fails for ID 7; for ID 0 it locks nodes 3, 1 and 0 and release unlocks only
node 0; for ID -1 it succeeds. -/
theorem acquire_release_not_inverse :
    ((trnmntTreeAcquire (countedTree 3 (by decide)) 8 7 allFree).any fun r => r.1 == -1) ∧
    ((trnmntTreeAcquire (countedTree 3 (by decide)) 8 0 allFree).any fun r =>
      r.1 == 0 && r.2.locked 4 && r.2.locked 2 && r.2.locked 1 &&
        (trnmntTreeRelease (countedTree 3 (by decide)) 8 0 r.2).any fun r' =>
          r'.1 == 0 && r'.2.locked 4 && r'.2.locked 2 && !r'.2.locked 1) ∧
    ((trnmntTreeAcquire (countedTree 3 (by decide)) 8 (-1) allFree).any fun r => r.1 == 0) := by
  decide

end Xv6.Kthread
