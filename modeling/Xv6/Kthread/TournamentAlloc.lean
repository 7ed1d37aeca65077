import Xv6.Kthread.Mutex
import Xv6.Kthread.Tournament
import Mathlib.Data.Int.ConditionallyCompleteOrder

/-!
# Allocation of tournament trees

`trnmnt_tree_alloc` and `trnmnt_tree_dealloc` of `tournament_tree.c`, over any correct allocator of
the ids `1 .. MAX_MUTEXES`.  The memory of the tree and of its array is taken as given: neither
result of `malloc` is tested in the source.

`power` is computed in 32 bits.  Dealloc passes `tree->nodes[i] < 0` for the id, which is 0, so it
gives up at the first node.
-/

namespace Xv6.Kthread

open Function Finset

/-- `power` in `int`. -/
def power32 (b : ℤ) : ℕ → ℤ
  | 0 => 1
  | pwr + 1 => (power32 b pwr * b).bmod (2 ^ 32)

theorem power32_eq (b : ℤ) (pwr : ℕ) : power32 b pwr = (power b pwr).bmod (2 ^ 32) := by
  induction pwr with
  | zero => rfl
  | succ n ih => rw [power32, ih, power, Int.bmod_mul_bmod]

theorem power32_two_of_le {depth : ℕ} (h : depth ≤ 30) : power32 2 depth = 2 ^ depth := by
  have hle : (2 ^ depth : ℤ) ≤ 2 ^ 30 := pow_le_pow_right₀ (by decide) h
  have hpos : (0 : ℤ) < 2 ^ depth := by positivity
  rw [power32_eq, power_eq]
  exact Int.bmod_eq_of_le (by omega) (by omega)

theorem power32_two_of_lt {depth : ℕ} (h : 30 < depth) : power32 2 depth ≤ 0 := by
  obtain ⟨n, rfl⟩ := Nat.exists_eq_add_of_le' (show 31 ≤ depth from h)
  rw [power32_eq, power_eq]
  cases n with
  | zero => decide
  | succ n =>
    have hdvd : (2 ^ (n + 1 + 31) : ℤ) = 2 ^ n * (2 ^ 32 : ℕ) := by
      push_cast
      ring
    rw [hdvd, Int.mul_bmod_left]

namespace Mutexes

def free (m : Mutexes) : Finset ℤ :=
  ((range MAX_MUTEXES).image fun k : ℕ => (k : ℤ) + 1).filter fun id => m.live id = false

def add (m : Mutexes) (id : ℤ) : Mutexes :=
  ⟨update m.live id true, update m.locked id false⟩

def dealloc (m : Mutexes) (id : ℤ) : ℤ × Mutexes :=
  if m.live id = false ∨ m.locked id then (-1, m)
  else (0, { m with live := update m.live id false })

variable {m : Mutexes} {id : ℤ}

theorem mem_free : id ∈ m.free ↔ (1 ≤ id ∧ id ≤ MAX_MUTEXES) ∧ m.live id = false := by
  rw [free, mem_filter, mem_image]
  refine and_congr_left fun _ => ⟨?_, fun ⟨hlo, hhi⟩ => ⟨(id - 1).toNat, ?_, ?_⟩⟩
  · rintro ⟨k, hk, rfl⟩
    rw [mem_range] at hk
    omega
  · rw [mem_range]
    omega
  · omega

theorem free_add : (m.add id).free = m.free.erase id := by
  ext x
  rw [mem_erase, mem_free, mem_free, add]
  by_cases hx : x = id
  · simp [hx]
  · simp [hx]

end Mutexes

/-- An allocator of mutex ids, as a choice among the ids that are not allocated. -/
structure IdAllocator where
  pick : Mutexes → ℤ
  pick_mem : ∀ m : Mutexes, m.free.Nonempty → pick m ∈ m.free

/-- `kthread_mutex_alloc` of a correct allocator. -/
def IdAllocator.alloc (A : IdAllocator) (m : Mutexes) : ℤ × Mutexes :=
  if m.free = ∅ then (-1, m) else (A.pick m, m.add (A.pick m))

structure TreeFields where
  nodes : ℤ → ℤ
  depth : ℤ
  nodesNum : ℤ

/-- The loop of `trnmnt_tree_alloc` from index `i`, for `n` more nodes. -/
def allocNodes (A : IdAllocator) : ℕ → ℤ → (ℤ → ℤ) → Mutexes → Option (ℤ → ℤ) × Mutexes
  | 0, _, nodes, m => (some nodes, m)
  | n + 1, i, nodes, m =>
    let (mutexId, m') := A.alloc m
    if mutexId < 0 then (none, m')
    else allocNodes A n (i + 1) (update nodes i mutexId) m'

/-- `trnmnt_tree_alloc`; `heap` is what the memory of the array holds before. -/
def trnmntTreeAlloc (A : IdAllocator) (heap : ℤ → ℤ) (depth : ℤ) (m : Mutexes) :
    Option TreeFields × Mutexes :=
  if depth < 1 then (none, m)
  else
    let nodesNum := power32 2 depth.toNat
    match allocNodes A nodesNum.toNat 0 heap m with
    | (none, m') => (none, m')
    | (some nodes, m') => (some ⟨nodes, depth, nodesNum⟩, m')

/-- The loop of `trnmnt_tree_dealloc`. -/
def deallocNodes (nodes : ℤ → ℤ) : ℕ → ℤ → Mutexes → ℤ × Mutexes
  | 0, _, m => (0, m)
  | n + 1, i, m =>
    -- the comparison stands inside the call
    let (r, m') := m.dealloc (if nodes i < 0 then 1 else 0)
    if r ≠ 0 then (-1, m') else deallocNodes nodes n (i + 1) m'

/-- `trnmnt_tree_dealloc`: what it returns, the fields of the tree, and the mutexes. -/
def trnmntTreeDealloc (tree : TreeFields) (m : Mutexes) : ℤ × TreeFields × Mutexes :=
  match deallocNodes tree.nodes tree.nodesNum.toNat 0 m with
  | (0, m') => (0, ⟨tree.nodes, 0, 0⟩, m')
  | (_, m') => (-1, tree, m')

/-! ## What the interface says -/

def TreeFields.range (tree : TreeFields) : Set ℤ := Set.Ico 0 tree.nodesNum

/-- A tree with `2 ^ depth` distinct nodes, which are the mutexes that are allocated in `m'` and not
in `m`. -/
structure NewTree (depth : ℤ) (m : Mutexes) (tree : TreeFields) (m' : Mutexes) : Prop where
  nodesNum : tree.nodesNum = 2 ^ depth.toNat
  inj : Set.InjOn tree.nodes tree.range
  new : ∀ i ∈ tree.range, m.live (tree.nodes i) = false
  live : ∀ id, m'.live id ↔ m.live id ∨ id ∈ tree.nodes '' tree.range

/-- Alloc fails and leaves the allocated mutexes as they are, or returns a tree of new ones. -/
def AllOrNothing (depth : ℤ) (m : Mutexes) (r : Option TreeFields × Mutexes) : Prop :=
  match r with
  | (none, m') => m'.live = m.live
  | (some tree, m') => NewTree depth m tree m'

/-- With no node locked dealloc returns 0, and what was allocated before alloc, in `m`, is
allocated; with a node locked it returns -1, and the tree has its nodes and they are allocated. -/
def Undoes (m : Mutexes) (tree : TreeFields) (m' : Mutexes) : Prop :=
  let (r, tree', m'') := trnmntTreeDealloc tree m'
  ((∀ i ∈ tree.range, m'.locked (tree.nodes i) = false) → r = 0 ∧ m''.live = m.live) ∧
  ((∃ i ∈ tree.range, m'.locked (tree.nodes i)) → r = -1 ∧ tree' = tree ∧
    ∀ i ∈ tree.range, m''.live (tree.nodes i))

/-! ## What the code does -/

variable {A : IdAllocator} {m m' : Mutexes} {heap : ℤ → ℤ} {depth : ℤ}

theorem IdAllocator.alloc_cases (A : IdAllocator) (m : Mutexes) :
    (m.free = ∅ ∧ A.alloc m = (-1, m)) ∨ ∃ id ∈ m.free, A.alloc m = (id, m.add id) := by
  by_cases h : m.free = ∅
  · exact .inl ⟨h, if_pos h⟩
  · exact .inr ⟨A.pick m, A.pick_mem m (nonempty_iff_ne_empty.2 h), if_neg h⟩

theorem allocNodes_fails {n : ℕ} (hn : m.free.card < n) (i : ℤ) (nodes : ℤ → ℤ) :
    ∃ m', allocNodes A n i nodes m = (none, m') ∧ ∀ id, m'.live id ↔ m.live id ∨ id ∈ m.free := by
  induction n generalizing m i nodes with
  | zero => omega
  | succ n ih =>
    obtain ⟨hempty, heq⟩ | ⟨id, hid, heq⟩ := A.alloc_cases m
    · refine ⟨m, ?_, fun id => by simp [hempty]⟩
      simp only [allocNodes, heq]
      rfl
    · have hpos := (Mutexes.mem_free.1 hid).1.1
      obtain ⟨m', hrun, hlive⟩ := @ih (m.add id) (by
        have := card_pos.2 ⟨id, hid⟩
        rw [Mutexes.free_add, card_erase_of_mem hid]
        omega) (i + 1) (update nodes i id)
      refine ⟨m', ?_, fun x => ?_⟩
      · simp only [allocNodes, heq, if_neg (show ¬ id < 0 by omega)]
        exact hrun
      · rw [hlive, Mutexes.free_add, mem_erase]
        by_cases hx : x = id
        · simp [hx, hid, Mutexes.add]
        · simp [hx, Mutexes.add]

theorem allocNodes_fills {n : ℕ} (hn : n ≤ m.free.card) (i : ℤ) (nodes : ℤ → ℤ) :
    ∃ nodes' m', allocNodes A n i nodes m = (some nodes', m') ∧ (∀ j < i, nodes' j = nodes j) ∧
      Set.InjOn nodes' (Set.Ico i (i + n)) ∧ (∀ j ∈ Set.Ico i (i + n), nodes' j ∈ m.free) ∧
      ∀ id, m'.live id ↔ m.live id ∨ id ∈ nodes' '' Set.Ico i (i + n) := by
  induction n generalizing m i nodes with
  | zero => exact ⟨nodes, m, rfl, fun _ _ => rfl, by simp, by simp, by simp⟩
  | succ n ih =>
    obtain ⟨hempty, -⟩ | ⟨id, hid, heq⟩ := A.alloc_cases m
    · rw [hempty, card_empty] at hn
      omega
    have hpos := (Mutexes.mem_free.1 hid).1.1
    obtain ⟨nodes', m', hrun, hbelow, hinj, hfree, hlive⟩ := @ih (m.add id) (by
      rw [Mutexes.free_add, card_erase_of_mem hid]
      omega) (i + 1) (update nodes i id)
    have hi : nodes' i = id := by rw [hbelow i (by omega), update_self]
    -- the range is its first index and the range of the rest of the loop
    have hrange : Set.Ico i (i + (n + 1 : ℕ)) = insert i (Set.Ico (i + 1) (i + 1 + n)) := by
      ext j
      simp only [Set.mem_insert_iff, Set.mem_Ico]
      omega
    have hrest : ∀ j ∈ Set.Ico (i + 1) (i + 1 + n), nodes' j ∈ m.free ∧ nodes' j ≠ id :=
      fun j hj => by
      have := hfree j hj
      rw [Mutexes.free_add, mem_erase] at this
      exact this.symm
    refine ⟨nodes', m', ?_, fun j hj => ?_, ?_, fun j hj => ?_, fun x => ?_⟩
    · simp only [allocNodes, heq, if_neg (show ¬ id < 0 by omega)]
      exact hrun
    · rw [hbelow j (by omega), update_of_ne (by omega)]
    · rw [hrange, Set.injOn_insert (by simp), hi]
      refine ⟨hinj, ?_⟩
      rintro ⟨j, hj, heq⟩
      exact (hrest j hj).2 heq
    · rw [hrange] at hj
      obtain rfl | hj := hj
      · rwa [hi]
      · exact (hrest j hj).1
    · rw [hlive, hrange, Set.image_insert_eq, hi, Set.mem_insert_iff]
      by_cases hx : x = id
      · simp [hx, Mutexes.add]
      · simp [hx, Mutexes.add]

theorem trnmntTreeDealloc_eq {tree : TreeFields} (hzero : m.live 0 = false)
    (hnum : 0 < tree.nodesNum) (hnode : 0 ≤ tree.nodes 0) :
    trnmntTreeDealloc tree m = (-1, tree, m) := by
  obtain ⟨n, hn⟩ := Nat.exists_eq_succ_of_ne_zero (show tree.nodesNum.toNat ≠ 0 by omega)
  have hrun : deallocNodes tree.nodes tree.nodesNum.toNat 0 m = (-1, m) := by
    rw [hn, deallocNodes, if_neg (show ¬ tree.nodes 0 < 0 by omega), Mutexes.dealloc,
      if_pos (.inl hzero)]
    rfl
  simp only [trnmntTreeDealloc, hrun]

theorem trnmntTreeAlloc_cases (A : IdAllocator) (heap : ℤ → ℤ) (m : Mutexes) (hdepth : 1 ≤ depth)
    (hle : depth ≤ 30) :
    (m.free.card < 2 ^ depth.toNat ∧ ∃ m', trnmntTreeAlloc A heap depth m = (none, m') ∧
      ∀ id, m'.live id ↔ m.live id ∨ id ∈ m.free) ∨ (2 ^ depth.toNat ≤ m.free.card ∧
      ∃ tree m', trnmntTreeAlloc A heap depth m = (some tree, m') ∧ NewTree depth m tree m' ∧
      ∀ i ∈ tree.range, tree.nodes i ∈ m.free) := by
  have hpower : power32 2 depth.toNat = 2 ^ depth.toNat := power32_two_of_le (by omega)
  have hnum : (power32 2 depth.toNat).toNat = 2 ^ depth.toNat := by
    rw [hpower]
    exact Int.toNat_natCast (2 ^ depth.toNat)
  rcases lt_or_ge m.free.card (2 ^ depth.toNat) with hlt | hge
  · refine .inl ⟨hlt, ?_⟩
    obtain ⟨m', hrun, hlive⟩ := allocNodes_fails (A := A) hlt 0 heap
    refine ⟨m', ?_, hlive⟩
    simp only [trnmntTreeAlloc, if_neg (show ¬ depth < 1 by omega), hnum, hrun]
  · refine .inr ⟨hge, ?_⟩
    obtain ⟨nodes, m', hrun, -, hinj, hfree, hlive⟩ := allocNodes_fills (A := A) hge 0 heap
    have hrange : (⟨nodes, depth, power32 2 depth.toNat⟩ : TreeFields).range =
        Set.Ico (0 : ℤ) (0 + (2 ^ depth.toNat : ℕ)) := by
      simp only [TreeFields.range, hpower, zero_add, Nat.cast_pow, Nat.cast_ofNat]
    refine ⟨⟨nodes, depth, power32 2 depth.toNat⟩, m', ?_, ⟨hpower, ?_, ?_, ?_⟩, ?_⟩
    · simp only [trnmntTreeAlloc, if_neg (show ¬ depth < 1 by omega), hnum, hrun]
    all_goals rw [hrange]
    · exact hinj
    · exact fun i hi => (Mutexes.mem_free.1 (hfree i hi)).2
    · exact hlive
    · exact hfree

theorem trnmntTreeAlloc_of_lt (A : IdAllocator) (heap : ℤ → ℤ) (m : Mutexes) (hlt : 30 < depth) :
    trnmntTreeAlloc A heap depth m = (some ⟨heap, depth, power32 2 depth.toNat⟩, m) := by
  have hpower : power32 2 depth.toNat ≤ 0 := power32_two_of_lt (by omega)
  simp only [trnmntTreeAlloc, if_neg (show ¬ depth < 1 by omega), Int.toNat_eq_zero.2 hpower,
    allocNodes]

theorem allOrNothing_iff (A : IdAllocator) (heap : ℤ → ℤ) (m : Mutexes) (hdepth : 1 ≤ depth) :
    AllOrNothing depth m (trnmntTreeAlloc A heap depth m) ↔
      depth ≤ 30 ∧ (m.free = ∅ ∨ 2 ^ depth.toNat ≤ m.free.card) := by
  rcases lt_or_ge 30 depth with hlt | hle
  · rw [trnmntTreeAlloc_of_lt A heap m hlt]
    refine iff_of_false (fun h => ?_) (by omega)
    have hnum : power32 2 depth.toNat = 2 ^ depth.toNat := h.nodesNum
    have hpower : power32 2 depth.toNat ≤ 0 := power32_two_of_lt (by omega)
    have hpos : (0 : ℤ) < 2 ^ depth.toNat := by positivity
    omega
  · obtain ⟨hlt, m', heq, hlive⟩ | ⟨hge, tree, m', heq, hnew, -⟩ :=
      trnmntTreeAlloc_cases A heap m hdepth hle
    · rw [heq]
      -- the mutexes it has got are lost, if there are any
      have hsame : m'.live = m.live ↔ m.free = ∅ := by
        rw [eq_empty_iff_forall_notMem]
        refine ⟨fun h id hid => ?_, fun h => funext fun id => ?_⟩
        · have := (hlive id).2 (.inr hid)
          rw [h, (Mutexes.mem_free.1 hid).2] at this
          cases this
        · rw [Bool.eq_iff_iff, hlive, or_iff_left (h id)]
      exact hsame.trans ⟨fun h => ⟨hle, .inl h⟩, fun h => h.2.resolve_right (by omega)⟩
    · rw [heq]
      exact iff_of_true hnew ⟨hle, .inr hge⟩

/-- Dealloc does what its interface says only when it has to fail. -/
theorem undoes_iff {tree : TreeFields} (hzero : m'.live 0 = false) (hnum : 0 < tree.nodesNum)
    (hnode : 0 ≤ tree.nodes 0) (hlive : ∀ i ∈ tree.range, m'.live (tree.nodes i)) :
    Undoes m tree m' ↔ ∃ i ∈ tree.range, m'.locked (tree.nodes i) := by
  simp only [Undoes, trnmntTreeDealloc_eq hzero hnum hnode]
  constructor
  · rintro ⟨h, -⟩
    by_contra! hno
    have := (h fun i hi => Bool.eq_false_iff.2 (hno i hi)).1
    omega
  · rintro ⟨i, hi, hlocked⟩
    refine ⟨fun h => ?_, fun _ => ⟨trivial, trivial, hlive⟩⟩
    rw [h i hi] at hlocked
    cases hlocked

/-- Alloc is all-or-nothing exactly when no mutex or at least `2 ^ depth` mutexes are free, and `2 ^
depth` is an `int`.  Dealloc of a tree it returned, in a state with the same mutexes allocated, is
as its interface says exactly when some node is locked. -/
theorem trnmntTree_alloc_dealloc (A : IdAllocator) (heap : ℤ → ℤ) {m : Mutexes} {depth : ℤ}
    (hdepth : 1 ≤ depth) (hm : ∀ id, m.live id → 1 ≤ id ∧ id ≤ MAX_MUTEXES) :
    (AllOrNothing depth m (trnmntTreeAlloc A heap depth m) ↔
      depth ≤ 30 ∧ (m.free = ∅ ∨ 2 ^ depth.toNat ≤ m.free.card)) ∧
    ∀ tree m', trnmntTreeAlloc A heap depth m = (some tree, m') → depth ≤ 30 → ∀ m'' :
    Mutexes, m''.live = m'.live →
      (Undoes m tree m'' ↔ ∃ i ∈ tree.range, m''.locked (tree.nodes i)) := by
  refine ⟨allOrNothing_iff A heap m hdepth, fun tree m' hrun hle m'' hlive => ?_⟩
  obtain ⟨-, _, heq, -⟩ | ⟨-, _, _, heq, hnew, hfree⟩ := trnmntTreeAlloc_cases A heap m hdepth hle
  · rw [heq] at hrun
    cases hrun
  rw [heq] at hrun
  cases hrun
  have hpos : 0 < tree.nodesNum := by
    rw [hnew.nodesNum]
    positivity
  have hids : ∀ i ∈ tree.range, 1 ≤ tree.nodes i :=
    fun i hi => (Mutexes.mem_free.1 (hfree i hi)).1.1
  have hzero : m''.live 0 = false := by
    rw [hlive, Bool.eq_false_iff, Ne, hnew.live]
    rintro (h | ⟨i, hi, heq⟩)
    · have := hm 0 h
      omega
    · have := hids i hi
      omega
  have hnode := hids 0 ⟨le_rfl, hpos⟩
  refine undoes_iff hzero hpos (by omega) fun i hi => ?_
  rw [hlive, hnew.live]
  exact .inr ⟨i, hi, rfl⟩

def lowestFree (m : Mutexes) : ℤ :=
  (((List.range MAX_MUTEXES).map fun i : ℕ => (i + 1 : ℤ)).find? fun id => !m.live id).getD 0

theorem lowestFree_mem (m : Mutexes) : m.free.Nonempty → lowestFree m ∈ m.free := by
  rintro ⟨id, hid⟩
  obtain ⟨⟨hpos, hle⟩, hid⟩ := Mutexes.mem_free.1 hid
  rw [Mutexes.mem_free, lowestFree]
  cases h : ((List.range MAX_MUTEXES).map fun i : ℕ => (i + 1 : ℤ)).find? fun id => !m.live id with
  | none =>
    have := List.find?_eq_none.1 h id
      (List.mem_map.2 ⟨(id - 1).toNat, List.mem_range.2 (by omega), by omega⟩)
    simp [hid] at this
  | some x =>
    obtain ⟨i, hi, rfl⟩ := List.mem_map.1 (List.mem_of_find?_eq_some h)
    have hlt := List.mem_range.1 hi
    have hx := List.find?_some h
    exact ⟨⟨by simp, by simp; omega⟩, by simpa using hx⟩

/-- The allocator that takes the lowest id. -/
def lowest : IdAllocator := ⟨lowestFree, lowestFree_mem⟩

/-- Mutexes `1 .. n` are allocated, and none is locked. -/
def firstLive (n : ℤ) : Mutexes := ⟨fun id => decide (1 ≤ id ∧ id ≤ n), fun _ => false⟩

theorem trnmntTree_alloc_dealloc_two :
    AllOrNothing 1 (firstLive 62) (trnmntTreeAlloc lowest (fun _ => 0) 1 (firstLive 62)) ∧
    AllOrNothing 1 (firstLive 64) (trnmntTreeAlloc lowest (fun _ => 0) 1 (firstLive 64)) :=
  ⟨(trnmntTree_alloc_dealloc lowest (fun _ => 0) le_rfl
      fun _ h => ⟨(of_decide_eq_true h).1, (of_decide_eq_true h).2.trans (by decide)⟩).1.2
        ⟨by decide, .inr (by decide +kernel)⟩,
    (trnmntTree_alloc_dealloc lowest (fun _ => 0) le_rfl fun _ h => of_decide_eq_true h).1.2
      ⟨by decide, .inl (by decide +kernel)⟩⟩

/-- With one mutex left a tree of two nodes takes it and fails.  With all of them left it gets its
nodes, and dealloc returns -1 and frees none.  A tree of depth 32 has no nodes. -/
theorem trnmntTree_alloc_keeps :
    ¬ AllOrNothing 1 (firstLive 63) (trnmntTreeAlloc lowest (fun _ => 0) 1 (firstLive 63)) ∧
    (∃ tree m', trnmntTreeAlloc lowest (fun _ => 0) 1 (firstLive 0) = (some tree, m') ∧
      (∀ id, m'.locked id = false) ∧ trnmntTreeDealloc tree m' = (-1, tree, m')) ∧
    ((trnmntTreeAlloc lowest (fun _ => 0) 32 (firstLive 0)).1.any fun tree =>
      tree.nodesNum == 0) := by
  refine ⟨fun h => ?_, ?_, by decide +kernel⟩
  · rw [allOrNothing_iff _ _ _ le_rfl] at h
    exact absurd h.2 (by decide +kernel)
  · refine ⟨⟨update (update (fun _ => 0) 0 1) 1 2, 1, 2⟩, ((firstLive 0).add 1).add 2, by rfl,
      fun id => ?_,
      trnmntTreeDealloc_eq rfl (by decide) (by decide)⟩
    simp only [Mutexes.add, firstLive, update_apply, ite_self]

end Xv6.Kthread
