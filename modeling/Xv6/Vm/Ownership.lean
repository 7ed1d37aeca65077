import Xv6.Lib.Exact
import Xv6.Vm.Directory

/-!
# The pages of a page directory

`Dir s d F q`: the page directory `d` has the pages `F`, which are the directory, its page tables
and the pages it maps below `KERNBASE`, each once; above it maps what `q` says.  What a directory
maps is `pte s d`, from page numbers to entries.
-/

namespace Xv6.Vm

open LittleEndian Fallible Nat

/-! ## Entries of a page -/

theorem entry_setEntry (p : Page) {i : ℕ} (hi : i < 1024) (j v : ℕ) :
    entry (setEntry p i v) j = if j = i then v % 2 ^ 32 else entry p j := by
  unfold entry setEntry
  split_ifs with h
  · subst h
    rw [getLE_setLE p (by rw [PGSIZE]; omega)]
    rfl
  · exact getLE_setLE_of_disjoint p (by omega) v

theorem entry_zero (j : ℕ) : entry (fun _ => 0) j = 0 := getLE_zeroes (4 * j) 4

theorem entry_lt (p : Page) (j : ℕ) : entry p j < 2 ^ 32 := getLE_lt p (4 * j) 4

theorem entry_of_ge (p : Page) {j : ℕ} (hj : 1024 ≤ j) : entry p j = 0 := by
  have hz : entry p j = entry (fun _ => 0) j := by
    refine getLE_congr fun i _ => ?_
    have hout : ¬ 4 * j + i < PGSIZE := by
      rw [PGSIZE]
      omega
    simp [getByte, hout]
  rw [hz, entry_zero]

/-! ## Entries as numbers -/

theorem entry_eq_add {f perm : ℕ} (hperm : perm < PGSIZE) :
    f * PGSIZE ||| perm ||| PTE_P = f * PGSIZE + (perm ||| 1) := by
  have hlt : perm ||| 1 < 2 ^ 12 := Nat.or_lt_two_pow hperm (by decide)
  rw [Nat.or_assoc, PTE_P, show PGSIZE = 2 ^ 12 from rfl, mul_comm, Nat.two_pow_add_eq_or_of_lt hlt]

theorem pteAddr_entry {f perm : ℕ} (hperm : perm < PGSIZE) :
    pteAddr (f * PGSIZE ||| perm ||| PTE_P) = f := by
  have hlt : perm ||| 1 < 2 ^ 12 := or_lt_two_pow hperm (by decide)
  rw [entry_eq_add hperm, pteAddr]
  simp only [PGSIZE]
  omega

theorem pteFlags_entry {f perm : ℕ} (hperm : perm < PGSIZE) :
    pteFlags (f * PGSIZE ||| perm ||| PTE_P) = perm ||| 1 := by
  have hlt : perm ||| 1 < 2 ^ 12 := or_lt_two_pow hperm (by decide)
  rw [entry_eq_add hperm, pteFlags]
  simp only [PGSIZE]
  omega

theorem present_entry (x y : ℕ) : present (x ||| y ||| PTE_P) := by
  rw [present, testBit_or]
  simp [PTE_P]

theorem entry_lt_of_lt {f perm : ℕ} (hf : f < 2 ^ 20) (hperm : perm < PGSIZE) :
    f * PGSIZE ||| perm ||| PTE_P < 2 ^ 32 := by
  have hlt : perm ||| 1 < 2 ^ 12 := or_lt_two_pow hperm (by decide)
  rw [entry_eq_add hperm]
  simp only [PGSIZE]
  omega

theorem tableEntry (f : ℕ) : f * PGSIZE ||| PTE_P ||| PTE_W ||| PTE_U = f * PGSIZE ||| 6 |||
    PTE_P := by
  rw [Nat.or_assoc, Nat.or_assoc, Nat.or_assoc]
  rfl

theorem not_present_zero : present 0 = false := rfl

/-! ## Addresses of pages -/

def upages : ℕ := KERNBASE / PGSIZE

theorem pgrounddown_page (k : ℕ) : pgrounddown (k * PGSIZE) = k * PGSIZE := by
  simp [pgrounddown, PGSIZE]

/-- The page numbers that `kalloc` gives. -/
def Avail (K : Link) : Set ℕ := { f | K.end ≤ p2v (f * PGSIZE) ∧ f * PGSIZE < PHYSTOP }

theorem avail_ne_zero {K : Link} {f : ℕ} (h : f ∈ Avail K) : f ≠ 0 := by
  rintro rfl
  have h₁ := h.1
  have h₂ := K.link_lt
  have h₃ := K.data_lt
  simp only [p2v, KERNLINK, KERNBASE] at h₁ h₂
  omega

theorem avail_lt {K : Link} {f : ℕ} (h : f ∈ Avail K) : f < 2 ^ 20 := by
  have := h.2
  simp only [PGSIZE, PHYSTOP] at this
  omega

theorem setPage_mem_self (s : Phys) (f : ℕ) (p : Page) : (s.setPage f p).mem f = p := by
  simp [Phys.setPage]

theorem setPage_mem_of_ne (s : Phys) {f g : ℕ} (h : g ≠ f) (p : Page) :
    (s.setPage f p).mem g = s.mem g := by
  simp [Phys.setPage, h]

/-! ## Directories -/

def pde (s : Phys) (d i : ℕ) : ℕ := entry (s.mem d) i

/-- The entry for page `k` in the page tables of `d`. -/
def pte (s : Phys) (d k : ℕ) : ℕ :=
  if present (pde s d (k / 1024)) then entry (s.mem (pteAddr (pde s d (k / 1024)))) (k % 1024) else
    0

/-- What a directory has pages for. -/
inductive Place where
  | dir
  | table (i : ℕ)
  | page (k : ℕ)
  deriving DecidableEq

/-- The page of the directory `d` at a place, `0` for none. -/
def place (s : Phys) (d : ℕ) : Place → ℕ
  | .dir => d
  | .table i => if present (pde s d i) then pteAddr (pde s d i) else 0
  | .page k => if k < upages ∧ present (pte s d k) then pteAddr (pte s d k) else 0

/-- The directory `d` has the pages `F`, and maps `q` above `KERNBASE`. -/
structure Dir (s : Phys) (d : ℕ) (F : Set ℕ) (q : ℕ → ℕ) : Prop where
  exact : Exact (place s d) F
  dir_ne : d ≠ 0
  table_ne : ∀ i, present (pde s d i) → pteAddr (pde s d i) ≠ 0
  page_ne : ∀ k < upages, present (pte s d k) → pteAddr (pte s d k) ≠ 0
  zero : ∀ k, present (pte s d k) = false → pte s d k = 0
  kern : ∀ k, upages ≤ k → pte s d k = q k

/-- The pages that are owned, and those that are free. -/
abbrev Owned (K : Link) (s : Phys) (G : Set ℕ) : Prop := Heap.Own (Avail K) s.toHeap G

/-- What a function does that begins with the pages `G` and ends with the pages `G'`. -/
structure Steps (K : Link) (s s' : Phys) (G G' : Set ℕ) : Prop extends
    Heap.Moves (Avail K) s.toHeap s'.toHeap G G' where
  cr3 : s'.cr3 = s.cr3

section Dir

variable {K : Link} {s s' s'' : Phys} {d f k i e : ℕ} {F G G' G'' H : Set ℕ} {q : ℕ → ℕ}

theorem Steps.refl (h : Owned K s G) : Steps K s s G G := ⟨.refl h, rfl⟩

theorem Steps.trans (h₁ : Steps K s s' G G') (h₂ : Steps K s' s'' G' G'') : Steps K s s'' G G'' :=
  ⟨h₁.toMoves.trans h₂.toMoves, h₂.cr3.trans h₁.cr3⟩

theorem Steps.beside (h : Steps K s s' G G') (ho : Owned K s (G ∪ H)) (hdisj : ∀ f ∈ H, f ∉ G) :
    Steps K s s' (G ∪ H) (G' ∪ H) :=
  ⟨h.toMoves.beside ho hdisj, h.cr3⟩

/-- What takes its pages from the free list leaves the pages of others alone. -/
theorem Steps.fresh (h : Steps K s s' ∅ H) (ho : Owned K s F) :
    Steps K s s' F (H ∪ F) ∧ (∀ f ∈ F, f ∉ H) ∧ ∀ f ∈ F, s'.mem f = s.mem f := by
  have ho' : Owned K s (∅ ∪ F) := by rwa [Set.empty_union]
  have hside : ∀ f ∈ F, f ∉ (∅ : Set ℕ) := fun _ _ hf => hf
  have hall := h.beside ho' hside
  rw [Set.empty_union] at hall
  exact ⟨hall, h.disjoint ho' hside, fun _ hf => h.kept ho' hside hf⟩

theorem Steps.setPage (h : Owned K s G) (hf : f ∈ G) (p : Page) :
    Steps K s (s.setPage f p) G G where
  toMoves := .write h rfl fun g hg => setPage_mem_of_ne s (fun hgf : g = f => hg (hgf ▸ hf)) p
  cr3 := rfl

namespace Dir

theorem mem_dir (h : Dir s d F q) : d ∈ F := by
  have : place s d .dir ∈ F := h.exact.mem h.dir_ne
  exact this

theorem place_table (hp : present (pde s d i)) : place s d (.table i) = pteAddr (pde s d i) :=
  if_pos hp

theorem place_page (hk : k < upages) (hp : present (pte s d k)) :
    place s d (.page k) = pteAddr (pte s d k) :=
  if_pos ⟨hk, hp⟩

section

variable (h : Dir s d F q)

include h

theorem mem_table (hp : present (pde s d i)) : pteAddr (pde s d i) ∈ F := by
  rw [← place_table hp]
  exact h.exact.mem (by rw [place_table hp]; exact h.table_ne i hp)

theorem mem_page (hk : k < upages) (hp : present (pte s d k)) : pteAddr (pte s d k) ∈ F := by
  rw [← place_page hk hp]
  exact h.exact.mem (by rw [place_page hk hp]; exact h.page_ne k hk hp)

theorem table_ne_dir (hp : present (pde s d i)) : pteAddr (pde s d i) ≠ d := by
  intro heq
  have := h.exact.inj (.table i) .dir (by rw [place_table hp]; exact h.table_ne i hp)
    (by rw [place_table hp]; exact heq)
  exact Place.noConfusion this

theorem table_inj {j : ℕ} (hi : present (pde s d i)) (hj : present (pde s d j))
    (heq : pteAddr (pde s d i) = pteAddr (pde s d j)) : i = j := by
  have := h.exact.inj (.table i) (.table j) (by rw [place_table hi]; exact h.table_ne i hi)
    (by rw [place_table hi, place_table hj]; exact heq)
  exact Place.table.inj this

theorem page_inj {j : ℕ} (hk : k < upages) (hj : j < upages) (hpk : present (pte s d k))
    (hpj : present (pte s d j)) (heq : pteAddr (pte s d k) = pteAddr (pte s d j)) : k = j := by
  have := h.exact.inj (.page k) (.page j) (by rw [place_page hk hpk]; exact h.page_ne k hk hpk)
    (by rw [place_page hk hpk, place_page hj hpj]; exact heq)
  exact Place.page.inj this

theorem page_ne_table (hk : k < upages) (hp : present (pte s d k)) (hi : present (pde s d i)) :
    pteAddr (pte s d k) ≠ pteAddr (pde s d i) := by
  intro heq
  have := h.exact.inj (.page k) (.table i) (by rw [place_page hk hp]; exact h.page_ne k hk hp)
    (by rw [place_page hk hp, place_table hi]; exact heq)
  exact Place.noConfusion this

theorem page_ne_dir (hk : k < upages) (hp : present (pte s d k)) : pteAddr (pte s d k) ≠ d := by
  intro heq
  have := h.exact.inj (.page k) .dir (by rw [place_page hk hp]; exact h.page_ne k hk hp)
    (by rw [place_page hk hp]; exact heq)
  exact Place.noConfusion this

end

theorem table_of_pte (hp : present (pte s d k)) : present (pde s d (k / 1024)) := by
  by_contra hn
  rw [pte, if_neg hn] at hp
  exact Bool.noConfusion hp

theorem of_eq (h : Dir s d F q) (hde : ∀ i, pde s' d i = pde s d i)
    (hte : ∀ k, pte s' d k = pte s d k) : Dir s' d F q where
  exact := h.exact.congr fun p => by cases p <;> simp only [place, hde, hte]
  dir_ne := h.dir_ne
  table_ne i := by simpa only [hde] using h.table_ne i
  page_ne k := by simpa only [hte] using h.page_ne k
  zero k := by simpa only [hte] using h.zero k
  kern k := by simpa only [hte] using h.kern k

theorem pde_congr (h : Dir s d F q) (hmem : ∀ f ∈ F, s'.mem f = s.mem f) (i : ℕ) :
    pde s' d i = pde s d i := by
  rw [pde, hmem d h.mem_dir, pde]

theorem pte_congr (h : Dir s d F q) (hmem : ∀ f ∈ F, s'.mem f = s.mem f) (k : ℕ) :
    pte s' d k = pte s d k := by
  rw [pte, pte, h.pde_congr hmem]
  split_ifs with hp
  · rw [hmem _ (h.mem_table hp)]
  · rfl

theorem congr (h : Dir s d F q) (hmem : ∀ f ∈ F, s'.mem f = s.mem f) : Dir s' d F q :=
  h.of_eq (h.pde_congr hmem) (h.pte_congr hmem)

/-! ## One entry is set -/

def setPte (s : Phys) (d k e : ℕ) : Phys :=
  s.setPage (pteAddr (pde s d (k / 1024)))
    (setEntry (s.mem (pteAddr (pde s d (k / 1024)))) (k % 1024) e)

section

variable (h : Dir s d F q) (hp : present (pde s d (k / 1024)))

include h hp

theorem pde_setPte (i : ℕ) : pde (setPte s d k e) d i = pde s d i := by
  rw [pde, setPte, setPage_mem_of_ne s (h.table_ne_dir hp).symm, pde]

theorem pte_setPte (he : e < 2 ^ 32) (j : ℕ) :
    pte (setPte s d k e) d j = if j = k then e else pte s d j := by
  rw [pte, h.pde_setPte hp]
  by_cases hj : present (pde s d (j / 1024))
  · rw [if_pos hj]
    by_cases hsame : j / 1024 = k / 1024
    · rw [hsame, setPte, setPage_mem_self, entry_setEntry _ (mod_lt k (by decide)), mod_eq_of_lt he]
      have hiff : j % 1024 = k % 1024 ↔ j = k := by omega
      simp only [hiff, pte, hsame, hp, if_true]
    · have hne : j ≠ k := fun h => hsame (by rw [h])
      have htab : pteAddr (pde s d (j / 1024)) ≠ pteAddr (pde s d (k / 1024)) :=
        fun heq => hsame (h.table_inj hj hp heq)
      rw [setPte, setPage_mem_of_ne s htab, if_neg hne, pte, if_pos hj]
  · have hne : j ≠ k := fun h => hj (h ▸ hp)
    rw [if_neg hj, if_neg hne, pte, if_neg hj]

theorem place_setPte (he : e < 2 ^ 32) (p : Place) : place (setPte s d k e) d p =
      if p = .page k then if k < upages ∧ present e then pteAddr e else 0 else place s d p := by
  cases p with
  | dir => rfl
  | table i => simp only [place, h.pde_setPte hp, reduceCtorEq, if_false]
  | page j =>
    simp only [place, h.pte_setPte hp he, Place.page.injEq]
    by_cases hj : j = k
    · simp only [hj, if_true]
    · simp only [hj, if_false]

end

theorem set {F' : Set ℕ} {q' : ℕ → ℕ} (h : Dir s d F q) (hp : present (pde s d (k / 1024)))
    (he : e < 2 ^ 32) (hexact : Exact (place (setPte s d k e) d) F')
    (hne : k < upages → present e → pteAddr e ≠ 0) (hzero : present e = false → e = 0)
    (hq : ∀ j, upages ≤ j → (if j = k then e else q j) = q' j) : Dir (setPte s d k e) d F' q' where
  exact := hexact
  dir_ne := h.dir_ne
  table_ne i := by simpa only [h.pde_setPte hp] using h.table_ne i
  page_ne j hj hpj := by
    rw [h.pte_setPte hp he] at hpj ⊢
    split_ifs at hpj ⊢ with hjk
    · exact hne (hjk ▸ hj) hpj
    · exact h.page_ne j hj hpj
  zero j hpj := by
    rw [h.pte_setPte hp he] at hpj ⊢
    split_ifs at hpj ⊢ with hjk
    · exact hzero hpj
    · exact h.zero j hpj
  kern j hj := by rw [h.pte_setPte hp he, ← hq j hj, h.kern j hj]

theorem map (h : Dir s d F q) (hp : present (pde s d (k / 1024))) (hk : k < upages)
    (hnone : present (pte s d k) = false) (he : e < 2 ^ 32) (hpe : present e) (hne : pteAddr e ≠ 0)
    (hf : pteAddr e ∉ F) : Dir (setPte s d k e) d (insert (pteAddr e) F) q := by
  refine h.set hp he ?_ (fun _ _ => hne) (fun hn => by simp [hpe] at hn) fun j hj =>
    if_neg (by omega)
  have hfree : place s d (.page k) = 0 := if_neg (by simp [hnone])
  have hnew : (if k < upages ∧ present e then pteAddr e else 0) = pteAddr e := if_pos ⟨hk, hpe⟩
  refine h.exact.add hfree hne hf fun p => ?_
  rw [h.place_setPte hp he, hnew]

theorem clear (h : Dir s d F q) (hk : k < upages) (hp : present (pte s d k)) :
    Dir (setPte s d k 0) d (F \ {pteAddr (pte s d k)}) q := by
  have htab := table_of_pte hp
  have hzero : (0 : ℕ) < 2 ^ 32 := by decide
  refine h.set htab hzero ?_ (fun _ hn => by simp [not_present_zero] at hn) (fun _ => rfl) fun j
    hj => if_neg (by omega)
  have hnew : (if k < upages ∧ present 0 then pteAddr 0 else 0) = 0 :=
    if_neg (by simp [not_present_zero])
  refine h.exact.clear (C := fun p => p = .page k) (fun p => ?_) fun c => ?_
  · rw [h.place_setPte htab hzero, hnew]
  · rw [Set.mem_sdiff, Set.mem_singleton_iff]
    simp only [forall_eq, place_page hk hp]
    exact and_congr_right fun _ => ne_comm

theorem reflag (h : Dir s d F q) (hk : k < upages) (hp : present (pte s d k)) (he : e < 2 ^ 32)
    (hpe : present e) (haddr : pteAddr e = pteAddr (pte s d k)) : Dir (setPte s d k e) d F q := by
  refine h.set (table_of_pte hp) he ?_ (fun _ _ => haddr ▸ h.page_ne k hk hp)
    (fun hn => by simp [hpe] at hn)
    fun j hj => if_neg (by omega)
  have hnew : (if k < upages ∧ present e then pteAddr e else 0) = pteAddr (pte s d k) :=
    (if_pos ⟨hk, hpe⟩).trans haddr
  refine h.exact.congr fun p => ?_
  rw [h.place_setPte (table_of_pte hp) he, hnew]
  split_ifs with hpk
  · rw [hpk, place_page hk hp]
  · rfl

theorem mapKernel (h : Dir s d F q) (hp : present (pde s d (k / 1024))) (hk : upages ≤ k)
    (he : e < 2 ^ 32) (hpe : present e) :
    Dir (setPte s d k e) d F (fun j => if j = k then e else q j) := by
  refine h.set hp he ?_ (fun hlt => by omega) (fun hn => by simp [hpe] at hn) fun _ _ => rfl
  have hnew : (if k < upages ∧ present e then pteAddr e else 0) = 0 := if_neg (by omega)
  refine h.exact.congr fun p => ?_
  rw [h.place_setPte hp he, hnew]
  split_ifs with hpk
  · rw [hpk]
    exact (if_neg (by omega)).symm
  · rfl

/-! ## A page table is added -/

/-- The state after the empty page table `f` was entered for the pages `1024 * i` and on. -/
def setPde (s : Phys) (d i f : ℕ) :
    Phys := s.setPage d (setEntry (s.mem d) i (f * PGSIZE ||| 6 ||| PTE_P))

theorem pde_setPde (hi : i < 1024) (hf : f < 2 ^ 20) (j : ℕ) :
    pde (setPde s d i f) d j = if j = i then f * PGSIZE ||| 6 ||| PTE_P else pde s d j := by
  rw [pde, setPde, setPage_mem_self, entry_setEntry _ hi,
    mod_eq_of_lt (entry_lt_of_lt hf (by decide)), pde]

theorem pte_setPde (h : Dir s d F q) (hi : i < 1024) (hnone : present (pde s d i) = false)
    (hf : f < 2 ^ 20) (hF : f ∉ F) (hzero : s.mem f = fun _ => 0) (k : ℕ) :
    pte (setPde s d i f) d k = pte s d k := by
  have hfd : f ≠ d := fun heq => hF (heq ▸ h.mem_dir)
  rw [pte, pde_setPde hi hf, pte]
  by_cases hk : k / 1024 = i
  · rw [if_pos hk, if_pos (present_entry _ _), pteAddr_entry (by decide), setPde,
      setPage_mem_of_ne s hfd, hzero,
      entry_zero, hk, hnone]
    rfl
  · rw [if_neg hk]
    split_ifs with hp
    · rw [setPde, setPage_mem_of_ne s (h.table_ne_dir hp)]
    · rfl

theorem addTable (h : Dir s d F q) (hi : i < 1024) (hnone : present (pde s d i) = false)
    (hf : f < 2 ^ 20) (hne : f ≠ 0) (hF : f ∉ F) (hzero : s.mem f = fun _ => 0) :
    Dir (setPde s d i f) d (insert f F) q where
  exact := by
    have hfree : place s d (.table i) = 0 := if_neg (by simp [hnone])
    refine h.exact.add hfree hne hF fun p => ?_
    cases p with
    | dir => rfl
    | table j =>
      simp only [place, pde_setPde hi hf, Place.table.injEq]
      by_cases hj : j = i
      · simp [hj, present_entry, pteAddr_entry (show 6 < PGSIZE by decide)]
      · simp [hj]
    | page k => simp only [place, h.pte_setPde hi hnone hf hF hzero, reduceCtorEq, if_false]
  dir_ne := h.dir_ne
  table_ne j hj := by
    rw [pde_setPde hi hf] at hj ⊢
    split_ifs at hj ⊢ with hji
    · rw [pteAddr_entry (by decide)]
      exact hne
    · exact h.table_ne j hj
  page_ne k := by simpa only [h.pte_setPde hi hnone hf hF hzero] using h.page_ne k
  zero k := by simpa only [h.pte_setPde hi hnone hf hF hzero] using h.zero k
  kern k := by simpa only [h.pte_setPde hi hnone hf hF hzero] using h.kern k

end Dir

end Dir

end Xv6.Vm
