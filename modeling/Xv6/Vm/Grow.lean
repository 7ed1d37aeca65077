import Xv6.Vm.Mapping

/-!
# Growing and shrinking an address space

`setupkvm`, `allocuvm`, `deallocuvm` and `freevm` on a directory.  `deallocuvm` undoes what
`allocuvm` has done before memory ran out.
-/

namespace Xv6.Vm

open LittleEndian Fallible List Nat Set
open UserMemory (pgroundup)

variable {K : Link} {s s' s'' : Phys} {d f k i e lo mid hi : ℕ} {F F' F'' G : Set ℕ} {q : ℕ → ℕ}

/-! ## `deallocuvm` -/

/-- The pages from `lo` to `hi` are unmapped and given back, nothing else changes. -/
structure Unmapped (K : Link) (s s' : Phys) (d : ℕ) (F F' : Set ℕ) (q : ℕ → ℕ) (lo hi : ℕ) :
Prop where
  dir : Dir s' d F' q
  steps : Steps K s s' F F'
  pte : ∀ k, pte s' d k = if lo ≤ k ∧ k < hi then 0 else pte s d k
  pde : ∀ i, pde s' d i = pde s d i
  keeps : ∀ k < upages, ¬ (lo ≤ k ∧ k < hi) → present (Vm.pte s d k) →
    s'.mem (pteAddr (Vm.pte s d k)) = s.mem (pteAddr (Vm.pte s d k))

namespace Unmapped

theorem nothing (h : Dir s d F q) (ho : Owned K s F)
    (hzero : ∀ k, lo ≤ k → k < hi → Vm.pte s d k = 0) : Unmapped K s s d F F q lo hi where
  dir := h
  steps := .refl ho
  pte k := by
    split_ifs with hk
    · exact hzero k hk.1 hk.2
    · rfl
  pde _ := rfl
  keeps _ _ _ _ := rfl

theorem trans (h₁ : Unmapped K s s' d F F' q lo mid) (h₂ : Unmapped K s' s'' d F' F'' q mid hi)
    (hlo : lo ≤ mid) (hzero : ∀ k, hi ≤ k → k < mid → Vm.pte s d k = 0) :
    Unmapped K s s'' d F F'' q lo hi where
  dir := h₂.dir
  steps := h₁.steps.trans h₂.steps
  pte k := by
    rw [h₂.pte, h₁.pte]
    by_cases hmid : k < mid
    · by_cases hin : lo ≤ k ∧ k < hi
      · rw [if_neg (by omega), if_pos ⟨hin.1, hmid⟩, if_pos hin]
      · rw [if_neg (by omega), if_neg hin]
        split_ifs with hk
        · exact (hzero k (by omega) hmid).symm
        · rfl
    · by_cases hhi : k < hi
      · rw [if_pos (by omega), if_pos (by omega)]
      · rw [if_neg (by omega), if_neg (by omega), if_neg (by omega)]
  pde i := (h₂.pde i).trans (h₁.pde i)
  keeps k hk hout hp := by
    have hsame : ¬ (lo ≤ k ∧ k < mid) := by
      rintro ⟨h₁', h₂'⟩
      rw [hzero k (by omega) h₂'] at hp
      exact Bool.noConfusion hp
    have hpte : Vm.pte s' d k = Vm.pte s d k := by rw [h₁.pte, if_neg hsame]
    have := h₂.keeps k hk (by omega) (by rw [hpte]; exact hp)
    rw [hpte] at this
    rw [this, h₁.keeps k hk hsame hp]

end Unmapped

theorem pte_of_no_table (h : ¬ present (pde s d (k / 1024))) : pte s d k = 0 := if_neg h

theorem unmap_spec (h : Dir s d F q) (ho : Owned K s F) (hk : k < upages)
    (hp : present (pde s d (k / 1024))) :
    Total (fun _ s' => ∃ F', Unmapped K s s' d F F' q k (k + 1))
      (unmap K (pteAddr (pde s d (k / 1024)), k % 1024) s) := by
  rw [unmap, load_bind, entry_eq_pte hp]
  by_cases hpk : present (pte s d k)
  · set f := pteAddr (pte s d k)
    have hfF : f ∈ F := h.mem_page hk hpk
    have hfd : d ≠ f := (h.page_ne_dir hk hpk).symm
    have hft : ∀ i, present (pde s d i) → pteAddr (pde s d i) ≠ f :=
      fun i hi => (h.page_ne_table hk hpk hi).symm
    -- the page is on the free list, and still mapped
    have hpde : ∀ i, pde (s.freed f) d i = pde s d i :=
      fun i => by rw [pde, freed_mem_of_ne s hfd, pde]
    have hpte : ∀ j, pte (s.freed f) d j = pte s d j := by
      intro j
      rw [pte, hpde, pte]
      split_ifs with hj
      · rw [freed_mem_of_ne s (hft _ hj)]
      · rfl
    have hd₁ : Dir (s.freed f) d F q := h.of_eq hpde hpte
    have hpk₁ : present (pte (s.freed f) d k) := by rw [hpte]; exact hpk
    have hp₁ : present (pde (s.freed f) d (k / 1024)) := by rw [hpde]; exact hp
    have hd₂ := hd₁.clear hk hpk₁
    rw [hpte] at hd₂
    have hsteps₁ := Steps.freed ho hfF
    have htab : pteAddr (pde (s.freed f) d (k / 1024)) ∈ F \ {f} := by
      rw [hpde]
      exact ⟨h.mem_table hp, hft _ hp⟩
    have hrun : (if present (pte s d k) then if f = 0 then throw .kfree else do
          kfree K f
          store (pteAddr (pde s d (k / 1024))) (k % 1024) 0
        else pure ⟨⟩ : M PUnit) s = (.ok ⟨⟩, Dir.setPte (s.freed f) d k 0) := by
      rw [if_pos hpk, if_neg (h.page_ne k hk hpk), bind_ok (kfree_eq ho hfF)]
      rw [Dir.setPte, hpde]
      rfl
    rw [hrun]
    refine ⟨F \ {f}, hd₂, hsteps₁.trans (.setPage hsteps₁.own htab _), fun j => ?_, fun i => ?_,
      fun j hj hout hpj => ?_⟩
    · rw [hd₁.pte_setPte hp₁ (by decide), hpte]
      have : j = k ↔ k ≤ j ∧ j < k + 1 := by omega
      simp only [this]
    · rw [hd₁.pde_setPte hp₁, hpde]
    · have hjk : j ≠ k := by omega
      have hne : pteAddr (pte s d j) ≠ f := fun heq => hjk (h.page_inj hj hk hpj hpk heq)
      rw [Dir.setPte, setPage_mem_of_ne _ (by rw [hpde]; exact h.page_ne_table hj hpj hp),
        freed_mem_of_ne s hne]
  · rw [if_neg hpk]
    refine ⟨F, .nothing h ho fun j hj hj' => ?_⟩
    obtain rfl : j = k := by omega
    exact h.zero j (by simpa using hpk)

theorem deallocFrom_spec {oldsz : ℕ} (hold : oldsz ≤ KERNBASE) :
    ∀ (n lo : ℕ) (s : Phys) (F : Set ℕ), Dir s d F q → Owned K s F → npages oldsz - lo < n →
      Total (fun _ s' => ∃ F', Unmapped K s s' d F F' q lo (npages oldsz))
      (deallocFrom K d oldsz n (lo * PGSIZE) s) := by
  have hup := npages_le hold
  have hupages : upages = 2 ^ 19 := rfl
  intro n
  induction n with
  | zero => omega
  | succ n ih =>
    intro lo s F h ho hn
    rw [deallocFrom]
    by_cases hlo : lo * PGSIZE < oldsz
    · have hlt : lo < npages oldsz := lt_npages.2 hlo
      have hpage : lo * PGSIZE / PGSIZE = lo := Nat.mul_div_cancel lo (by decide)
      rw [if_pos hlo, bind_ok (walkpgdir_false hpage (by omega) s)]
      by_cases hp : present (pde s d (lo / 1024))
      · obtain ⟨_, s₁, heq, F₁, h₁⟩ := (unmap_spec h ho (k := lo) (by omega) hp).exists_ok
        have hnext : (lo * PGSIZE + PGSIZE) % 2 ^ 32 = (lo + 1) * PGSIZE := by
          simp only [PGSIZE]
          omega
        rw [if_pos hp]
        show Total _ ((unmap K _ >>= fun _ => _) s)
        rw [bind_ok heq, hnext]
        refine (ih (lo + 1) s₁ F₁ h₁.dir h₁.steps.own (by omega)).mono ?_
        rintro - s₂ ⟨F₂, h₂⟩
        exact ⟨F₂, h₁.trans h₂ (by omega) fun k _ _ => by omega⟩
      · -- no page table: on to the next one
        have hjump : pgaddr (pdx (lo * PGSIZE) + 1) 0 0 = (lo / 1024 + 1) * 1024 * PGSIZE := by
          rw [pdx_eq hpage (by omega)]
          simp only [pgaddr, zero_mul, Nat.or_zero, PGSIZE]
          omega
        have hzero : ∀ k, lo ≤ k → k < (lo / 1024 + 1) * 1024 → pte s d k = 0 := by
          intro k hk hk'
          refine pte_of_no_table ?_
          rwa [show k / 1024 = lo / 1024 by omega]
        rw [if_neg hp]
        show Total _ (deallocFrom K d oldsz n _ s)
        rw [hjump]
        refine (ih _ s F h ho (by omega)).mono ?_
        rintro - s₂ ⟨F₂, h₂⟩
        exact ⟨F₂, (Unmapped.nothing h ho hzero).trans h₂ (by omega) fun k hk hk' =>
          hzero k (by omega) hk'⟩
    · rw [if_neg hlo]
      refine ⟨F, .nothing h ho fun k hk hk' => ?_⟩
      have := lt_npages.1 hk'
      simp only [PGSIZE] at this hlo
      omega

theorem deallocuvm_spec {oldsz : ℕ} (hold : oldsz ≤ KERNBASE) (newsz : ℕ) (h : Dir s d F q)
    (ho : Owned K s F) : Total (fun r s' => r = (if oldsz ≤ newsz then oldsz else newsz) ∧
      ∃ F', Unmapped K s s' d F F' q (npages newsz) (npages oldsz)) (deallocuvm K d oldsz newsz
      s) := by
  rw [deallocuvm]
  by_cases hle : oldsz ≤ newsz
  · rw [if_pos hle, if_pos hle]
    have := npages_mono hle
    exact ⟨rfl, F, .nothing h ho fun k _ _ => by omega⟩
  · have hup := npages_le hold
    have hfuel : fuel = 2 ^ 20 := rfl
    have hupages : upages = 2 ^ 19 := rfl
    rw [if_neg hle, if_neg hle, pgroundup_eq (by omega)]
    refine (deallocFrom_spec hold fuel (npages newsz) s F h ho (by omega)).bind fun _ s₁ h₁ => ?_
    exact ⟨rfl, h₁⟩

/-! ## `freevm` -/

/-- The page tables of the entries from `i` on. -/
def tables (s : Phys) (d i : ℕ) :
    Set ℕ := { f | ∃ j, i ≤ j ∧ present (pde s d j) ∧ pteAddr (pde s d j) = f }

theorem freeTables_spec : ∀ (n i : ℕ) (s : Phys), i + n = NPDENTRIES →
    Owned K s (insert d (tables s d i)) → (∀ j, present (pde s d j) → pteAddr (pde s d j) ≠ d) →
    (∀ j j', present (pde s d j) → present (pde s d j') →
      pteAddr (pde s d j) = pteAddr (pde s d j') → j = j') →
      Total (fun _ s' => Steps K s s' (insert d (tables s d i)) {d}) (freeTables K d n i s) := by
  intro n
  induction n with
  | zero =>
    intro i s hi ho hd hinj
    have hnone : tables s d i = ∅ := by
      refine eq_empty_of_forall_notMem ?_
      rintro f ⟨j, hj, hp, -⟩
      rw [pde, entry_of_ge _ (show 1024 ≤ j by rw [NPDENTRIES] at hi; omega)] at hp
      exact Bool.noConfusion hp
    rw [hnone] at ho ⊢
    rw [insert_empty_eq] at ho ⊢
    exact .refl ho
  | succ n ih =>
    intro i s hi ho hd hinj
    rw [freeTables, load_bind]
    by_cases hp : present (pde s d i)
    · set t := pteAddr (pde s d i) with ht
      have hmem : t ∈ insert d (tables s d i) := .inr ⟨i, le_rfl, hp, rfl⟩
      have hpde : ∀ j, pde (s.freed t) d j = pde s d j := fun j => by
        rw [pde, freed_mem_of_ne s (hd i hp).symm, pde]
      have hrest : insert d (tables s d i) \ {t} = insert d (tables (s.freed t) d (i + 1)) := by
        ext g
        simp only [mem_sdiff, mem_insert_iff, mem_singleton_iff, tables, mem_ofPred_eq, hpde]
        constructor
        · rintro ⟨rfl | ⟨j, hj, hpj, rfl⟩, hne⟩
          · exact .inl rfl
          · refine .inr ⟨j, ?_, hpj, rfl⟩
            rcases lt_or_ge i j with hlt | hge
            · exact hlt
            · obtain rfl : j = i := by omega
              exact absurd rfl hne
        · rintro (rfl | ⟨j, hj, hpj, rfl⟩)
          · exact ⟨.inl rfl, fun heq => hd i hp heq.symm⟩
          · refine ⟨.inr ⟨j, by omega, hpj, rfl⟩, fun heq => ?_⟩
            have := hinj j i hpj hp heq
            omega
      have hsteps := Steps.freed ho hmem
      rw [hrest] at hsteps
      rw [show entry (s.mem d) i = pde s d i from rfl, if_pos hp, bind_ok (kfree_eq ho hmem)]
      refine (ih (i + 1) (s.freed t) (by omega) hsteps.own ?_ ?_).mono fun _ s₂ h₂ =>
        hsteps.trans h₂
      · intro j hj
        rw [hpde] at hj ⊢
        exact hd j hj
      · intro j j' hj hj' heq
        rw [hpde] at hj hj' heq
        rw [hpde] at heq
        exact hinj j j' hj hj' heq
    · have hrest : tables s d i = tables s d (i + 1) := by
        ext g
        constructor
        · rintro ⟨j, hj, hpj, rfl⟩
          refine ⟨j, ?_, hpj, rfl⟩
          rcases lt_or_ge i j with hlt | hge
          · exact hlt
          · obtain rfl : j = i := by omega
            exact absurd hpj hp
        · rintro ⟨j, hj, hpj, rfl⟩
          exact ⟨j, by omega, hpj, rfl⟩
      rw [show entry (s.mem d) i = pde s d i from rfl, if_neg hp, hrest]
      rw [hrest] at ho
      exact ih (i + 1) s (by omega) ho hd hinj

theorem freevm_spec (h : Dir s d F q) (ho : Owned K s F) :
    Total (fun _ s' => Steps K s s' F ∅) (freevm K d s) := by
  rw [freevm, if_neg h.dir_ne]
  refine (deallocuvm_spec le_rfl 0 h ho).bind fun r s₁ ⟨_, F₁, h₁⟩ => ?_
  have hempty : ∀ k < upages, pte s₁ d k = 0 := by
    intro k hk
    rw [h₁.pte]
    exact if_pos ⟨zero_le k, hk⟩
  have hF₁ : F₁ = insert d (tables s₁ d 0) := by
    ext g
    rw [h₁.dir.exact.mem_iff]
    constructor
    · rintro ⟨hg, p, rfl⟩
      cases p with
      | dir => exact .inl rfl
      | table i =>
        by_cases hp : present (pde s₁ d i)
        · exact .inr ⟨i, zero_le i, hp, (Dir.place_table hp).symm⟩
        · exact absurd (if_neg hp) hg
      | page k =>
        have hnone : ¬ (k < upages ∧ present (pte s₁ d k)) := by
          rintro ⟨hk, hp⟩
          rw [hempty k hk] at hp
          exact Bool.noConfusion hp
        exact absurd (if_neg hnone) hg
    · rintro (rfl | ⟨i, -, hp, rfl⟩)
      · exact ⟨h₁.dir.dir_ne, .dir, rfl⟩
      · exact ⟨h₁.dir.table_ne i hp, .table i, Dir.place_table hp⟩
  have hown := h₁.steps.own
  rw [hF₁] at hown
  refine (freeTables_spec NPDENTRIES 0 s₁ rfl hown (fun j hj => h₁.dir.table_ne_dir hj)
    fun j j' hj hj' => h₁.dir.table_inj hj hj').bind fun _ s₂ h₂ => ?_
  have hsteps := h₁.steps
  rw [hF₁] at hsteps
  have hlast := Steps.freed h₂.own (mem_singleton d)
  rw [sdiff_self] at hlast
  rw [kfree_eq h₂.own (mem_singleton d)]
  exact (hsteps.trans h₂).trans hlast

/-! ## `setupkvm` -/

/-- A row of `kmap` maps page `k`. -/
def Kmap.Covers (m : Kmap) (k : ℕ) : Prop := m.virt ≤ k * PGSIZE ∧ k * PGSIZE < m.virt + m.size

instance (m : Kmap) (k : ℕ) : Decidable (m.Covers k) := inferInstanceAs (Decidable (_ ∧ _))

/-- The entries `q`, and those that one row of `kmap` asks for. -/
def Kmap.map (m : Kmap) (q : ℕ → ℕ) : ℕ → ℕ := fun k =>
  if m.Covers k then m.physStart + (k * PGSIZE - m.virt) ||| m.perm ||| PTE_P
  else q k

/-- The entries of the kernel part. -/
def kernelEntry (K : Link) : ℕ → ℕ := (kmap K).foldl (fun q m => m.map q) fun _ => 0

/-- Whole pages of the kernel part, and of the physical addresses. -/
structure Kmap.Ok (m : Kmap) : Prop where
  virt : m.virt % PGSIZE = 0
  phys : m.physStart % PGSIZE = 0
  size : m.size % PGSIZE = 0
  pos : 0 < m.size
  low : KERNBASE ≤ m.virt
  high : m.virt + m.size ≤ 2 ^ 32
  physHigh : m.physStart + m.size ≤ 2 ^ 32
  perm : m.perm < PGSIZE

theorem mappages_kernel {m : Kmap} (hm : m.Ok) (h : Dir s d F q) (ho : Owned K s F)
    (hq : ∀ k, m.Covers k → q k = 0) :
    Total (fun r s' => ∃ F' q', Dir s' d F' q' ∧ Steps K s s' F F' ∧
      (∀ j < upages, pte s' d j = pte s d j) ∧ TablesFor s s' d m.Covers ∧
      (r = -1 ∧ ¬ Rich s d 0 ∨ r = 0 ∧ (∀ n, Rich s d n → Rich s' d n) ∧ q' = m.map q)) (mappages d
      m.virt m.size m.physStart m.perm s) := by
  obtain ⟨hvirt, hphys, hsize, hpos, hlow, hhigh, hphysHigh, hperm⟩ := hm
  -- in pages: `n` of them, from `k` on, to those from `c` on
  obtain ⟨k, hk⟩ : ∃ k, m.virt = k * PGSIZE := ⟨m.virt / PGSIZE, by simp only [PGSIZE] at *; omega⟩
  obtain ⟨c, hc⟩ : ∃ c, m.physStart = c * PGSIZE :=
    ⟨m.physStart / PGSIZE, by simp only [PGSIZE] at *; omega⟩
  obtain ⟨n, hn⟩ : ∃ n, m.size = (n + 1) * PGSIZE :=
    ⟨m.size / PGSIZE - 1, by simp only [PGSIZE] at *; omega⟩
  rw [hk, hn] at hhigh
  rw [hc, hn] at hphysHigh
  rw [hk] at hlow
  have hlast : pgrounddown ((k * PGSIZE + (n + 1) * PGSIZE + 2 ^ 32 - 1) % 2 ^ 32) = (k + n) *
    PGSIZE := by
    simp only [pgrounddown, PGSIZE] at *
    omega
  have hup : upages ≤ k := by
    simp only [upages, PGSIZE, KERNBASE] at *
    omega
  have hbound : k + n < 2 ^ 20 ∧ c + n < 2 ^ 20 := by
    simp only [PGSIZE] at hhigh hphysHigh
    omega
  have hin : ∀ j, m.Covers j ↔ k ≤ j ∧ j ≤ k + n := by
    intro j
    rw [Kmap.Covers, hk, hn]
    simp only [PGSIZE]
    omega
  have hzero : ∀ j, k ≤ j → j ≤ k + n → q j = 0 := fun j hj hj' => hq j ((hin j).2 ⟨hj, hj'⟩)
  rw [mappages, hk, hn, hc, hlast, pgrounddown_page]
  refine (mappagesFrom_kernel hperm _ n fuel k c s F q h ho hup hbound.1 hbound.2 rfl hzero
    (by rw [fuel]; omega)).mono ?_
  rintro r s' ⟨F', q', hd, hsteps, hpte, htables, hr⟩
  refine ⟨F', q', hd, hsteps, hpte, fun i hi => htables i fun j hj => hi j ((hin j).2 hj),
    hr.imp_right fun hr => ⟨hr.1, hr.2.1, funext fun j => ?_⟩⟩
  rw [hr.2.2, Kmap.map, hk, hc]
  simp only [hin]
  split_ifs with hj
  · rw [show (c + (j - k)) * PGSIZE = c * PGSIZE +
      (j * PGSIZE - k * PGSIZE) by simp only [PGSIZE] at *; omega]
  · rfl

theorem mapKernel_spec : ∀ (ms : List Kmap) (s : Phys) (F : Set ℕ) (q : ℕ → ℕ), Dir s d F q →
    Owned K s F → (∀ m ∈ ms, m.Ok) → ms.Pairwise (fun a b => a.virt + a.size ≤ b.virt) →
    (∀ m ∈ ms, ∀ k, m.Covers k → q k = 0) →
    Total (fun r s' => ∃ F' q', Dir s' d F' q' ∧ Steps K s s' F F' ∧
      (∀ j < upages, pte s' d j = pte s d j) ∧ TablesFor s s' d (fun k => ∃ m ∈ ms, m.Covers k) ∧
      (r = false → ¬ Rich s d 0) ∧
      (r → (∀ n, Rich s d n → Rich s' d n) ∧ q' = ms.foldl (fun q m => m.map q) q)) (mapKernel d ms
      s) := by
  intro ms
  induction ms with
  | nil =>
    intro s F q h ho _ _ _
    exact ⟨F, q, h, .refl ho, fun _ _ => rfl, fun _ _ => rfl, fun hr => Bool.noConfusion hr,
      fun _ => ⟨fun _ => id, rfl⟩⟩
  | cons m ms ih =>
    intro s F q h ho hok hapart hq
    rw [pairwise_cons] at hapart
    rw [mapKernel]
    refine (mappages_kernel (hok m mem_cons_self) h ho (hq m mem_cons_self)).bind ?_
    rintro r s₁ ⟨F₁, q₁, hd₁, hsteps₁, hpte₁, htables₁, ⟨rfl, hpoor⟩ | ⟨rfl, hrich, rfl⟩⟩
    · exact ⟨F₁, q₁, hd₁, hsteps₁, hpte₁, fun i hi => htables₁ i fun j hj =>
        hi j ⟨m, mem_cons_self, hj⟩, fun _ => hpoor, fun hr => Bool.noConfusion hr⟩
    · refine (ih s₁ F₁ (m.map q) hd₁ hsteps₁.own (fun m' hm' => hok m' (mem_cons_of_mem m hm'))
        hapart.2 fun m' hm' k hk => ?_).mono ?_
      · have := hapart.1 m' hm'
        have hnot : ¬ m.Covers k := fun h => by
          have h₁ := h.2
          have h₂ := hk.1
          omega
        rw [Kmap.map, if_neg hnot]
        exact hq m' (mem_cons_of_mem m hm') k hk
      · rintro r s₂ ⟨F₂, q₂, hd₂, hsteps₂, hpte₂, htables₂, hpoor₂, hq₂⟩
        exact ⟨F₂, q₂, hd₂, hsteps₁.trans hsteps₂, fun j hj => (hpte₂ j hj).trans (hpte₁ j hj),
          htables₁.trans htables₂ (fun j hj => ⟨m, mem_cons_self, hj⟩)
            (fun j ⟨m', hm', hj⟩ => ⟨m', mem_cons_of_mem m hm', hj⟩),
          fun hr h => hpoor₂ hr (hrich 0 h),
          fun hr => ⟨fun n h => (hq₂ hr).1 n (hrich n h), (hq₂ hr).2⟩⟩

theorem kmap_ok (K : Link) : ∀ m ∈ kmap K, m.Ok := by
  have h₁ := K.data_page
  have h₂ := K.link_lt
  have h₃ := K.data_lt
  have h₄ := K.end_le
  simp only [PGSIZE, KERNLINK, EXTMEM, KERNBASE, PHYSTOP] at h₁ h₂ h₄
  intro m hm
  simp only [kmap, mem_cons, not_mem_nil, or_false] at hm
  rcases hm with rfl | rfl | rfl | rfl
  all_goals
    constructor <;>
      simp only [Kmap.size, v2p, PGSIZE, KERNLINK, EXTMEM, KERNBASE, PHYSTOP, DEVSPACE, PTE_W] <;>
        omega

theorem kmap_apart (K : Link) : (kmap K).Pairwise fun a b => a.virt + a.size ≤ b.virt := by
  have h₁ := K.data_page
  have h₂ := K.link_lt
  have h₃ := K.data_lt
  have h₄ := K.end_le
  simp only [PGSIZE, KERNLINK, EXTMEM, KERNBASE, PHYSTOP] at h₁ h₂ h₄
  simp only [kmap, pairwise_cons, mem_cons, not_mem_nil, or_false, forall_eq_or_imp, forall_eq,
    Kmap.size, v2p, KERNLINK, EXTMEM, KERNBASE, PHYSTOP, DEVSPACE]
  refine ⟨⟨?_, ?_, ?_⟩, ⟨?_, ?_⟩, ?_, ?_⟩
  all_goals first
    | omega
    | simp

theorem pde_of_zero (hmem : s.mem d = fun _ => 0) (i : ℕ) :
    pde s d i = 0 := by rw [pde, hmem, entry_zero]

theorem pte_of_zero (hmem : s.mem d = fun _ => 0) (k : ℕ) : pte s d k = 0 := by
  refine if_neg ?_
  rw [pde_of_zero hmem]
  exact Bool.noConfusion

theorem Dir.empty (hd : d ≠ 0) (hmem : s.mem d = fun _ => 0) : Dir s d {d} fun _ => 0 := by
  have hpde := pde_of_zero hmem
  have hpte := pte_of_zero hmem
  refine ⟨⟨fun a b ha hab => ?_, fun g => ?_⟩, hd, fun i hi => ?_, fun k _ hk => ?_,
    fun k _ => hpte k, fun k _ => hpte k⟩
  · cases a <;> cases b <;> simp_all [place, not_present_zero]
  · rw [mem_singleton_iff]
    constructor
    · rintro rfl
      exact ⟨hd, .dir, rfl⟩
    · rintro ⟨hg, p, rfl⟩
      cases p <;> simp_all [place, not_present_zero]
  · rw [hpde] at hi
    exact Bool.noConfusion hi
  · rw [hpte] at hk
    exact Bool.noConfusion hk

/-- `setupkvm` gives a new directory with the kernel part and nothing else, or no page is lost. -/
theorem setupkvm_spec (ho : Owned K s ∅) :
    Total (fun r s' => (r = none ∧ Steps K s s' ∅ ∅ ∧
      ¬ (s.refuse = [] ∧ NPDENTRIES < s.freelist.length)) ∨ ∃ d F, r = some d ∧
      Dir s' d F (kernelEntry K) ∧ Steps K s s' ∅ F ∧ (∀ k < upages, pte s' d k = 0) ∧
      (∀ i, (∀ k, (∃ m ∈ kmap K, m.Covers k) → k / 1024 ≠ i) → pde s' d i = 0) ∧
      (∀ n, s.refuse = [] → NPDENTRIES + n < s.freelist.length → Rich s' d n) ∧
      s.freelist.head? = some d) (setupkvm K s) := by
  rw [setupkvm]
  refine (kalloc_spec ho).bind fun r s₁ hr => ?_
  rcases hr with ⟨rfl, hq, hempty⟩ | ⟨d, rfl, hd, -, -, hsteps, hfree, hrefuse⟩
  · refine .inl ⟨rfl, hq.steps ho, fun ⟨hr, hlen⟩ => ?_⟩
    rw [hempty hr] at hlen
    exact not_lt_zero _ hlen
  · rw [insert_empty_eq] at hsteps
    have hdir : Dir (s₁.setPage d fun _ => 0) d {d} fun _ => 0 :=
      .empty (avail_ne_zero hd) (setPage_mem_self s₁ d _)
    have hsteps₂ := hsteps.trans (.setPage hsteps.own (mem_singleton d) fun _ => 0)
    show Total _ ((memset d 0 >>= fun _ => _) s₁)
    rw [memset_bind, if_neg (by decide)]
    refine (mapKernel_spec (kmap K) _ {d} _ hdir hsteps₂.own (kmap_ok K) (kmap_apart K) fun _ _ _
      _ => rfl).bind ?_
    rintro mapped s₃ ⟨F₃, q₃, hd₃, hsteps₃, hpte₃, htables₃, hpoor, hq₃⟩
    have hrich : ∀ n, s.refuse = [] → NPDENTRIES + n < s.freelist.length →
      Rich (s₁.setPage d fun _ => 0) d n := by
      intro n hr hlen
      rw [hfree, length_cons] at hlen
      have hle : absent (s₁.setPage d fun _ => 0) d ≤ NPDENTRIES :=
        (Finset.card_filter_le _ _).trans_eq (Finset.card_range _)
      refine ⟨hrefuse.trans (by rw [hr]; rfl), ?_⟩
      show _ ≤ s₁.freelist.length
      omega
    cases mapped with
    | false =>
      refine (freevm_spec hd₃ hsteps₃.own).bind fun _ s₄ hsteps₄ => ?_
      exact .inl ⟨rfl, (hsteps₂.trans hsteps₃).trans hsteps₄,
        fun ⟨hr, hlen⟩ => hpoor rfl (hrich 0 hr hlen)⟩
    | true =>
      obtain ⟨hrich₃, rfl⟩ := hq₃ rfl
      refine .inr ⟨d, F₃, rfl, hd₃, hsteps₂.trans hsteps₃, fun k hk => ?_, fun i hi => ?_,
        fun n hr hlen => hrich₃ n (hrich n hr hlen), by rw [hfree]; rfl⟩
      · rw [hpte₃ k hk, pte_of_zero (setPage_mem_self s₁ d _)]
      · rw [htables₃ i hi, pde_of_zero (setPage_mem_self s₁ d _)]

/-! ## `allocuvm` -/

/-- The pages from `lo` to `hi` are mapped to new pages of zeros that user code may write, and
nothing else changes. -/
structure Mapped (K : Link) (s s' : Phys) (d : ℕ) (F F' : Set ℕ) (q : ℕ → ℕ) (lo hi : ℕ) :
Prop where
  dir : Dir s' d F' q
  steps : Steps K s s' F F'
  out : ∀ k, ¬ (lo ≤ k ∧ k < hi) → pte s' d k = pte s d k
  new : ∀ k, lo ≤ k → k < hi →
    present (pte s' d k) ∧ pteFlags (pte s' d k) = PTE_W ||| PTE_U ||| PTE_P ∧
    page s' d k = fun _ => 0
  keeps : Keeps s s' d
  tables : TablesFor s s' d fun k => lo ≤ k ∧ k < hi

namespace Mapped

theorem nothing (h : Dir s d F q) (ho : Owned K s F) (hle : hi ≤ lo) : Mapped K s s d F F q lo hi :=
  ⟨h, .refl ho, fun _ _ => rfl, fun _ _ _ => by omega, .refl, fun _ _ => rfl⟩

theorem trans (h₁ : Mapped K s s' d F F' q lo mid) (h₂ : Mapped K s' s'' d F' F'' q mid hi)
    (hnone : ∀ k, lo ≤ k → k < mid → pte s d k = 0) (hlo : lo ≤ mid) (hhi : mid ≤ hi)
    (hup : hi ≤ upages) : Mapped K s s'' d F F'' q lo hi where
  dir := h₂.dir
  steps := h₁.steps.trans h₂.steps
  out k hk := by rw [h₂.out k (by omega), h₁.out k (by omega)]
  new k hk hk' := by
    rcases lt_or_ge k mid with hlt | hge
    · have hsame := h₂.out k (by omega)
      obtain ⟨hp, hflags, hpage⟩ := h₁.new k hk hlt
      rw [hsame]
      refine ⟨hp, hflags, ?_⟩
      rw [page, hsame, h₂.keeps.pages k (by omega) hp]
      exact hpage
    · exact h₂.new k hge hk'
  keeps := h₁.keeps.trans h₂.keeps fun k hp => h₁.out k fun ⟨hk, hk'⟩ => by
    rw [hnone k hk hk'] at hp
    exact Bool.noConfusion hp
  tables := h₁.tables.trans h₂.tables (fun _ hj => ⟨hj.1, by omega⟩) fun _ hj => ⟨by omega, hj.2⟩

end Mapped

theorem mapZero_spec (h : Dir s d F q) (ho : Owned K s F) (hk : k < upages) :
    Total (fun r s₁ => (r = none ∧ Quiet s s₁ ∧ ¬ Rich s d 1) ∨ ∃ f, r = some f ∧ f ∉ F ∧
      Steps K s s₁ F (insert f F) ∧ Sat (fun e _ => e = .remap ∧ pte s d k ≠ 0)
        (fun r s₂ => (r = -1 ∧ Dir s₂ d F q ∧ (∀ j, pte s₂ d j = pte s d j) ∧
      Steps K s s₂ F (insert f F) ∧ Keeps s s₂ d ∧ ¬ Rich s d 1)
          ∨ pte s d k = 0 ∧ (∀ n, Rich s d (n + 1) → Rich s₂ d n) ∧ ∃ F', r = 0 ∧
      Mapped K s s₂ d F F' q k (k + 1)) (mappages d (k * PGSIZE) PGSIZE (f * PGSIZE)
      (PTE_W ||| PTE_U) (s₁.setPage f fun _ => 0))) (kalloc s) := by
  refine (kalloc_spec ho).mono fun r s₁ hr => ?_
  rcases hr with ⟨rfl, hq, hempty⟩ | ⟨f, rfl, hf, hfF, hmem, hsteps, hfree, hrefuse⟩
  · exact .inl ⟨rfl, hq, not_rich_of_empty hempty⟩
  refine .inr ⟨f, rfl, hfF, hsteps, ?_⟩
  set s₂ := s₁.setPage f fun _ => 0 with hs₂
  have hmem₂ : ∀ g ∈ F, s₂.mem g = s.mem g := by
    intro g hg
    rw [hs₂, setPage_mem_of_ne s₁ (fun heq : g = f => hfF (heq ▸ hg)), hmem]
  have hd₂ : Dir s₂ d F q := h.congr hmem₂
  have hpte₂ := h.pte_congr hmem₂
  have hkeeps₂ : Keeps s s₂ d :=
    ⟨fun j hj hp => hmem₂ _ (h.mem_page hj hp), fun i _ => h.pde_congr hmem₂ i⟩
  have hsteps₂ : Steps K s s₂ F (insert f F) :=
    hsteps.trans (.setPage hsteps.own (mem_insert f F) _)
  have hrich₂ : ∀ n, Rich s d (n + 1) → Rich s₂ d n :=
    fun n hr => hr.take (h.pde_congr hmem₂) hfree hrefuse
  rcases Nat.eq_zero_or_pos (pte s d k) with hnone | hpos
  swap
  · have hp : present (pte s₂ d k) := by
      by_contra hn
      have := h.zero k (by rw [← hpte₂]; simpa using hn)
      omega
    rw [mappages_remap (hk.trans (by decide)) hp]
    exact ⟨rfl, by omega⟩
  refine ((mappages_user hd₂ hsteps₂.own hfF hk (by rw [hpte₂, hnone]) (by decide)).weaken
    fun _ _ hf => hf.elim).mono fun r s₃ hr => ?_
  rcases hr with ⟨rfl, hq, hpoor⟩ | ⟨F', rfl, hd₃, hsteps₃, hpte₃, hkeeps₃, hmem₃, hrich₃, htables₃⟩
  · refine .inl ⟨rfl, hq.dir hd₂, fun j => ?_, hsteps₂.trans (hq.steps hsteps₂.own), ?_,
      fun hr => hpoor (hrich₂ 0 hr)⟩
    · rw [hd₂.pte_congr (fun g _ => by rw [hq.mem]), hpte₂]
    · exact hkeeps₂.trans hq.keeps fun j _ => hpte₂ j
  · refine .inr ⟨hnone, fun n hr => hrich₃ n (hrich₂ n hr), F', rfl, hd₃, hsteps₂.trans hsteps₃,
      fun j hj => ?_, fun j hj hj' => ?_, ?_, fun i hi => ?_⟩
    · rw [hpte₃, if_neg (by omega), hpte₂]
    · obtain rfl : j = k := by omega
      rw [page, hpte₃, if_pos rfl, pteAddr_entry (by decide), hmem₃]
      exact ⟨present_entry _ _, pteFlags_entry (by decide), setPage_mem_self s₁ f _⟩
    · exact hkeeps₂.trans hkeeps₃ fun j _ => hpte₂ j
    · rw [htables₃ i fun j hj => hi j (by omega), h.pde_congr hmem₂]

/-- Memory ran out: nothing is mapped from `lo` to `hi`, and the rest is as before. -/
structure Reverted (s s' : Phys) (d lo hi : ℕ) : Prop where
  pte : ∀ k, pte s' d k = if lo ≤ k ∧ k < hi then 0 else pte s d k
  pages : ∀ k < upages, ¬ (lo ≤ k ∧ k < hi) → present (Vm.pte s d k) →
    s'.mem (pteAddr (Vm.pte s d k)) = s.mem (pteAddr (Vm.pte s d k))
  tables : ∀ i, present (pde s d i) → pde s' d i = pde s d i

theorem Unmapped.reverted (h : Unmapped K s s' d F F' q lo hi) : Reverted s s' d lo hi :=
  ⟨h.pte, h.keeps, fun i _ => h.pde i⟩

namespace Reverted

theorem after (h : Reverted s' s'' d lo hi)
    (hout : ∀ k, ¬ (lo ≤ k ∧ k < hi) → Vm.pte s' d k = Vm.pte s d k) (hkeeps : Keeps s s' d) :
    Reverted s s'' d lo hi where
  pte k := by
    rw [h.pte]
    split_ifs with hk
    · rfl
    · exact hout k hk
  pages k hk hnot hp := by
    have := h.pages k hk hnot (by rw [hout k hnot]; exact hp)
    rw [hout k hnot] at this
    rw [this, hkeeps.pages k hk hp]
  tables i hp := by rw [h.tables i (by rw [hkeeps.tables i hp]; exact hp), hkeeps.tables i hp]

theorem congr (h : Reverted s s' d lo hi) (hd : Dir s' d F q)
    (hmem : ∀ f ∈ F, s''.mem f = s'.mem f) : Reverted s s'' d lo hi where
  pte k := by rw [hd.pte_congr hmem, h.pte]
  pages k hk hnot hp := by
    have hsame : Vm.pte s' d k = Vm.pte s d k := by rw [h.pte, if_neg hnot]
    have hin := hd.mem_page hk (by rw [hsame]; exact hp)
    rw [hsame] at hin
    rw [hmem _ hin, h.pages k hk hnot hp]
  tables i hp := by rw [hd.pde_congr hmem, h.tables i hp]

end Reverted

section

variable {oldsz newsz : ℕ} (hnew : newsz < KERNBASE) (hle : oldsz ≤ newsz)

include hnew hle

theorem allocFrom_spec :
    ∀ (n lo : ℕ) (s : Phys) (F : Set ℕ), Dir s d F q → Owned K s F → npages oldsz ≤ lo →
      lo ≤ npages newsz → npages newsz - lo < n →
      Sat (fun e _ => e = .remap ∧ ∃ k, lo ≤ k ∧ k < npages newsz ∧ pte s d k ≠ 0)
        (fun r s' => (r = newsz ∧ (∀ m, Rich s d (npages newsz - lo + m) → Rich s' d m) ∧
            ∃ F', Mapped K s s' d F F' q lo (npages newsz)) ∨
          (r = 0 ∧ ¬ Rich s d (npages newsz - lo) ∧ Reverted s s' d (npages oldsz) (npages newsz) ∧
            ∃ F', Dir s' d F' q ∧ Steps K s s' F F')) (allocFrom K d oldsz newsz n (lo * PGSIZE)
      s) := by
  have hup := npages_le (show newsz ≤ KERNBASE by omega)
  have hupages : upages = 2 ^ 19 := rfl
  intro n
  induction n with
  | zero => omega
  | succ n ih =>
    intro lo s F h ho hlo hhi hn
    rw [allocFrom]
    by_cases hlt : lo * PGSIZE < newsz
    · have hlo' : lo < npages newsz := lt_npages.2 hlt
      rw [if_pos hlt]
      refine ((mapZero_spec h ho (k := lo) (by omega)).weaken fun _ _ hf => hf.elim).bind fun r s₁
        hr => ?_
      rcases hr with ⟨rfl, hq, hpoor⟩ | ⟨f, rfl, hfF, hsteps₁, hmap⟩
      · -- no page
        refine ((deallocuvm_spec (by omega) oldsz (hq.dir h) (hq.steps ho).own).weaken fun _ _ hf =>
          hf.elim).bind ?_
        rintro - s₂ ⟨-, F₂, h₂⟩
        have hpte : ∀ k, pte s₁ d k = pte s d k := h.pte_congr fun g _ => by rw [hq.mem]
        exact .inr ⟨rfl, fun hr => hpoor (hr.mono (by omega)),
          h₂.reverted.after (fun k _ => hpte k) hq.keeps, F₂, h₂.dir,
          (hq.steps ho).trans h₂.steps⟩
      · show Sat _ _ ((memset f 0 >>= fun _ => _) s₁)
        rw [memset_bind]
        refine (hmap.weaken fun e _ he => ⟨he.1, lo, le_rfl, hlo', he.2⟩).bind fun r s₂ hr => ?_
        rcases hr with ⟨rfl, hd₂, hpte₂, hsteps₂, hkeeps₂, hpoor⟩ | ⟨hnone, hrich₂, F₂, rfl, h₂⟩
        · -- no page table: what was mapped goes back, and the new page after it
          have hside : ∀ g ∈ ({f} : Set ℕ), g ∉ F := by
            rintro g rfl
            exact hfF
          have hown : Owned K s₂ (F ∪ {f}) := by
            rw [union_singleton]
            exact hsteps₂.own
          rw [if_pos (by decide)]
          refine ((deallocuvm_spec (by omega) oldsz hd₂ (hown.mono subset_union_left)).weaken fun _
            _ hf => hf.elim).bind ?_
          rintro - s₃ ⟨-, F₃, h₃⟩
          have hsteps₃ := h₃.steps.beside hown hside
          have hf₃ : f ∉ F₃ := h₃.steps.disjoint hown hside f rfl
          have hfmem : f ∈ F₃ ∪ {f} := .inr rfl
          have hsteps₄ := Steps.freed hsteps₃.own hfmem
          rw [show (F₃ ∪ {f}) \ {f} = F₃ by simp [hf₃]] at hsteps₄
          have hmem₄ : ∀ g ∈ F₃, (s₃.freed f).mem g = s₃.mem g := fun g hg =>
            freed_mem_of_ne s₃ fun heq : g = f => hf₃ (heq ▸ hg)
          rw [bind_ok (kfree_eq hsteps₃.own hfmem)]
          rw [union_singleton] at hsteps₃
          exact .inr ⟨rfl, fun hr => hpoor (hr.mono (by omega)),
            (h₃.reverted.after (fun k _ => hpte₂ k) hkeeps₂).congr h₃.dir hmem₄, F₃,
            h₃.dir.congr hmem₄,
            (hsteps₂.trans hsteps₃).trans hsteps₄⟩
        · have hnext : (lo * PGSIZE + PGSIZE) % 2 ^ 32 = (lo + 1) * PGSIZE := by
            simp only [PGSIZE]
            omega
          have hlo₂ : ∀ k, lo ≤ k → k < lo + 1 → pte s d k = 0 := fun k hk hk' => by
            obtain rfl : k = lo := by omega
            exact hnone
          rw [if_neg (by decide), hnext]
          refine ((ih (lo + 1) s₂ F₂ h₂.dir h₂.steps.own (by omega) hlo' (by omega)).weaken ?_).mono
            ?_
          · rintro e - ⟨he, k, hk, hk', hne⟩
            rw [h₂.out k (by omega)] at hne
            exact ⟨he, k, by omega, hk', hne⟩
          rintro r s₃ (⟨rfl, hrich₃, F₃, h₃⟩ | ⟨rfl, hpoor, h₃, F₃, hd₃, hsteps₃⟩)
          · exact .inl ⟨rfl, fun m hr => hrich₃ m (hrich₂ _ (hr.mono (by omega))), F₃,
              h₂.trans h₃ hlo₂ (by omega) hlo' hup⟩
          · exact .inr ⟨rfl, fun hr => hpoor (hrich₂ _ (hr.mono (by omega))),
              h₃.after (fun k hk => h₂.out k (by omega)) h₂.keeps,
              F₃, hd₃, h₂.steps.trans hsteps₃⟩
    · rw [if_neg hlt]
      have : ¬ lo < npages newsz := fun hc => hlt (lt_npages.1 hc)
      exact .inl ⟨rfl, fun m hr => hr.mono (by omega), F, .nothing h ho (by omega)⟩

/-- `allocuvm`: all pages or none, or it meets a page that is mapped. -/
theorem allocuvm_sat (h : Dir s d F q) (ho : Owned K s F) :
    Sat (fun e _ => e = .remap ∧ ∃ k, npages oldsz ≤ k ∧ k < npages newsz ∧ pte s d k ≠ 0)
      (fun r s' => (r = newsz ∧ (∀ m, Rich s d (npages newsz - npages oldsz + m) → Rich s' d m) ∧
          ∃ F', Mapped K s s' d F F' q (npages oldsz) (npages newsz)) ∨
        (r = 0 ∧ ¬ Rich s d (npages newsz - npages oldsz) ∧
      Reverted s s' d (npages oldsz) (npages newsz) ∧ ∃ F', Dir s' d F' q ∧ Steps K s s' F F'))
      (allocuvm K d oldsz newsz s) := by
  have hup := npages_le (show newsz ≤ KERNBASE by omega)
  have hupages : upages = 2 ^ 19 := rfl
  have hfuel : fuel = 2 ^ 20 := rfl
  rw [allocuvm, if_neg (by omega), if_neg (by omega), pgroundup_eq (by omega)]
  exact allocFrom_spec hnew hle fuel (npages oldsz) s F h ho le_rfl (npages_mono hle) (by omega)

theorem allocuvm_spec (h : Dir s d F q)
    (ho : Owned K s F) (hnone : ∀ k, npages oldsz ≤ k → k < npages newsz → pte s d k = 0) :
    Total (fun r s' => (r = newsz ∧
      (∀ m, Rich s d (npages newsz - npages oldsz + m) → Rich s' d m) ∧
      ∃ F', Mapped K s s' d F F' q (npages oldsz) (npages newsz)) ∨ (r = 0 ∧
      ¬ Rich s d (npages newsz - npages oldsz) ∧ Reverted s s' d (npages oldsz) (npages newsz) ∧
      ∃ F', Dir s' d F' q ∧ Steps K s s' F F')) (allocuvm K d oldsz newsz s) :=
  (allocuvm_sat hnew hle h ho).weaken fun _ _ ⟨_, k, hk, hk', hne⟩ => hne (hnone k hk hk')

end

end Xv6.Vm
