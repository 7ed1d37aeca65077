import Xv6.Vm.Ownership
import Mathlib.Data.Finset.Card

/-!
# Mapping and unmapping pages

What `kalloc`, `kfree`, `walkpgdir`, `mappages`, `deallocuvm`, `freevm` and `setupkvm` do to a
directory: the entries that change (`pte`), the pages that move (`Steps`), and that the pages mapped
below `KERNBASE` keep their bytes (`Keeps`).  None of them panics on a `Dir`.
-/

namespace Xv6.Vm

open LittleEndian Fallible Finset Set
open UserMemory (pgroundup)

variable {K : Link} {s s' s'' : Phys} {d f k i e va : ℕ} {F G G' : Set ℕ} {q : ℕ → ℕ}

/-! ## Pages of a size -/

/-- The number of pages of the first `sz` bytes. -/
def npages (sz : ℕ) : ℕ := (sz + PGSIZE - 1) / PGSIZE

theorem lt_npages {sz k : ℕ} : k < npages sz ↔ k * PGSIZE < sz := by
  simp only [npages, PGSIZE]
  omega

theorem pgroundup_eq {sz : ℕ} (h : sz ≤ KERNBASE) : pgroundup sz = npages sz * PGSIZE := by
  simp only [pgroundup, npages, PGSIZE, KERNBASE] at *
  omega

theorem npages_le {sz : ℕ} (h : sz ≤ KERNBASE) : npages sz ≤ upages := by
  simp only [npages, upages, PGSIZE, KERNBASE] at *
  omega

theorem npages_mono {a b : ℕ} (h : a ≤ b) : npages a ≤ npages b := by
  simp only [npages, PGSIZE]
  omega

theorem npages_page (k : ℕ) : npages (k * PGSIZE) = k := by
  simp only [npages, PGSIZE]
  omega

/-! ## Allocation -/

/-- Nothing but the pattern of failures has changed. -/
structure Quiet (s s' : Phys) : Prop where
  heap : s'.toHeap = s.toHeap
  cr3 : s'.cr3 = s.cr3

theorem Quiet.mem (h : Quiet s s') : s'.mem = s.mem := congrArg Heap.mem h.heap

theorem Quiet.steps (h : Quiet s s') (ho : Owned K s G) : Steps K s s' G G where
  own := by
    rw [h.heap]
    exact ho
  total f := by rw [h.heap]
  frame f _ _ := by rw [h.heap]
  cr3 := h.cr3

theorem Quiet.dir (h : Quiet s s') (hd : Dir s d F q) : Dir s' d F q :=
  hd.congr fun f _ => by rw [h.mem]

theorem kalloc_spec (ho : Owned K s G) :
    Total (fun r s' => (r = none ∧ Quiet s s' ∧ (s.refuse = [] → s.freelist = [])) ∨
      ∃ f, r = some f ∧ f ∈ Avail K ∧ f ∉ G ∧ s'.mem = s.mem ∧ Steps K s s' G (insert f G) ∧
        s.freelist = f :: s'.freelist ∧ s'.refuse = s.refuse.tail) (kalloc s) := by
  unfold kalloc
  split_ifs with hrefuse
  · exact .inl ⟨rfl, ⟨rfl, rfl⟩, fun h => by simp [h] at hrefuse⟩
  · rcases hfree : s.freelist with _ | ⟨f, rest⟩
    · exact .inl ⟨rfl, ⟨rfl, rfl⟩, fun _ => rfl⟩
    · have hmem : f ∈ s.freelist := hfree ▸ List.mem_cons_self
      exact .inr ⟨f, rfl, ho.avail f (.inr hmem), fun hG => ho.apart f hG hmem, rfl,
        ⟨.take ho hfree rfl rfl, rfl⟩, rfl, rfl⟩

def Phys.freed (s : Phys) (f : ℕ) :
    Phys := { s.setPage f fun _ => 1 with freelist := f :: s.freelist }

theorem freed_mem_of_ne (s : Phys) {f g : ℕ} (h : g ≠ f) : (s.freed f).mem g = s.mem g :=
  setPage_mem_of_ne s h _

theorem kfree_eq (ho : Owned K s G) (hf : f ∈ G) : kfree K f s = (.ok ⟨⟩, s.freed f) := by
  have havail := ho.avail f (.inl hf)
  have hok : ¬ (p2v (f * PGSIZE) < K.end ∨ PHYSTOP ≤ f * PGSIZE) := by
    have h₁ := havail.1
    have h₂ := havail.2
    omega
  rw [kfree, if_neg hok]
  rfl

theorem Steps.freed (ho : Owned K s G) (hf : f ∈ G) : Steps K s (s.freed f) G (G \ {f}) :=
  ⟨.give ho hf rfl fun _ hg => freed_mem_of_ne s hg, rfl⟩

/-! ## The bytes of the user part -/

def page (s : Phys) (d k : ℕ) : Page := s.mem (pteAddr (pte s d k))

/-- The pages that the directory maps keep their bytes, and its page tables stay where they are. -/
structure Keeps (s s' : Phys) (d : ℕ) : Prop where
  pages : ∀ k < upages, present (pte s d k) →
    s'.mem (pteAddr (pte s d k)) = s.mem (pteAddr (pte s d k))
  tables : ∀ i, present (pde s d i) → pde s' d i = pde s d i

theorem Keeps.refl : Keeps s s d := ⟨fun _ _ _ => rfl, fun _ _ => rfl⟩

theorem Keeps.trans (h₁ : Keeps s s' d) (h₂ : Keeps s' s'' d)
    (hpte : ∀ k, present (pte s d k) → pte s' d k = pte s d k) : Keeps s s'' d where
  pages k hk hp := by
    have := h₂.pages k hk (by rw [hpte k hp]; exact hp)
    rw [hpte k hp] at this
    rw [this, h₁.pages k hk hp]
  tables i hp := by rw [h₂.tables i (by rw [h₁.tables i hp]; exact hp), h₁.tables i hp]

theorem Quiet.keeps (h : Quiet s s') : Keeps s s' d :=
  ⟨fun k _ _ => by rw [h.mem], fun i _ => by rw [pde, h.mem, pde]⟩

/-- Page tables are only added for the pages of `P`. -/
def TablesFor (s s' : Phys) (d : ℕ) (P : ℕ → Prop) : Prop := ∀ i, (∀ j, P j → j / 1024 ≠ i) →
    pde s' d i = pde s d i

theorem TablesFor.trans {P Q R : ℕ → Prop} (h₁ : TablesFor s s' d P) (h₂ : TablesFor s' s'' d Q)
    (hP : ∀ j, P j → R j) (hQ : ∀ j, Q j → R j) : TablesFor s s'' d R := fun i hi => by
  rw [h₂ i fun j hj => hi j (hQ j hj), h₁ i fun j hj => hi j (hP j hj)]

theorem Dir.keeps_setPte (h : Dir s d F q) (hp : present (pde s d (k / 1024))) :
    Keeps s (Dir.setPte s d k e) d where
  pages _ hj hpj := setPage_mem_of_ne s (h.page_ne_table hj hpj hp) _
  tables i _ := h.pde_setPte hp i

/-! ## Enough memory -/

def absent (s : Phys) (d : ℕ) :
    ℕ := ((range NPDENTRIES).filter fun i => present (pde s d i) = false).card

/-- There are free pages for all of them, and `n` more. -/
def Rich (s : Phys) (d n : ℕ) : Prop := s.refuse = [] ∧ absent s d + n ≤ s.freelist.length

theorem absent_congr (h : ∀ i, pde s' d i = pde s d i) : absent s' d = absent s d := by
  simp only [absent, h]

theorem absent_pos (hi : i < NPDENTRIES) (h : present (pde s d i) = false) : 0 < absent s d :=
  card_pos.2 ⟨i, mem_filter.2 ⟨mem_range.2 hi, h⟩⟩

theorem absent_add (hi : i < NPDENTRIES) (h : present (pde s d i) = false)
    (hnew : present (pde s' d i)) (hother : ∀ j, j ≠ i → pde s' d j = pde s d j) :
    absent s' d + 1 = absent s d := by
  have hmem : i ∈ (range NPDENTRIES).filter fun j => present (pde s d j) = false :=
    mem_filter.2 ⟨mem_range.2 hi, h⟩
  have heq : ((range NPDENTRIES).filter fun j => present (pde s' d j) = false) =
      ((range NPDENTRIES).filter fun j => present (pde s d j) = false).erase i := by
    ext j
    rw [mem_erase, mem_filter, mem_filter]
    by_cases hj : j = i
    · simp [hj, hnew]
    · simp [hj, hother j hj]
  rw [absent, heq, card_erase_add_one hmem, absent]

theorem Rich.congr {n : ℕ} (h : Rich s d n) (hpde : ∀ i, pde s' d i = pde s d i)
    (hrefuse : s'.refuse = s.refuse) (hfree : s'.freelist = s.freelist) : Rich s' d n := by
  rw [Rich, absent_congr hpde, hrefuse, hfree]
  exact h

theorem Rich.mono {m n : ℕ} (h : Rich s d m) (hle : n ≤ m) : Rich s d n :=
  ⟨h.1, by have := h.2; omega⟩

theorem not_rich_of_empty {n : ℕ} (h : s.refuse = [] → s.freelist = []) : ¬ Rich s d (n + 1) :=
  fun ⟨hr, hle⟩ => by
  rw [h hr, List.length_nil] at hle
  omega

theorem Rich.take {n : ℕ} (h : Rich s d (n + 1)) (hpde : ∀ i, pde s' d i = pde s d i)
    (hfree : s.freelist = f :: s'.freelist) (hrefuse : s'.refuse = s.refuse.tail) :
    Rich s' d n := by
  obtain ⟨hr, hle⟩ := h
  rw [hfree, List.length_cons] at hle
  exact ⟨hrefuse.trans (by rw [hr]; rfl), by rw [absent_congr hpde]; omega⟩

/-! ## `walkpgdir` -/

theorem load_bind {α : Type} (pg i : ℕ) (g : ℕ → M α) (s : Phys) :
    (load pg i >>= g) s = g (entry (s.mem pg) i) s := rfl

theorem store_bind {α : Type} (pg i v : ℕ) (g : PUnit → M α) (s : Phys) :
    (store pg i v >>= g) s = g ⟨⟩ (s.setPage pg (setEntry (s.mem pg) i v)) := rfl

theorem memset_bind {α : Type} (pg : ℕ) (v : UInt8) (g : PUnit → M α) (s : Phys) :
    (memset pg v >>= g) s = g ⟨⟩ (s.setPage pg fun _ => v) := rfl

theorem pdx_eq (hk : va / PGSIZE = k) (hlt : k < 2 ^ 20) : pdx va = k / 1024 := by
  simp only [pdx, PGSIZE] at *
  omega

theorem ptx_eq (hk : va / PGSIZE = k) : ptx va = k % 1024 := by
  simp only [ptx, PGSIZE] at *
  omega

theorem walkpgdir_false (hk : va / PGSIZE = k) (hlt : k < 2 ^ 20) (s : Phys) :
    walkpgdir d va false s =
      (.ok (if present (pde s d (k / 1024)) then some (pteAddr (pde s d (k / 1024)), k % 1024) else
      none), s) := by
  rw [walkpgdir, load_bind, pdx_eq hk hlt, ptx_eq hk]
  by_cases hp : present (entry (s.mem d) (k / 1024))
  · simp only [hp, if_true, pde]
    rfl
  · simp only [hp, pde]
    rfl

theorem entry_eq_pte (hp : present (pde s d (k / 1024))) :
    entry (s.mem (pteAddr (pde s d (k / 1024)))) (k % 1024) = pte s d k :=
  (if_pos hp).symm

theorem walkpgdir_true (h : Dir s d F q) (ho : Owned K s F) (hk : va / PGSIZE = k)
    (hlt : k < 2 ^ 20) : Total (fun r s' => (r = none ∧ Quiet s s' ∧ ¬ Rich s d 0) ∨
      ∃ F', r = some (pteAddr (pde s' d (k / 1024)), k % 1024) ∧ Dir s' d F' q ∧ Steps K s s' F F' ∧
        (∀ j, pte s' d j = pte s d j) ∧ present (pde s' d (k / 1024)) ∧ Keeps s s' d ∧
        (∀ n, Rich s d n → Rich s' d n) ∧ TablesFor s s' d (· = k)) (walkpgdir d va true s) := by
  rw [walkpgdir, load_bind, pdx_eq hk hlt, ptx_eq hk]
  by_cases hp : present (entry (s.mem d) (k / 1024))
  · simp only [hp, if_true]
    exact .inr ⟨F, rfl, h, .refl ho, fun _ => rfl, hp, .refl, fun _ => id, fun _ _ => rfl⟩
  · have hnone : present (pde s d (k / 1024)) = false := by simpa [pde] using hp
    simp only [hp, if_true]
    refine (kalloc_spec ho).bind fun r s₁ hr => ?_
    have hi : k / 1024 < 1024 := by omega
    rcases hr with ⟨rfl, hq, hempty⟩ | ⟨t, rfl, ht, htF, hmem, hsteps, hfree, hrefuse⟩
    · refine .inl ⟨rfl, hq, ?_⟩
      rintro ⟨hr, hle⟩
      have := absent_pos hi hnone
      rw [hempty hr, List.length_nil] at hle
      omega
    · -- the new table is cleared and entered
      set s₂ := s₁.setPage t fun _ => 0 with hs₂
      have hmem₂ : ∀ g ∈ F, s₂.mem g = s.mem g := by
        intro g hg
        rw [hs₂, setPage_mem_of_ne s₁ (fun heq : g = t => htF (heq ▸ hg)), hmem]
      have hd₂ : Dir s₂ d F q := h.congr hmem₂
      have hnone₂ : present (pde s₂ d (k / 1024)) = false := by rw [h.pde_congr hmem₂, hnone]
      have hzero : s₂.mem t = fun _ => 0 := setPage_mem_self s₁ t _
      have hd₃ := hd₂.addTable hi hnone₂ (avail_lt ht) (avail_ne_zero ht) htF hzero
      have hpte₃ := hd₂.pte_setPde hi hnone₂ (avail_lt ht) htF hzero
      have hpde₃ : pde (Dir.setPde s₂ d (k / 1024) t) d (k / 1024) = t * PGSIZE ||| 6 |||
        PTE_P := by
        rw [Dir.pde_setPde hi (avail_lt ht), if_pos rfl]
      have hsteps₂ : Steps K s s₂ F (insert t F) :=
        hsteps.trans (.setPage hsteps.own (mem_insert t F) _)
      have hsteps₃ : Steps K s (Dir.setPde s₂ d (k / 1024) t) F (insert t F) :=
        hsteps₂.trans (.setPage hsteps₂.own (mem_insert_of_mem t h.mem_dir) _)
      show Total _ ((memset t 0 >>= fun _ => _) s₁)
      rw [memset_bind, store_bind, tableEntry]
      refine .inr ⟨insert t F, ?_, hd₃, hsteps₃, fun j => ?_, ?_,
        ⟨fun j hj hpj => ?_, fun j hpj => ?_⟩, ?_, fun j hj => ?_⟩
      · rw [show s₂.setPage d (setEntry (s₂.mem d) (k / 1024) (t * PGSIZE ||| 6 ||| PTE_P)) =
          Dir.setPde s₂ d (k / 1024) t from rfl, hpde₃, pteAddr_entry (by decide)]
      · exact (hpte₃ j).trans (h.pte_congr hmem₂ j)
      · rw [show s₂.setPage d (setEntry (s₂.mem d) (k / 1024) (t * PGSIZE ||| 6 ||| PTE_P)) =
          Dir.setPde s₂ d (k / 1024) t from rfl, hpde₃]
        exact present_entry _ _
      · show (Dir.setPde s₂ d (k / 1024) t).mem _ = _
        rw [Dir.setPde, setPage_mem_of_ne s₂ (h.page_ne_dir hj hpj), hmem₂ _ (h.mem_page hj hpj)]
      · have hji : j ≠ k / 1024 := by
          rintro rfl
          rw [hnone] at hpj
          exact Bool.noConfusion hpj
        show pde (Dir.setPde s₂ d (k / 1024) t) d j = _
        rw [Dir.pde_setPde hi (avail_lt ht), if_neg hji, h.pde_congr hmem₂]
      · rintro m ⟨hr, hle⟩
        have hcount : absent (Dir.setPde s₂ d (k / 1024) t) d + 1 = absent s d := by
          refine absent_add hi hnone (by rw [hpde₃]; exact present_entry _ _) fun j hj => ?_
          rw [Dir.pde_setPde hi (avail_lt ht), if_neg hj, h.pde_congr hmem₂]
        rw [hfree, List.length_cons] at hle
        refine ⟨hrefuse.trans (by rw [hr]; rfl), ?_⟩
        show absent (Dir.setPde s₂ d (k / 1024) t) d + m ≤ s₁.freelist.length
        omega
      · show pde (Dir.setPde s₂ d (k / 1024) t) d j = _
        rw [Dir.pde_setPde hi (avail_lt ht), if_neg (hj k rfl).symm, h.pde_congr hmem₂]

/-! ## `mappages` -/

theorem mappagesFrom_round (h : Dir s d F q) (ho : Owned K s F) (hk : k < 2 ^ 20)
    (hnone : pte s d k = 0) (last perm n pa : ℕ) :
    (∃ s', mappagesFrom d last perm (n + 1) (k * PGSIZE) pa s = (.ok (-1), s') ∧ Quiet s s' ∧
      ¬ Rich s d 0) ∨ ∃ s' F', Dir s' d F' q ∧ Steps K s s' F F' ∧ (∀ j, pte s' d j = pte s d j) ∧
      present (pde s' d (k / 1024)) ∧ Keeps s s' d ∧ (∀ m, Rich s d m → Rich s' d m) ∧
      TablesFor s s' d (· = k) ∧ mappagesFrom d last perm (n + 1) (k * PGSIZE) pa s =
        (if k * PGSIZE = last then pure 0
          else mappagesFrom d last perm n ((k * PGSIZE + PGSIZE) % 2 ^ 32)
      ((pa + PGSIZE) % 2 ^ 32) : M ℤ) (Dir.setPte s' d k (pa ||| perm ||| PTE_P)) := by
  have hpage : k * PGSIZE / PGSIZE = k := Nat.mul_div_cancel k (by decide)
  obtain ⟨r, s', heq, hr⟩ := (walkpgdir_true h ho hpage hk).exists_ok
  rw [mappagesFrom, bind_ok heq]
  rcases hr with ⟨rfl, hq, hpoor⟩ | ⟨F', rfl, hd, hsteps, hpte, hp, hkeeps, hrich, htables⟩
  · exact .inl ⟨s', rfl, hq, hpoor⟩
  · refine .inr ⟨s', F', hd, hsteps, hpte, hp, hkeeps, hrich, htables, ?_⟩
    have hload : entry (s'.mem (pteAddr (pde s' d (k / 1024)))) (k % 1024) = 0 := by
      rw [entry_eq_pte hp, hpte, hnone]
    simp only [load_bind, hload, not_present_zero, Bool.false_eq_true, if_false, store_bind]
    rfl

theorem mappages_remap (hk : k < 2 ^ 20) (hp : present (pte s d k)) (size pa perm : ℕ) :
    mappages d (k * PGSIZE) size pa perm s = (.error .remap, s) := by
  have hpage : k * PGSIZE / PGSIZE = k := Nat.mul_div_cancel k (by decide)
  have htab : present (pde s d (k / 1024)) := Dir.table_of_pte hp
  have hwalk : walkpgdir d (k * PGSIZE) true s =
    (.ok (some (pteAddr (pde s d (k / 1024)), k % 1024)), s) := by
    rw [walkpgdir, load_bind, pdx_eq hpage hk, ptx_eq hpage]
    exact congrFun (if_pos htab) s
  rw [mappages, pgrounddown_page, show fuel = 2 ^ 20 - 1 + 1 from rfl, mappagesFrom, bind_ok hwalk]
  simp only [load_bind, entry_eq_pte htab, hp, if_true]
  rfl

theorem mappages_user {perm : ℕ} (h : Dir s d F q) (ho : Owned K s (insert f F)) (hf : f ∉ F)
    (hk : k < upages) (hnone : pte s d k = 0) (hperm : perm < PGSIZE) :
    Total (fun r s' => (r = -1 ∧ Quiet s s' ∧ ¬ Rich s d 0) ∨
      ∃ F', r = 0 ∧ Dir s' d F' q ∧ Steps K s s' (insert f F) F' ∧
        (∀ j, pte s' d j = if j = k then f * PGSIZE ||| perm ||| PTE_P else pte s d j) ∧
        Keeps s s' d ∧ s'.mem f = s.mem f ∧ (∀ m, Rich s d m → Rich s' d m) ∧
      TablesFor s s' d (· = k)) (mappages d (k * PGSIZE) PGSIZE (f * PGSIZE) perm s) := by
  have hk20 : k < 2 ^ 20 := hk.trans (by decide)
  have hlast : pgrounddown ((k * PGSIZE + PGSIZE + 2 ^ 32 - 1) % 2 ^ 32) = k * PGSIZE := by
    simp only [pgrounddown, PGSIZE]
    omega
  have hoF : Owned K s F := ho.mono (subset_insert f F)
  have havail : f ∈ Avail K := ho.avail f (.inl (mem_insert f F))
  have hside : ∀ g ∈ ({f} : Set ℕ), g ∉ F := by
    rintro g rfl
    exact hf
  have ho' : Owned K s (F ∪ {f}) := by rwa [union_singleton]
  rw [mappages, hlast, pgrounddown_page]
  rcases mappagesFrom_round h hoF hk20 hnone (k * PGSIZE) perm (2 ^ 20 - 1) (f * PGSIZE) with
    ⟨s', heq, hq, hpoor⟩ | ⟨s', F', hd, hsteps, hpte, hp, hkeeps, hrich, htables, heq⟩
  · rw [show fuel = 2 ^ 20 - 1 + 1 from rfl, heq]
    exact .inl ⟨rfl, hq, hpoor⟩
  · rw [show fuel = 2 ^ 20 - 1 + 1 from rfl, heq, if_pos rfl]
    have hfF' : f ∉ F' := hsteps.disjoint ho' hside f rfl
    have hpf : pteAddr (f * PGSIZE ||| perm ||| PTE_P) = f := pteAddr_entry hperm
    have he := entry_lt_of_lt (avail_lt havail) hperm
    have hnone' : present (pte s' d k) = false := by rw [hpte, hnone, not_present_zero]
    have hmap := hd.map hp hk hnone' he (present_entry _ _)
      (by rw [hpf]; exact avail_ne_zero havail) (by rw [hpf]; exact hfF')
    rw [hpf] at hmap
    have hsteps₁ : Steps K s s' (insert f F) (insert f F') := by
      have := hsteps.beside ho' hside
      rwa [union_singleton, union_singleton] at this
    have htab : pteAddr (pde s' d (k / 1024)) ∈ insert f F' := mem_insert_of_mem f (hd.mem_table hp)
    refine .inr ⟨insert f F', rfl, hmap, hsteps₁.trans (.setPage hsteps₁.own htab _), fun j => ?_,
      hkeeps.trans (hd.keeps_setPte hp) (fun j _ => hpte j), ?_,
      fun m hm => (hrich m hm).congr (hd.pde_setPte hp) rfl rfl, fun i hi => ?_⟩
    · rw [hd.pte_setPte hp he, hpte]
    · have hne : f ≠ pteAddr (pde s' d (k / 1024)) := fun heq => hfF' (heq ▸ hd.mem_table hp)
      rw [Dir.setPte, setPage_mem_of_ne s' hne]
      exact hsteps.kept ho' hside rfl
    · exact (hd.pde_setPte hp i).trans (htables i hi)

/-- `mappages` of the `m + 1` pages from `k` on of the kernel part, to the physical pages from `c`
on. -/
theorem mappagesFrom_kernel {perm : ℕ} (hperm : perm < PGSIZE) (last m : ℕ) :
    ∀ (n k c : ℕ) (s : Phys) (F : Set ℕ) (q : ℕ → ℕ), Dir s d F q → Owned K s F → upages ≤ k →
      k + m < 2 ^ 20 → c + m < 2 ^ 20 → last = (k + m) * PGSIZE →
      (∀ j, k ≤ j → j ≤ k + m → q j = 0) → m < n →
      Total (fun r s' => ∃ F' q', Dir s' d F' q' ∧ Steps K s s' F F' ∧
      (∀ j < upages, pte s' d j = pte s d j) ∧ TablesFor s s' d (fun j => k ≤ j ∧ j ≤ k + m) ∧
      (r = -1 ∧ ¬ Rich s d 0 ∨ r = 0 ∧ (∀ m, Rich s d m → Rich s' d m) ∧ ∀ j, q' j = if k ≤ j ∧
      j ≤ k + m then (c + (j - k)) * PGSIZE ||| perm ||| PTE_P else
      q j)) (mappagesFrom d last perm n (k * PGSIZE) (c * PGSIZE) s) := by
  induction m with
  | zero =>
    intro n k c s F q h ho hk hlt hc hlast hq hn
    obtain ⟨n, rfl⟩ : ∃ n', n = n' + 1 := ⟨n - 1, by omega⟩
    rcases mappagesFrom_round h ho (by omega) ((h.kern k hk).trans (hq k le_rfl le_rfl)) last perm n
      (c * PGSIZE) with
      ⟨s', heq, hquiet, hpoor⟩ | ⟨s', F', hd, hsteps, hpte, hp, -, hrich, htables, heq⟩
    · rw [heq]
      exact ⟨F, q, hquiet.dir h, hquiet.steps ho,
        fun j _ => h.pte_congr (fun g _ => by rw [hquiet.mem]) j,
        fun i _ => h.pde_congr (fun g _ => by rw [hquiet.mem]) i, .inl ⟨rfl, hpoor⟩⟩
    · have he : c * PGSIZE ||| perm ||| PTE_P < 2 ^ 32 := entry_lt_of_lt (by omega) hperm
      rw [heq, if_pos (by rw [hlast, add_zero])]
      refine ⟨F', _, hd.mapKernel hp hk he (present_entry _ _),
        hsteps.trans (.setPage hsteps.own (hd.mem_table hp) _), fun j hj => ?_,
        fun i hi => (hd.pde_setPte hp i).trans (htables i fun j hj => hi j ⟨hj.ge, hj.le⟩),
        .inr ⟨rfl, fun m hr => (hrich m hr).congr (hd.pde_setPte hp) rfl rfl, fun j => ?_⟩⟩
      · rw [hd.pte_setPte hp he, if_neg (by omega), hpte]
      · by_cases hj : j = k
        · subst hj
          simp
        · rw [if_neg hj, if_neg (by omega)]
  | succ m ih =>
    intro n k c s F q h ho hk hlt hc hlast hq hn
    obtain ⟨n, rfl⟩ : ∃ n', n = n' + 1 := ⟨n - 1, by omega⟩
    rcases mappagesFrom_round h ho (by omega) ((h.kern k hk).trans (hq k le_rfl (by omega))) last
      perm n (c * PGSIZE) with
      ⟨s', heq, hquiet, hpoor⟩ | ⟨s', F', hd, hsteps, hpte, hp, -, hrich, htables, heq⟩
    · rw [heq]
      exact ⟨F, q, hquiet.dir h, hquiet.steps ho,
        fun j _ => h.pte_congr (fun g _ => by rw [hquiet.mem]) j,
        fun i _ => h.pde_congr (fun g _ => by rw [hquiet.mem]) i, .inl ⟨rfl, hpoor⟩⟩
    · have he : c * PGSIZE ||| perm ||| PTE_P < 2 ^ 32 := entry_lt_of_lt (by omega) hperm
      have hne : ¬ k * PGSIZE = last := by
        rw [hlast]
        simp only [PGSIZE]
        omega
      have hnext : (k * PGSIZE + PGSIZE) % 2 ^ 32 = (k + 1) * PGSIZE := by
        simp only [PGSIZE]
        omega
      have hnext' : (c * PGSIZE + PGSIZE) % 2 ^ 32 = (c + 1) * PGSIZE := by
        simp only [PGSIZE]
        omega
      rw [heq, if_neg hne, hnext, hnext']
      have hd₁ := hd.mapKernel hp hk he (present_entry _ _)
      have hsteps₁ := hsteps.trans (.setPage hsteps.own (hd.mem_table hp)
        (setEntry (s'.mem (pteAddr (pde s' d (k / 1024)))) (k % 1024)
          (c * PGSIZE ||| perm ||| PTE_P)))
      have hrest := ih n (k + 1) (c + 1) _ F' _ hd₁ hsteps₁.own (by omega) (by omega) (by omega)
        (by rw [hlast, show k + (m + 1) = k + 1 + m by omega])
        (fun j hj hj' => by rw [if_neg (by omega)]; exact hq j (by omega) (by omega))
        (by omega)
      refine hrest.mono ?_
      rintro r s₂ ⟨F₂, q₂, hd₂, hsteps₂, hpte₂, htables₂, hres⟩
      have hrich₁ : ∀ m', Rich s d m' → Rich (Dir.setPte s' d k (c * PGSIZE ||| perm ||| PTE_P)) d
        m' := fun m' hr =>
        (hrich m' hr).congr (hd.pde_setPte hp) rfl rfl
      have htables₁ : TablesFor s (Dir.setPte s' d k (c * PGSIZE ||| perm ||| PTE_P)) d (· = k) :=
        fun i hi =>
        (hd.pde_setPte hp i).trans (htables i hi)
      refine ⟨F₂, q₂, hd₂, hsteps₁.trans hsteps₂, fun j hj => ?_,
        htables₁.trans htables₂ (fun j hj => ⟨hj.ge, by omega⟩) (fun j hj => ⟨by omega, by omega⟩),
        hres.imp (fun hr => ⟨hr.1, fun h => hr.2 (hrich₁ 0 h)⟩)
          fun hr => ⟨hr.1, fun m' h => hr.2.1 m' (hrich₁ m' h), fun j => ?_⟩⟩
      · rw [hpte₂ j hj, hd.pte_setPte hp he, if_neg (by omega), hpte]
      · rw [hr.2.2]
        by_cases hj : j = k
        · subst hj
          rw [if_neg (by omega), if_pos rfl, if_pos (by omega), tsub_self, add_zero]
        · by_cases hin : k + 1 ≤ j ∧ j ≤ k + 1 + m
          · rw [if_pos hin, if_pos (by omega), show c + 1 + (j - (k + 1)) = c + (j - k) by omega]
          · rw [if_neg hin, if_neg hj, if_neg (by omega)]

end Xv6.Vm
