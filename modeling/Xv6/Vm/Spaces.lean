import Xv6.Vm.Grow
import Mathlib.Data.List.Nodup

/-!
# Directories that the kernel builds

`Built K d s`: the directory `d` comes from `setupkvm`, and after it `allocuvm`, `deallocuvm` and
`clearpteu` were called on it with any arguments, while the rest of the kernel, other processes and
user code went on (`Others`).  Such a directory is a `Dir`.
-/

namespace Xv6.Vm

open LittleEndian Fallible Nat
open UserMemory (pgroundup)

variable {K : Link} {s s' s'' : Phys} {d f k i e va : ℕ} {F F' G : Set ℕ} {q : ℕ → ℕ}

/-! ## `clearpteu` -/

/-- An entry without `PTE_U`. -/
def noUser (e : ℕ) : ℕ := e &&& (2 ^ 32 - 1 - PTE_U)

theorem present_noUser (e : ℕ) : present (noUser e) = present e := by
  rw [present, noUser, testBit_and]
  simp [present, PTE_U]

theorem user_noUser (e : ℕ) : user (noUser e) = false := by
  have hmask : (2 ^ 32 - 1 - PTE_U).testBit 2 = false := by decide
  rw [user, noUser, testBit_and, hmask, Bool.and_false]

theorem noUser_lt (e : ℕ) : noUser e < 2 ^ 32 := and_lt_two_pow _ (by decide)

theorem pteAddr_noUser {e : ℕ} (he : e < 2 ^ 32) : pteAddr (noUser e) = pteAddr e := by
  have hmask : (2 ^ 32 - 1 - PTE_U) >>> 12 = 2 ^ 20 - 1 := by decide
  have hlt : e >>> 12 < 2 ^ 20 := by
    rw [shiftRight_eq_div_pow]
    omega
  have hshift : ∀ x : ℕ, x / PGSIZE = x >>> 12 := fun x => (shiftRight_eq_div_pow x 12).symm
  rw [pteAddr, pteAddr, hshift, hshift, noUser, shiftRight_and_distrib, hmask,
    and_two_pow_sub_one_eq_mod, mod_eq_of_lt hlt]

theorem pte_lt (s : Phys) (d k : ℕ) : pte s d k < 2 ^ 32 := by
  rw [pte]
  split_ifs
  · exact entry_lt _ _
  · decide

theorem clearpteu_spec (h : Dir s d F q) (ho : Owned K s F) (hva : va / PGSIZE = k)
    (hk : k < upages) : Sat (fun e _ => e = .clearpteu ∧ ¬ present (pde s d (k / 1024)))
      (fun _ s' => Dir s' d F q ∧ Steps K s s' F F ∧
        (∀ j, pte s' d j = if j = k then noUser (pte s d k) else pte s d j) ∧ Keeps s s' d ∧
      ∀ i, pde s' d i = pde s d i) (clearpteu d va s) := by
  rw [clearpteu, bind_ok (walkpgdir_false hva (hk.trans (by decide)) s)]
  by_cases hp : present (pde s d (k / 1024))
  · rw [if_pos hp]
    show Sat _ _ ((load _ _ >>= fun e => _) s)
    rw [load_bind, entry_eq_pte hp]
    have hlt := noUser_lt (pte s d k)
    have hpte := h.pte_setPte hp hlt
    refine ⟨?_, .setPage ho (h.mem_table hp) _, hpte, h.keeps_setPte hp, h.pde_setPte hp⟩
    by_cases hpk : present (pte s d k)
    · have hpn : present (noUser (pte s d k)) := by rw [present_noUser]; exact hpk
      exact h.reflag hk hpk hlt hpn (pteAddr_noUser (pte_lt s d k))
    · refine h.of_eq (h.pde_setPte hp) fun j => ?_
      have hzero : pte s d k = 0 := h.zero k (by simpa using hpk)
      show pte (Dir.setPte s d k (noUser (pte s d k))) d j = _
      rw [hpte, hzero]
      split_ifs with hj
      · rw [hj, hzero]
        rfl
      · rfl
  · rw [if_neg hp]
    exact ⟨rfl, hp⟩

/-! ## Runs -/

def pagesOf (s : Phys) (d : ℕ) : Set ℕ := { f | f ≠ 0 ∧ ∃ p, place s d p = f }

theorem Dir.pagesOf_eq (h : Dir s d F q) : pagesOf s d = F := by
  ext f
  exact (h.exact.mem_iff f).symm

/-- Beside the functions called on `d`, the free list, the bytes of the pages that `d` maps and all
other pages change. -/
structure Others (K : Link) (d : ℕ) (s s' : Phys) : Prop where
  own : Owned K s' (pagesOf s d)
  dir : s'.mem d = s.mem d
  tables : ∀ i, present (pde s d i) → s'.mem (pteAddr (pde s d i)) = s.mem (pteAddr (pde s d i))

/-- The states in which `d` is a directory that the kernel has built. -/
inductive Built (K : Link) (d : ℕ) : Phys → Prop
  | setupkvm {s s' : Phys} : Owned K s ∅ → setupkvm K s = (.ok (some d), s') → Built K d s'
  | allocuvm {s s' : Phys} {oldsz newsz r : ℕ} : Built K d s →
    allocuvm K d oldsz newsz s = (.ok r, s') → Built K d s'
  | deallocuvm {s s' : Phys} {oldsz newsz r : ℕ} : Built K d s → oldsz ≤ KERNBASE →
      deallocuvm K d oldsz newsz s = (.ok r, s') → Built K d s'
  | clearpteu {s s' : Phys} {uva : ℕ} {r : PUnit} : Built K d s → uva < KERNBASE →
      clearpteu d uva s = (.ok r, s') → Built K d s'
  | others {s s' : Phys} : Built K d s → Others K d s s' → Built K d s'

theorem Dir.others (h : Dir s d F q) (ho : Others K d s s') :
    Dir s' d F q ∧ Owned K s' F ∧ (∀ k, pte s' d k = pte s d k) := by
  have hpde : ∀ i, pde s' d i = pde s d i := fun i => by rw [pde, ho.dir, pde]
  have hpte : ∀ k, pte s' d k = pte s d k := by
    intro k
    rw [pte, hpde, pte]
    split_ifs with hp
    · rw [ho.tables _ hp]
    · rfl
  exact ⟨h.of_eq hpde hpte, h.pagesOf_eq ▸ ho.own, hpte⟩

theorem Built.dir (h : Built K d s) : ∃ F, Dir s d F (kernelEntry K) ∧ Owned K s F := by
  induction h with
  | setupkvm ho hrun =>
    rcases (setupkvm_spec ho).of_eq_ok hrun with ⟨hnone, -⟩ | ⟨d', F, hd, hdir, hsteps, -⟩
    · cases hnone
    · obtain rfl : d = d' := Option.some.inj hd
      exact ⟨F, hdir, hsteps.own⟩
  | @allocuvm s s' oldsz newsz r _ hrun ih =>
    obtain ⟨F, hdir, hown⟩ := ih
    by_cases hnew : newsz < KERNBASE
    · by_cases hle : oldsz ≤ newsz
      · rcases (allocuvm_sat hnew hle hdir hown).of_eq_ok hrun with ⟨-, -, F', h'⟩ | ⟨-, -, -, F',
          hdir', hsteps'⟩
        · exact ⟨F', h'.dir, h'.steps.own⟩
        · exact ⟨F', hdir', hsteps'.own⟩
      · rw [Vm.allocuvm, if_neg (by omega), if_pos (by omega)] at hrun
        cases hrun
        exact ⟨F, hdir, hown⟩
    · rw [Vm.allocuvm, if_pos (by omega)] at hrun
      cases hrun
      exact ⟨F, hdir, hown⟩
  | deallocuvm _ hold hrun ih =>
    obtain ⟨F, hdir, hown⟩ := ih
    obtain ⟨-, F', h'⟩ := (deallocuvm_spec hold _ hdir hown).of_eq_ok hrun
    exact ⟨F', h'.dir, h'.steps.own⟩
  | @clearpteu s s' uva r _ huva hrun ih =>
    obtain ⟨F, hdir, hown⟩ := ih
    have hk : uva / PGSIZE < upages := Nat.div_lt_of_lt_mul huva
    obtain ⟨hdir', hsteps', -⟩ := (clearpteu_spec hdir hown rfl hk).of_eq_ok hrun
    exact ⟨F, hdir', hsteps'.own⟩
  | others _ ho ih =>
    obtain ⟨F, hdir, -⟩ := ih
    obtain ⟨hdir', hown', -⟩ := hdir.others ho
    exact ⟨F, hdir', hown'⟩

/-! ## Translation -/

/-- The physical page and the flags for page `k`. -/
def translate (s : Phys) (d k : ℕ) : Option (ℕ × ℕ) :=
  if present (pte s d k) then some (pteAddr (pte s d k), pteFlags (pte s d k)) else none

theorem translate_congr (h : pte s' d k = pte s d k) : translate s' d k = translate s d k := by
  rw [translate, h, translate]

theorem translate_of_zero (h : pte s d k = 0) : translate s d k = none := by
  rw [translate, h]
  rfl

theorem Dir.translate_eq_none (h : Dir s d F q) : translate s d k = none ↔ pte s d k = 0 := by
  refine ⟨fun hnone => h.zero k ?_, translate_of_zero⟩
  by_contra hp
  rw [translate, if_pos (by simpa using hp)] at hnone
  cases hnone

/-- Growing is all or, if free pages are short, nothing; shrinking removes the pages above; and
neither panics. -/
theorem grow_and_shrink {oldsz newsz : ℕ} (hb : Built K d s) (hle : oldsz ≤ newsz)
    (hlt : newsz < KERNBASE)
    (hnone : ∀ k < upages, pgroundup oldsz ≤ k * PGSIZE → translate s d k = none) :
    ∃ r s', allocuvm K d oldsz newsz s = (.ok r, s') ∧ ((r = newsz ∧
        (∀ k, pgroundup oldsz ≤ k * PGSIZE → k * PGSIZE < newsz →
          ∃ f, translate s' d k = some (f, PTE_W ||| PTE_U ||| PTE_P) ∧ s'.mem f = (fun _ => 0) ∧
            ∀ j < upages, j ≠ k → ∀ x, translate s' d j = some x → x.1 ≠ f) ∧
        ∀ k, ¬ (pgroundup oldsz ≤ k * PGSIZE ∧ k * PGSIZE < newsz) →
      translate s' d k = translate s d k) ∨ (r = 0 ∧ ¬ Rich s d (npages newsz - npages oldsz) ∧
      (∀ k, translate s' d k = translate s d k) ∧
      (∀ i, present (pde s d i) → pde s' d i = pde s d i) ∧ ∀ i, present (pde s' d i) →
      ¬ present (pde s d i) → ∀ j < 1024, entry (s'.mem (pteAddr (pde s' d i))) j = 0)) ∧
      ∃ r' s'', deallocuvm K d newsz oldsz s' = (.ok r', s'') ∧
      ∀ k, translate s'' d k = if pgroundup oldsz ≤ k * PGSIZE ∧ k < upages then none else
      translate s' d k := by
  obtain ⟨F, hdir, hown⟩ := hb.dir
  have hup := npages_le (show newsz ≤ KERNBASE by omega)
  have hge : ∀ k, pgroundup oldsz ≤ k * PGSIZE ↔ npages oldsz ≤ k := by
    intro k
    rw [pgroundup_eq (by omega)]
    exact Nat.mul_le_mul_right_iff (by decide)
  have hrange : ∀ k, (pgroundup oldsz ≤ k * PGSIZE ∧ k * PGSIZE < newsz) ↔
    (npages oldsz ≤ k ∧ k < npages newsz) :=
    fun k => and_congr (hge k) lt_npages.symm
  have hzero : ∀ k < upages, npages oldsz ≤ k → pte s d k = 0 := fun k hk hk' =>
    hdir.translate_eq_none.1 (hnone k hk ((hge k).2 hk'))
  -- what `deallocuvm` does in the state that `allocuvm` leaves
  have hshrink : ∀ s' F', Dir s' d F' (kernelEntry K) → Owned K s' F' →
      (∀ k < upages, npages newsz ≤ k → pte s' d k = 0) →
      ∃ r' s'', deallocuvm K d newsz oldsz s' = (.ok r', s'') ∧
        ∀ k, translate s'' d k = if pgroundup oldsz ≤ k * PGSIZE ∧ k < upages then none else
        translate s' d k := by
    intro s' F' hdir' hown' habove
    obtain ⟨r', s'', hrun, -, F'', h''⟩ :=
      (deallocuvm_spec (show newsz ≤ KERNBASE by omega) oldsz hdir' hown').exists_ok
    refine ⟨r', s'', hrun, fun k => ?_⟩
    by_cases hin : npages oldsz ≤ k ∧ k < npages newsz
    · rw [if_pos ⟨(hge k).2 hin.1, by omega⟩]
      exact translate_of_zero (by rw [h''.pte, if_pos hin])
    · have hsame : pte s'' d k = pte s' d k := by rw [h''.pte, if_neg hin]
      split_ifs with hk
      · rw [hge] at hk
        exact translate_of_zero (by rw [hsame, habove k hk.2 (by omega)])
      · exact translate_congr hsame
  obtain ⟨r, s', hrun, hr⟩ :=
    (allocuvm_spec hlt hle hdir hown fun k hk hk' => hzero k (by omega) hk).exists_ok
  refine ⟨r, s', hrun, ?_⟩
  rcases hr with ⟨rfl, -, F', h'⟩ | ⟨rfl, hpoor, h', F', hdir', hsteps'⟩
  · refine ⟨.inl ⟨rfl, fun k hk hk' => ?_, fun k hk => ?_⟩,
      hshrink s' F' h'.dir h'.steps.own fun k hk hk' => ?_⟩
    · rw [hge] at hk
      rw [← lt_npages] at hk'
      obtain ⟨hp, hflags, hpage⟩ := h'.new k hk hk'
      refine ⟨pteAddr (pte s' d k), by rw [translate, if_pos hp, hflags], hpage,
        fun j hj hjk x hx heq => hjk ?_⟩
      by_cases hpj : present (pte s' d j)
      · rw [translate, if_pos hpj] at hx
        cases hx
        exact h'.dir.page_inj hj (by omega) hpj hp heq
      · rw [translate, if_neg hpj] at hx
        cases hx
    · rw [hrange] at hk
      exact translate_congr (h'.out k hk)
    · rw [h'.out k (by omega), hzero k hk (hk'.trans' (npages_mono hle))]
  · have hpte : ∀ k, pte s' d k = pte s d k := by
      intro k
      rw [h'.pte]
      split_ifs with hk
      · exact (hzero k (by omega) hk.1).symm
      · rfl
    refine ⟨.inr ⟨rfl, hpoor, fun k => translate_congr (hpte k), h'.tables, fun i hp hn j hj => ?_⟩,
      hshrink s' F' hdir' hsteps'.own fun k hk hk' => ?_⟩
    · have hi : (1024 * i + j) / 1024 = i := by omega
      have hj' : (1024 * i + j) % 1024 = j := by omega
      have hentry := entry_eq_pte (s := s') (d := d) (k := 1024 * i + j) (by rw [hi]; exact hp)
      rw [hi, hj'] at hentry
      rw [hentry, hpte]
      exact pte_of_no_table (by rw [hi]; exact hn)
    · rw [hpte, hzero k hk (hk'.trans' (npages_mono hle))]

/-! ## A first directory -/

theorem exists_setupkvm {n : ℕ} (ho : Owned K s ∅) (hrefuse : s.refuse = [])
    (hlen : NPDENTRIES + n < s.freelist.length) : ∃ d s', setupkvm K s = (.ok (some d), s') ∧
    (∀ k < upages, pte s' d k = 0) ∧
      (∀ i, (∀ k, (∃ m ∈ kmap K, m.Covers k) → k / 1024 ≠ i) → pde s' d i = 0) ∧ Rich s' d n := by
  obtain ⟨r, s', hrun, hr⟩ := (setupkvm_spec ho).exists_ok
  rcases hr with ⟨-, -, hpoor⟩ | ⟨d, F, rfl, -, -, hempty, htables, hrich, -⟩
  · exact absurd ⟨hrefuse, by omega⟩ hpoor
  · exact ⟨d, s', hrun, hempty, htables, hrich n hrefuse hlen⟩

def smallLink : Link := ⟨0x80108000, 0x80115000, by decide, by decide, by decide, by decide⟩

/-- Memory after `kinit2`: the pages from 4 MB to `PHYSTOP` are free. -/
def freshPhys : Phys := ⟨⟨fun _ _ => 0, List.range' 1024 56320⟩, [], 0⟩

theorem freshPhys_owned : Owned smallLink freshPhys ∅ where
  nodup := List.nodup_range'
  avail f hf := by
    rcases hf with hf | hf
    · exact hf.elim
    · have : f ∈ List.range' 1024 56320 := hf
      rw [List.mem_range'_1] at this
      show 0x80115000 ≤ (f * 4096 + 2 ^ 31) % 2 ^ 32 ∧ f * 4096 < 0xE000000
      omega
  apart _ hf := hf.elim

theorem pde_user_of_setupkvm (h : ∀ i, (∀ k, (∃ m ∈ kmap K, m.Covers k) → k / 1024 ≠ i) →
    pde s d i = 0) (hi : i < 512) : pde s d i = 0 := by
  refine h i ?_
  rintro k ⟨m, hm, hk⟩ rfl
  have h₁ := (kmap_ok K m hm).low
  have h₂ := hk.1
  simp only [KERNBASE, PGSIZE] at h₁ h₂
  omega

/-- A directory with `m` pages, and free memory for `n` more. -/
theorem exists_pages {m n : ℕ} (hm : m * PGSIZE < KERNBASE) (ho : Owned K s ∅)
    (hrefuse : s.refuse = []) (hlen : NPDENTRIES + (m + n) < s.freelist.length) :
    ∃ d F s', Built K d s' ∧ Dir s' d F (kernelEntry K) ∧ Steps K s s' ∅ F ∧
      (∀ k < m, present (pte s' d k) ∧ pteFlags (pte s' d k) = PTE_W ||| PTE_U ||| PTE_P) ∧
      (∀ k, m ≤ k → k < upages → pte s' d k = 0) ∧
      (∀ i < 512, (∀ k < m, k / 1024 ≠ i) → pde s' d i = 0) ∧ Rich s' d n := by
  obtain ⟨r, s₀, hrun₀, hr⟩ := (setupkvm_spec ho).exists_ok
  rcases hr with ⟨-, -, hpoor⟩ | ⟨d, F₀, rfl, hdir₀, hsteps₀, hempty, htables, hrich, -⟩
  · exact absurd ⟨hrefuse, by omega⟩ hpoor
  have hpages : npages 0 = 0 ∧ npages (m * PGSIZE) = m := ⟨by decide, npages_page m⟩
  have hrich₀ : Rich s₀ d (npages (m * PGSIZE) - npages 0 + n) :=
    (hrich _ hrefuse hlen).mono (by omega)
  obtain ⟨r, s₁, hrun₁, hr⟩ := (allocuvm_spec hm (zero_le _) hdir₀ hsteps₀.own
    fun k _ hk => hempty k (hk.trans_le (npages_le hm.le))).exists_ok
  rcases hr with ⟨-, hrich₁, F₁, h₁⟩ | ⟨-, hpoor, -⟩
  swap
  · exact absurd (hrich₀.mono (by omega)) hpoor
  refine ⟨d, F₁, s₁, .allocuvm (.setupkvm ho hrun₀) hrun₁, h₁.dir, hsteps₀.trans h₁.steps,
    fun k hk => ?_, fun k hk hk' => ?_, fun i hi hik => ?_, hrich₁ n hrich₀⟩
  · have hnew := h₁.new k (by omega) (by omega)
    exact ⟨hnew.1, hnew.2.1⟩
  · rw [h₁.out k (by omega), hempty k hk']
  · rw [h₁.tables i (fun k hk => hik k (by omega)), pde_user_of_setupkvm htables hi]

theorem exists_built {m : ℕ} (hm : m ≤ 10000) : ∃ d s, Built smallLink d s ∧
    (∀ k < m, present (pte s d k) ∧ pteFlags (pte s d k) = PTE_W ||| PTE_U ||| PTE_P) ∧
    (∀ k, m ≤ k → k < upages → pte s d k = 0) ∧
      (∀ i < 512, (∀ k < m, k / 1024 ≠ i) → pde s d i = 0) ∧ Rich s d 40000 := by
  obtain ⟨d, F, s, hb, -, -, hrest⟩ :=
    exists_pages (n := 40000) (show m * PGSIZE < KERNBASE by rw [PGSIZE, KERNBASE]; omega)
    freshPhys_owned rfl (show 1024 + (m + 40000) <
      (List.range' 1024 56320).length by rw [List.length_range']; omega)
  exact ⟨d, s, hb, hrest⟩

theorem grow_and_shrink_first : ∃ d s s', Built smallLink d s ∧
    allocuvm smallLink d 100 9000 s = (.ok 9000, s') ∧
      (∃ f, translate s' d 2 = some (f, PTE_W ||| PTE_U ||| PTE_P) ∧ s'.mem f = fun _ => 0) ∧
      ∃ r' s'', deallocuvm smallLink d 9000 100 s' = (.ok r', s'') ∧ translate s'' d 2 = none := by
  obtain ⟨d, s, hb, -, hzero, -, hrich⟩ := exists_built (zero_le 10000)
  obtain ⟨r, s', hrun, hr, r', s'', hrun', hshrink⟩ :=
    grow_and_shrink hb (show 100 ≤ 9000 by decide) (by decide)
    fun k hk _ => translate_of_zero (hzero k (zero_le k) hk)
  rcases hr with ⟨rfl, hnew, -⟩ | ⟨-, hpoor, -⟩
  · obtain ⟨f, hf, hmem, -⟩ := hnew 2 (by decide) (by decide)
    exact ⟨d, s, s', hb, hrun, ⟨f, hf, hmem⟩, r', s'', hrun',
      (hshrink 2).trans (if_pos (by decide))⟩
  · exact absurd (hrich.mono (by decide)) hpoor

end Xv6.Vm
