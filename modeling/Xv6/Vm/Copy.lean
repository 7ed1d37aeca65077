import Xv6.Vm.Spaces

/-!
# Copying an address space

`copyuvm` reads the pages `F` of the parent, and owns only the pages of the new directory.
-/

namespace Xv6.Vm

open LittleEndian Fallible Option Nat Set
open UserMemory (pgroundup)

variable {K : Link} {s s' s'' : Phys} {d p f k i e sz : ℕ} {F F' G H H' : Set ℕ} {q q' : ℕ → ℕ}

theorem memmove_bind {α : Type} (dst src : ℕ) (g : PUnit → M α) (s : Phys) :
    (memmove dst src >>= g) s = g ⟨⟩ (s.setPage dst (s.mem src)) := rfl

theorem pteFlags_or_one (hp : present e) : pteFlags e ||| 1 = pteFlags e := by
  refine eq_of_testBit_eq fun j => ?_
  rw [testBit_or]
  cases j with
  | zero =>
    have hbit : (pteFlags e).testBit 0 := by
      rw [pteFlags, show PGSIZE = 2 ^ 12 from rfl, testBit_mod_two_pow]
      simpa [present] using hp
    rw [hbit, Bool.true_or]
  | succ j =>
    have hbit : testBit 1 (j + 1) = false := by simp [testBit_succ]
    rw [hbit, Bool.or_false]

theorem pteFlags_lt (e : ℕ) : pteFlags e < PGSIZE := mod_lt e (by decide)

/-- Page `k` of `d` is a copy of page `k` of `p` in the state `s`. -/
structure Copies (s s' : Phys) (p d k : ℕ) : Prop where
  present : present (pte s' d k)
  flags : pteFlags (pte s' d k) = pteFlags (pte s p k)
  bytes : page s' d k = page s p k

theorem Copies.trans (h : Copies s s' p d k) (hk : k < upages) (hpte : pte s'' d k = pte s' d k)
    (hkeeps : Keeps s' s'' d) : Copies s s'' p d k := by
  refine ⟨by rw [hpte]; exact h.present, by rw [hpte, h.flags], ?_⟩
  rw [page, hpte, hkeeps.pages k hk h.present]
  exact h.bytes

theorem Copies.source (h : Copies s s' p d k) (hpte : pte s p k = pte s'' p k)
    (hpage : page s p k = page s'' p k) : Copies s'' s' p d k :=
  ⟨h.present, by rw [h.flags, hpte], by rw [h.bytes, hpage]⟩

/-- The pages from `lo` to the size are below `KERNBASE` and mapped. -/
def Mappable (s : Phys) (p sz lo : ℕ) : Prop := sz < KERNBASE ∧ ∀ k, lo ≤ k → k < npages sz →
    present (pte s p k)

/-- The loop of `copyuvm`, from page `lo` on.  It panics on a page that is not mapped, and at the
kernel part. -/
theorem copyFrom_spec (hkern : KERNBASE ≤ sz → ∀ k, present (q' k) → present (q k)) :
    ∀ (n lo : ℕ) (s : Phys) (H : Set ℕ), Dir s p F q' → Dir s d H q → Owned K s (H ∪ F) →
      (∀ f ∈ F, f ∉ H) → lo ≤ upages → (∀ k, lo ≤ k → k < upages → pte s d k = 0) →
      (sz < KERNBASE → npages sz - lo < n) → Sat (fun _ _ => ¬ Mappable s p sz lo)
        (fun r s' => ∃ H', Dir s' d H' q ∧ Steps K s s' H H' ∧ Keeps s s' d ∧
      (∀ k < lo, pte s' d k = pte s d k) ∧ (r = false → ¬ Rich s d (npages sz - lo)) ∧
          (r → npages sz ≤ upages ∧
      (∀ k, lo ≤ k → k < npages sz → present (pte s p k) ∧ Copies s s' p d k) ∧ ∀ k, lo ≤ k →
      npages sz ≤ k → k < upages → pte s' d k = 0)) (copyFrom K p d sz n (lo * PGSIZE) s) := by
  have hupages : upages = 2 ^ 19 := rfl
  intro n
  induction n with
  | zero =>
    intro lo s H _ _ _ _ _ _ hn
    exact fun hm => Nat.not_lt_zero _ (hn hm.1)
  | succ n ih =>
    intro lo s H hp hd ho hdisj hlo hnone hn
    have hoH : Owned K s H := ho.mono subset_union_left
    rw [copyFrom]
    by_cases hlt : lo * PGSIZE < sz
    swap
    · rw [if_neg hlt]
      have hle : npages sz ≤ lo := Nat.le_of_not_lt fun hc => hlt (lt_npages.1 hc)
      exact ⟨H, hd, .refl hoH, .refl, fun _ _ => rfl, fun hr => Bool.noConfusion hr,
        fun _ => ⟨hle.trans hlo, fun k hk hk' => by omega, fun k hk _ hk' => hnone k hk hk'⟩⟩
    have hlo' : lo < npages sz := lt_npages.2 hlt
    have hpage : lo * PGSIZE / PGSIZE = lo := Nat.mul_div_cancel lo (by decide)
    rw [if_pos hlt, bind_ok (walkpgdir_false hpage (by omega) s)]
    by_cases hpk : present (pte s p lo)
    swap
    · -- the page is not mapped
      have hbad : ¬ Mappable s p sz lo := fun hm => hpk (hm.2 lo le_rfl hlo')
      by_cases htab : present (pde s p (lo / 1024))
      · rw [if_pos htab]
        show Sat _ _ ((load _ _ >>= fun e => _) s)
        rw [load_bind, entry_eq_pte htab, if_neg hpk]
        exact hbad
      · rw [if_neg htab]
        exact hbad
    have htab := Dir.table_of_pte hpk
    rw [if_pos htab]
    show Sat _ _ ((load _ _ >>= fun e => _) s)
    rw [load_bind, entry_eq_pte htab, if_pos hpk]
    refine ((kalloc_spec hoH).weaken fun _ _ hf => hf.elim).bind fun r s₁ hr => ?_
    rcases hr with ⟨rfl, hq, hempty⟩ | ⟨f, rfl, hf, hfH, hmem, hsteps₁, hfree, hrefuse⟩
    · exact ⟨H, hq.dir hd, hq.steps hoH, hq.keeps,
        fun k _ => hd.pte_congr (fun g _ => by rw [hq.mem]) k,
        fun _ hr => not_rich_of_empty (n := 0) hempty (hr.mono (by omega)),
        fun hr => Bool.noConfusion hr⟩
    · show Sat _ _ ((memmove f _ >>= fun _ => _) s₁)
      rw [memmove_bind, hmem]
      set s₂ := s₁.setPage f (s.mem (pteAddr (pte s p lo))) with hs₂
      have hmem₂ : ∀ g ∈ H, s₂.mem g = s.mem g := by
        intro g hg
        rw [hs₂, setPage_mem_of_ne s₁ (fun heq : g = f => hfH (heq ▸ hg)), hmem]
      have hd₂ : Dir s₂ d H q := hd.congr hmem₂
      have hpte₂ := hd.pte_congr hmem₂
      have hkeeps₂ : Keeps s s₂ d :=
        ⟨fun j hj hpj => hmem₂ _ (hd.mem_page hj hpj), fun i _ => hd.pde_congr hmem₂ i⟩
      have hrich₂ : ∀ n, Rich s d (n + 1) → Rich s₂ d n :=
        fun n hr => hr.take (hd.pde_congr hmem₂) hfree hrefuse
      have hsteps₂ : Steps K s s₂ H (insert f H) :=
        hsteps₁.trans (.setPage hsteps₁.own (mem_insert f H) _)
      rcases Nat.eq_or_lt_of_le hlo with rfl | hup
      · -- the kernel part is mapped already
        have hKsz : KERNBASE ≤ sz := (show upages * PGSIZE < sz from hlt).le
        have hpq : present (pte s₂ d upages) := by
          rw [hd₂.kern upages le_rfl]
          refine hkern hKsz upages ?_
          rwa [← hp.kern upages le_rfl]
        rw [bind_error (mappages_remap (by decide) hpq _ _ _)]
        exact fun hm => Nat.not_lt_of_le hKsz hm.1
      refine ((mappages_user hd₂ hsteps₂.own hfH hup (by rw [hpte₂, hnone lo le_rfl hup])
        (pteFlags_lt (pte s p lo))).weaken fun _ _ hf => hf.elim).bind fun r s₃ hr => ?_
      rcases hr with ⟨rfl, hq, hpoor⟩ | ⟨H₃, rfl, hd₃, hsteps₃, hpte₃, hkeeps₃, hmem₃, hrich₃, -⟩
      · -- no page table: the new page goes back
        have hsteps₃ := hsteps₂.trans (hq.steps hsteps₂.own)
        have hfmem : f ∈ insert f H := mem_insert f H
        have hsteps₄ := hsteps₃.trans (.freed hsteps₃.own hfmem)
        rw [show insert f H \ {f} = H by simp [hfH]] at hsteps₄
        have hmem₄ : ∀ g ∈ H, (s₃.freed f).mem g = s.mem g := by
          intro g hg
          rw [freed_mem_of_ne s₃ (fun heq : g = f => hfH (heq ▸ hg)), hq.mem, hmem₂ g hg]
        rw [if_pos (by decide), bind_ok (kfree_eq hsteps₃.own hfmem)]
        exact ⟨H, hd.congr hmem₄, hsteps₄,
          ⟨fun j hj hpj => hmem₄ _ (hd.mem_page hj hpj), fun i _ => hd.pde_congr hmem₄ i⟩,
          fun k _ => hd.pte_congr hmem₄ k, fun _ hr => hpoor (hrich₂ 0 (hr.mono (by omega))),
          fun hr => Bool.noConfusion hr⟩
      · have hnext : (lo * PGSIZE + PGSIZE) % 2 ^ 32 = (lo + 1) * PGSIZE := by
          simp only [PGSIZE]
          omega
        have hsteps := hsteps₂.trans hsteps₃
        have hsteps' := hsteps.beside ho hdisj
        have hkept : ∀ g ∈ F, s₃.mem g = s.mem g := fun g hg => hsteps.kept ho hdisj hg
        have hpte_p := hp.pte_congr hkept
        have hkeeps : Keeps s s₃ d := hkeeps₂.trans hkeeps₃ fun j _ => hpte₂ j
        have hcopy : Copies s s₃ p d lo := by
          have hpte : pte s₃ d lo = f * PGSIZE ||| pteFlags (pte s p lo) ||| PTE_P := by
            rw [hpte₃, if_pos rfl]
          refine ⟨by rw [hpte]; exact present_entry _ _, ?_, ?_⟩
          · rw [hpte, pteFlags_entry (pteFlags_lt _), pteFlags_or_one hpk]
          · rw [page, hpte, pteAddr_entry (pteFlags_lt _), hmem₃, setPage_mem_self]
            rfl
        rw [if_neg (by decide), hnext]
        refine ((ih (lo + 1) s₃ H₃ (hp.congr hkept) hd₃ hsteps'.own (hsteps.disjoint ho hdisj) hup
          (fun k hk hk' => ?_) fun hK => by have := hn hK; omega).weaken ?_).mono ?_
        · rw [hpte₃, if_neg (by omega), hpte₂, hnone k (by omega) hk']
        · rintro e - hbad hm
          exact hbad ⟨hm.1, fun k hk hk' => by rw [hpte_p]; exact hm.2 k (by omega) hk'⟩
        · rintro r s₄ ⟨H₄, hd₄, hsteps₄, hkeeps₄, hpte₄, hpoor, hr⟩
          have hpte₁ : ∀ k, present (pte s d k) → pte s₃ d k = pte s d k := fun k hpk' => by
            rw [hpte₃, if_neg, hpte₂]
            rintro rfl
            rw [hnone k le_rfl hup] at hpk'
            exact Bool.noConfusion hpk'
          refine ⟨H₄, hd₄, hsteps.trans hsteps₄, hkeeps.trans hkeeps₄ hpte₁, fun k hk => ?_,
            fun hrf hr => hpoor hrf (hrich₃ _ (hrich₂ _ (hr.mono (by omega)))), fun hrt => ?_⟩
          · rw [hpte₄ k (by omega), hpte₃, if_neg (by omega), hpte₂]
          · obtain ⟨hle, hcopies, habove⟩ := hr hrt
            refine ⟨hle, fun k hk hk' => ?_, fun k hk hk' => habove k (by omega) hk'⟩
            rcases Nat.eq_or_lt_of_le hk with rfl | hk
            · exact ⟨hpk, hcopy.trans hup (hpte₄ lo (by omega)) hkeeps₄⟩
            · obtain ⟨hpk', hc⟩ := hcopies k hk hk'
              rw [hpte_p] at hpk'
              refine ⟨hpk', hc.source (hpte_p k) ?_⟩
              rw [page, hpte_p, hkept _ (hp.mem_page (by omega) hpk')]
              rfl

/-- `copyuvm` copies every page, or gives every page back, or panics on a page that is not
mapped. -/
theorem copyuvm_sat (hkern : KERNBASE ≤ sz → ∀ k, present (q' k) → present (kernelEntry K k))
    (hp : Dir s p F q') (ho : Owned K s F) : Sat (fun _ _ => ¬ Mappable s p sz 0)
      (fun r s' => (r = none ∧ Steps K s s' ∅ ∅ ∧
      ¬ (s.refuse = [] ∧ NPDENTRIES + npages sz < s.freelist.length)) ∨ ∃ d H, r = some d ∧
      Dir s' d H (kernelEntry K) ∧ Steps K s s' ∅ H ∧ (∀ k < npages sz, Copies s s' p d k) ∧
      ∀ k, npages sz ≤ k → k < upages → pte s' d k = 0) (copyuvm K p sz s) := by
  have hno : Owned K s ∅ := ho.mono (empty_subset F)
  have hupages : upages = 2 ^ 19 := rfl
  have hfuel : fuel = 2 ^ 20 := rfl
  rw [copyuvm]
  refine ((setupkvm_spec hno).weaken fun _ _ hf => hf.elim).bind fun r s₁ hr => ?_
  rcases hr with ⟨rfl, hsteps, hpoor⟩ | ⟨d, H, rfl, hd, hsteps, hempty, -, hrich, -⟩
  · exact .inl ⟨rfl, hsteps, fun hr => hpoor ⟨hr.1, by omega⟩⟩
  · obtain ⟨hsteps', hdisj, hkept⟩ := hsteps.fresh ho
    have hpte := hp.pte_congr hkept
    have hcopy := copyFrom_spec hkern fuel 0 s₁ H (hp.congr hkept) hd hsteps'.own hdisj
      (zero_le _) (fun k _ hk => hempty k hk) fun hK => by
        have := npages_le hK.le
        omega
    rw [zero_mul] at hcopy
    refine (hcopy.weaken fun e _ hbad hm =>
      hbad ⟨hm.1, fun k hk hk' => by rw [hpte]; exact hm.2 k hk hk'⟩).bind
      fun r s₂ => ?_
    rintro ⟨H₂, hd₂, hsteps₂, -, -, hpoor, hr⟩
    cases r with
    | false =>
      refine ((freevm_spec hd₂ hsteps₂.own).weaken fun _ _ hf => hf.elim).bind fun _ s₃ hsteps₃ =>
        ?_
      exact .inl ⟨rfl, (hsteps.trans hsteps₂).trans hsteps₃,
        fun ⟨hr, hlen⟩ => hpoor rfl (hrich _ hr hlen)⟩
    | true =>
      obtain ⟨hle, hcopies, habove⟩ := hr rfl
      refine .inr ⟨d, H₂, rfl, hd₂, hsteps.trans hsteps₂, fun k hk => ?_,
        fun k hk hk' => habove k (zero_le k) hk hk'⟩
      obtain ⟨hpk, hc⟩ := hcopies k (zero_le k) hk
      rw [hpte] at hpk
      refine hc.source (hpte k) ?_
      rw [page, hpte, hkept _ (hp.mem_page (by omega) hpk)]
      rfl

theorem copyuvm_spec (hsz : sz < KERNBASE) (hp : Dir s p F q') (ho : Owned K s F)
    (hpresent : ∀ k < npages sz, present (pte s p k)) :
    Total (fun r s' => (r = none ∧ Steps K s s' ∅ ∅ ∧
      ¬ (s.refuse = [] ∧ NPDENTRIES + npages sz < s.freelist.length)) ∨ ∃ d H, r = some d ∧
      Dir s' d H (kernelEntry K) ∧ Steps K s s' ∅ H ∧ (∀ k < npages sz, Copies s s' p d k) ∧
      ∀ k, npages sz ≤ k → k < upages → pte s' d k = 0) (copyuvm K p sz s) :=
  (copyuvm_sat (fun hK => absurd hsz (not_lt_of_ge hK)) hp ho).weaken
    fun _ _ hbad => hbad ⟨hsz, fun k _ hk => hpresent k hk⟩

/-! ## Independence -/

def byteAt (s : Phys) (d va : ℕ) : Option UInt8 :=
  (translate s d (va / PGSIZE)).map fun x => getByte (s.mem x.1) (va % PGSIZE)

theorem Dir.translate_some (h : Dir s d F q) {x : ℕ × ℕ} (hk : k < upages)
    (hx : translate s d k = some x) : x.1 ∈ F := by
  rw [translate] at hx
  split_ifs at hx with hp
  cases hx
  exact h.mem_page hk hp

theorem Dir.byteAt_congr (h : Dir s d F q) (hmem : ∀ f ∈ F, s'.mem f = s.mem f) {va : ℕ}
    (hva : va < KERNBASE) : byteAt s' d va = byteAt s d va := by
  have htrans : translate s' d (va / PGSIZE) = translate s d (va / PGSIZE) :=
    translate_congr (h.pte_congr hmem _)
  rw [byteAt, htrans, byteAt]
  rcases hx : translate s d (va / PGSIZE) with _ | x
  · rfl
  · rw [map_some, map_some, hmem _ (h.translate_some (Nat.div_lt_of_lt_mul hva) hx)]

theorem Dir.byteAt_setPage (h : Dir s d F q) (hf : f ∉ F) (b : Page) {va : ℕ}
    (hva : va < KERNBASE) : byteAt (s.setPage f b) d va = byteAt s d va :=
  h.byteAt_congr (fun g hg => setPage_mem_of_ne s (fun heq : g = f => hf (heq ▸ hg)) b) hva

/-- `copyuvm` makes an equal copy that shares no page with its source, or, if free pages are short,
changes nothing. -/
theorem copyuvm_independent {pgdir : ℕ} (hp : Dir s pgdir F q) (ho : Owned K s F)
    (hsz : sz < KERNBASE) (hpresent : ∀ k, k * PGSIZE < sz → translate s pgdir k ≠ none) :
    ∃ r s', copyuvm K pgdir sz s = (.ok r, s') ∧ (∀ d, r = some d →
        (∀ k, k * PGSIZE < pgroundup sz → ∃ x y, translate s' d k = some x ∧
      translate s pgdir k = some y ∧ x.2 = y.2 ∧ s'.mem x.1 = s.mem y.1) ∧
        (∀ j k x y, j < upages → k < upages → translate s' d j = some x →
      translate s' pgdir k = some y → x.1 ≠ y.1) ∧ (∀ k < upages, pgroundup sz ≤ k * PGSIZE →
      translate s' d k = none) ∧ (∀ k, upages ≤ k → pte s' d k = kernelEntry K k) ∧
        (∀ k, translate s' pgdir k = translate s pgdir k) ∧
      (∀ va < KERNBASE, byteAt s' pgdir va = byteAt s pgdir va) ∧
      (∀ k x b, k < upages → translate s' d k = some x →
      ∀ va < KERNBASE, byteAt (s'.setPage x.1 b) pgdir va = byteAt s' pgdir va) ∧
      ∀ k x b, k < upages → translate s' pgdir k = some x →
      ∀ va < KERNBASE, byteAt (s'.setPage x.1 b) d va = byteAt s' d va) ∧ (r = none →
      (∀ f, f ∈ s'.freelist ↔ f ∈ s.freelist) ∧
      ¬ (s.refuse = [] ∧ NPDENTRIES + npages sz < s.freelist.length)) := by
  have hpages : ∀ k < npages sz, present (pte s pgdir k) := by
    intro k hk
    by_contra hn
    refine hpresent k (lt_npages.1 hk) ?_
    rw [translate, if_neg hn]
  obtain ⟨r, s', hrun, hr⟩ := (copyuvm_spec hsz hp ho hpages).exists_ok
  refine ⟨r, s', hrun, ?_⟩
  rcases hr with ⟨rfl, hsteps, hpoor⟩ | ⟨d, H, rfl, hd, hsteps, hcopies, habove⟩
  · refine ⟨fun d hd => (by cases hd), fun _ => ⟨fun f => ?_, hpoor⟩⟩
    have := hsteps.total f
    simpa using this
  · refine ⟨fun d' hd' => ?_, fun hnone => by cases hnone⟩
    obtain rfl : d = d' := some.inj hd'
    obtain ⟨-, hdisj, hkept⟩ := hsteps.fresh ho
    have hp' := hp.congr hkept
    have htrans : ∀ k, translate s' pgdir k = translate s pgdir k :=
      fun k => translate_congr (hp.pte_congr hkept k)
    refine ⟨fun k hk => ?_, fun j k x y hj hk hx hy heq => ?_, fun k hk hk' => ?_, hd.kern, htrans,
      fun va hva => ?_, fun k x b hk hx va hva => ?_, fun k x b hk hx va hva => ?_⟩
    · rw [pgroundup_eq (by omega), Nat.mul_lt_mul_right (by decide)] at hk
      have hc := hcopies k hk
      refine ⟨_, _, if_pos hc.present, if_pos (hpages k hk), hc.flags, hc.bytes⟩
    · exact hdisj y.1 (hp'.translate_some hk hy) (heq ▸ hd.translate_some hj hx)
    · rw [pgroundup_eq (by omega), Nat.mul_le_mul_right_iff (by decide)] at hk'
      exact translate_of_zero (habove k hk' hk)
    · exact hp.byteAt_congr hkept hva
    · exact hp'.byteAt_setPage (fun hF => hdisj _ hF (hd.translate_some hk hx)) b hva
    · exact hd.byteAt_setPage (hdisj _ (hp'.translate_some hk hx)) b hva

theorem copyuvm_independent_first : ∃ p s d s' x y, Built smallLink p s ∧
    copyuvm smallLink p 100 s = (.ok (some d), s') ∧ translate s' d 0 = some x ∧
      translate s p 0 = some y ∧ s'.mem x.1 = s.mem y.1 := by
  obtain ⟨p, s, hb, hp, -, -, hrich⟩ := exists_built (show 1 ≤ 10000 by decide)
  obtain ⟨F, hdir, hown⟩ := hb.dir
  obtain ⟨r, s', hrun, hsome, hnone⟩ :=
    copyuvm_independent hdir hown (show 100 < KERNBASE by decide) fun k hk => by
    obtain rfl : k = 0 := by
      simp only [PGSIZE] at hk
      omega
    rw [translate, if_pos (hp 0 one_pos).1]
    exact some_ne_none _
  cases r with
  | none =>
    exact absurd ⟨hrich.1, lt_of_lt_of_le (by decide) (le_of_add_left_le hrich.2)⟩ (hnone rfl).2
  | some d =>
    obtain ⟨x, y, hx, hy, -, hmem⟩ := (hsome d rfl).1 0 (by decide)
    exact ⟨p, s, d, s', x, y, hb, hrun, hx, hy, hmem⟩

end Xv6.Vm
