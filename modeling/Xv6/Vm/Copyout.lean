import Xv6.Vm.Copy

/-!
# Copying out to an address space

`copyout` writes bytes page by page to the pages that user code may access.  Where there is no page
table, `uva2ka` takes the word at address 0 of the address space in use for an entry.  That it does
not come to such a page is `Tabled`.
-/

namespace Xv6.Vm

open LittleEndian Fallible List Option Nat

variable {null : M ℕ} {K : Link} {s s' s'' : Phys} {d f k i e va : ℕ} {F F' G : Set ℕ} {q : ℕ → ℕ}

/-! ## Accessible pages -/

/-- Page `k` is present with `PTE_U`. -/
def accessible (s : Phys) (d k : ℕ) : Bool := present (pte s d k) && user (pte s d k)

theorem accessible_congr (h : pte s' d k = pte s d k) : accessible s' d k = accessible s d k := by
  rw [accessible, h, accessible]

theorem present_of_accessible (h : accessible s d k) : present (pte s d k) := by
  rw [accessible, Bool.and_eq_true] at h
  exact h.1

theorem user_map {m : Kmap} (hm : m.Ok) (hperm : user m.perm = false) (hq : ∀ k, user (q k) = false)
    (k : ℕ) : user (m.map q k) = false := by
  rw [Kmap.map]
  split_ifs with hk
  · obtain ⟨c, hc⟩ : ∃ c, m.physStart + (k * PGSIZE - m.virt) = c * 2 ^ 12 := by
      refine ⟨(m.physStart + (k * PGSIZE - m.virt)) / PGSIZE, ?_⟩
      have h₁ := hm.virt
      have h₂ := hm.phys
      simp only [PGSIZE] at *
      omega
    rw [hc, user, testBit_or, testBit_or, testBit_mul_two_pow]
    rw [user] at hperm
    have hp : PTE_P.testBit 2 = false := by decide
    simp [hperm, hp]
  · exact hq k

theorem user_kernelEntry (K : Link) (k : ℕ) : user (kernelEntry K k) = false := by
  have hperm : ∀ m ∈ kmap K, user m.perm = false := by
    intro m hm
    simp only [kmap, mem_cons, not_mem_nil, or_false] at hm
    have hw : user PTE_W = false := by decide
    rcases hm with rfl | rfl | rfl | rfl
    · exact hw
    · exact zero_testBit 2
    · exact hw
    · exact hw
  have hfold : ∀ (ms : List Kmap) (q : ℕ → ℕ), (∀ m ∈ ms, m.Ok) → (∀ m ∈ ms, user m.perm = false) →
      (∀ k, user (q k) = false) → ∀ k, user (ms.foldl (fun q m => m.map q) q k) = false := by
    intro ms
    induction ms with
    | nil => exact fun q _ _ hq k => hq k
    | cons m ms ih =>
      intro q hok hperm hq k
      exact ih _ (fun m' hm' => hok m' (mem_cons_of_mem m hm'))
        (fun m' hm' => hperm m' (mem_cons_of_mem m hm'))
        (user_map (hok m mem_cons_self) (hperm m mem_cons_self) hq) k
  exact hfold (kmap K) _ (kmap_ok K) hperm (fun _ => rfl) k

theorem Dir.lt_of_accessible (h : Dir s d F (kernelEntry K)) (ha : accessible s d k) :
    k < upages := by
  by_contra hk
  rw [accessible, h.kern k (by omega), user_kernelEntry, Bool.and_false] at ha
  exact Bool.noConfusion ha

theorem uva2ka_eq (null : M ℕ) (hva : va / PGSIZE = k) (hlt : k < 2 ^ 20)
    (htab : present (pde s d (k / 1024))) :
    uva2ka null d va s = (.ok (if accessible s d k then some (pteAddr (pte s d k)) else none),
      s) := by
  rw [uva2ka, bind_ok (walkpgdir_false hva hlt s), if_pos htab]
  show (load _ _ >>= fun e => _) s = _
  rw [load_bind, entry_eq_pte htab]
  by_cases ha : accessible s d k
  · rw [if_pos ha]
    exact congrFun (if_pos ha) s
  · rw [if_neg ha]
    exact congrFun (if_neg ha) s

theorem kernelWritable_of_avail (hf : f ∈ Avail K) : kernelWritable K f ∧ p2v (f * PGSIZE) ≠ 0 := by
  obtain ⟨h₁, h₂⟩ := hf
  have h₃ := K.data_lt
  have h₄ := K.link_lt
  have h₅ := K.end_le
  rw [kernelWritable, decide_eq_true_iff]
  simp only [p2v, v2p, PGSIZE, KERNBASE, PHYSTOP, KERNLINK, EXTMEM] at *
  omega

/-! ## One page is written -/

/-- Accessible pages of `d` were written, and nothing else. -/
structure Wrote (K : Link) (s s' : Phys) (d : ℕ) (F : Set ℕ) : Prop where
  dir : Dir s' d F (kernelEntry K)
  steps : Steps K s s' F F
  freelist : s'.freelist = s.freelist
  pde : ∀ i, pde s' d i = pde s d i
  pte : ∀ k, pte s' d k = pte s d k
  only : ∀ f, (∀ k, accessible s d k → pteAddr (Vm.pte s d k) ≠ f) → s'.mem f = s.mem f

theorem Wrote.refl (h : Dir s d F (kernelEntry K)) (ho : Owned K s F) : Wrote K s s d F :=
  ⟨h, .refl ho, rfl, fun _ => rfl, fun _ => rfl, fun _ _ => rfl⟩

theorem Wrote.trans (h₁ : Wrote K s s' d F) (h₂ : Wrote K s' s'' d F) : Wrote K s s'' d F where
  dir := h₂.dir
  steps := h₁.steps.trans h₂.steps
  freelist := h₂.freelist.trans h₁.freelist
  pde i := (h₂.pde i).trans (h₁.pde i)
  pte k := (h₂.pte k).trans (h₁.pte k)
  only f hf := by
    refine (h₂.only f fun k hk => ?_).trans (h₁.only f hf)
    rw [accessible_congr (h₁.pte k)] at hk
    rw [h₁.pte]
    exact hf k hk

theorem Wrote.page (h : Dir s d F (kernelEntry K)) (ho : Owned K s F) (ha : accessible s d k)
    (p : Page) : Wrote K s (s.setPage (pteAddr (Vm.pte s d k)) p) d F := by
  have hk := h.lt_of_accessible ha
  have hp := present_of_accessible ha
  set f := pteAddr (Vm.pte s d k)
  have hpde : ∀ i, Vm.pde (s.setPage f p) d i = Vm.pde s d i := fun i => by
    rw [Vm.pde, setPage_mem_of_ne s (h.page_ne_dir hk hp).symm, Vm.pde]
  have hpte : ∀ j, Vm.pte (s.setPage f p) d j = Vm.pte s d j := by
    intro j
    rw [Vm.pte, hpde, Vm.pte]
    split_ifs with hj
    · rw [setPage_mem_of_ne s (h.page_ne_table hk hp hj).symm]
    · rfl
  exact ⟨h.of_eq hpde hpte, .setPage ho (h.mem_page hk hp) p, rfl, hpde, hpte,
    fun g hg => setPage_mem_of_ne s (hg k ha).symm p⟩

theorem Wrote.others (h : Dir s d F (kernelEntry K)) (hw : Wrote K s s' d F) (c : ℕ) :
    Others K d s { s' with cr3 := c } := by
  have hne : ∀ f, (∀ k < upages, present (Vm.pte s d k) → pteAddr (Vm.pte s d k) ≠ f) →
    s'.mem f = s.mem f := fun f hf =>
    hw.only f fun k ha => hf k (h.lt_of_accessible ha) (present_of_accessible ha)
  refine ⟨h.pagesOf_eq ▸ hw.steps.own, hne d fun k hk hp => h.page_ne_dir hk hp, fun i hi => ?_⟩
  exact hne _ fun k hk hp => h.page_ne_table hk hp hi

theorem byteAt_blit (h : Dir s d F (kernelEntry K)) (ho : Owned K s F) (ha : accessible s d k)
    {o n : ℕ} (g : ℕ → UInt8) {a : ℕ} (haK : a < KERNBASE) :
    byteAt (s.setPage (pteAddr (pte s d k)) (blit (s.mem (pteAddr (pte s d k))) o n g)) d a =
      if a / PGSIZE = k ∧ o ≤ a % PGSIZE ∧ a % PGSIZE < o + n then some (g (a % PGSIZE - o)) else
      byteAt s d a := by
  have hk := h.lt_of_accessible ha
  have hp := present_of_accessible ha
  have hpte := (Wrote.page h ho ha (blit (s.mem (pteAddr (pte s d k))) o n g)).pte
  rw [byteAt, translate_congr (hpte _), byteAt]
  by_cases hak : a / PGSIZE = k
  · rw [hak, translate, if_pos hp, map_some, setPage_mem_self]
    by_cases hin : o ≤ a % PGSIZE ∧ a % PGSIZE < o + n
    · rw [if_pos ⟨rfl, hin⟩, getByte_blit hin.1 hin.2 (Nat.mod_lt a (by decide))]
    · rw [if_neg (fun hc => hin hc.2), getByte_blit_of_disjoint _ _ (by omega), map_some]
  · rw [if_neg fun hc => hak hc.1]
    rcases hx : translate s d (a / PGSIZE) with _ | x
    · rfl
    · rw [translate] at hx
      split_ifs at hx with hpa
      cases hx
      have hne : pteAddr (pte s d (a / PGSIZE)) ≠ pteAddr (pte s d k) := fun heq =>
        hak (h.page_inj (Nat.div_lt_of_lt_mul haK) hk hpa hp heq)
      rw [map_some, map_some, setPage_mem_of_ne s hne]

/-! ## The loop -/

/-- The page of byte `i` of a range that begins at `va`. -/
def pageOf (va i : ℕ) : ℕ := (va + i) % 2 ^ 32 / PGSIZE

/-- Where the address `a` is in a range that begins at `va`. -/
def offsetIn (va a : ℕ) : ℕ := (a + 2 ^ 32 - va) % 2 ^ 32

/-- The bytes from `va` to the end of its page. -/
def inPage (va : ℕ) : ℕ := PGSIZE - va % PGSIZE

def nextPage (va : ℕ) : ℕ := (pgrounddown va + PGSIZE) % 2 ^ 32

theorem inPage_pos (va : ℕ) : 0 < inPage va := Nat.sub_pos_of_lt (Nat.mod_lt va (by decide))

theorem pageOf_eq {va i : ℕ} (hva : va < 2 ^ 32) (hi : i < inPage va) :
    pageOf va i = va / PGSIZE := by
  simp only [pageOf, inPage, PGSIZE] at *
  omega

theorem pageOf_next (va i : ℕ) : pageOf (nextPage va) i = pageOf va (inPage va + i) := by
  simp only [pageOf, nextPage, inPage, pgrounddown, PGSIZE]
  omega

theorem nextPage_mod (va : ℕ) : nextPage va % PGSIZE = 0 := by
  simp only [nextPage, pgrounddown, PGSIZE]
  omega

theorem offsetIn_lt {va a m : ℕ} (hva : va < 2 ^ 32) (ha : a < 2 ^ 32) (hm : m ≤ inPage va) :
    (a / PGSIZE = va / PGSIZE ∧ va % PGSIZE ≤ a % PGSIZE ∧ a % PGSIZE < va % PGSIZE + m) ↔
      offsetIn va a < m := by
  simp only [offsetIn, inPage, PGSIZE] at *
  omega

theorem offsetIn_eq {va a : ℕ} (hva : va < 2 ^ 32) (ha : a < 2 ^ 32)
    (h : offsetIn va a < inPage va) : a % PGSIZE - va % PGSIZE = offsetIn va a := by
  simp only [offsetIn, inPage, PGSIZE] at *
  omega

theorem offsetIn_next {va a : ℕ} (ha : a < 2 ^ 32) (h : inPage va ≤ offsetIn va a) :
    offsetIn va a = inPage va + offsetIn (nextPage va) a := by
  simp only [offsetIn, inPage, nextPage, pgrounddown, PGSIZE] at *
  omega

theorem offsetIn_next_ge {va a : ℕ} (hva : va < 2 ^ 32) (ha : a < 2 ^ 32)
    (h : offsetIn va a < inPage va) : 2 ^ 32 - inPage va ≤ offsetIn (nextPage va) a := by
  simp only [offsetIn, inPage, nextPage, pgrounddown, PGSIZE] at *
  omega

theorem memmoveTo_bind {α : Type} (pg o n : ℕ) (f : ℕ → UInt8) (g : PUnit → M α) (s : Phys) :
    (memmoveTo pg o n f >>= g) s = g ⟨⟩ (s.setPage pg (blit (s.mem pg) o n f)) := rfl

/-- `s'` is `s` with the bytes `bs` from `va` on. -/
def Replaced (s s' : Phys) (d va : ℕ) (bs : List UInt8) : Prop :=
  ∀ a < KERNBASE, byteAt s' d a = if offsetIn va a < bs.length then
    some (bs.getD (offsetIn va a) 0) else byteAt s d a

theorem Replaced.nil : Replaced s s d va [] := fun _ _ => (if_neg (not_lt_zero _)).symm

theorem Replaced.append {bs : List UInt8} (h₁ : Replaced s s' d va (bs.take (inPage va)))
    (h₂ : Replaced s' s'' d (nextPage va) (bs.drop (inPage va))) (hva : va < 2 ^ 32)
    (hlen : bs.length ≤ 2 ^ 32) : Replaced s s'' d va bs := by
  intro a ha
  have ha' : a < 2 ^ 32 := ha.trans (by decide)
  rw [h₂ a ha, h₁ a ha, length_take, length_drop]
  rcases lt_or_ge (offsetIn va a) (inPage va) with hlt | hge
  · have hout := offsetIn_next_ge hva ha' hlt
    rw [if_neg (by omega)]
    by_cases hin : offsetIn va a < bs.length
    · rw [if_pos (by omega), if_pos hin, getD_eq_getElem?_getD, getElem?_take_of_lt hlt,
        getD_eq_getElem?_getD]
    · rw [if_neg (by omega), if_neg hin]
  · have hshift := offsetIn_next ha' hge
    by_cases hin : offsetIn va a < bs.length
    · rw [if_pos (by omega), if_pos hin, getD_eq_getElem?_getD, getElem?_drop, ← hshift,
        getD_eq_getElem?_getD]
    · rw [if_neg (by omega), if_neg (by omega), if_neg hin]

theorem Replaced.page {bs : List UInt8} (h : Dir s d F (kernelEntry K)) (ho : Owned K s F)
    (hva : va < 2 ^ 32) (ha : accessible s d (va / PGSIZE)) :
    Replaced s (s.setPage (pteAddr (pte s d (va / PGSIZE)))
      (blit (s.mem (pteAddr (pte s d (va / PGSIZE)))) (va % PGSIZE) (min (inPage va) bs.length)
      fun i => bs.getD i 0)) d va (bs.take (inPage va)) := by
  intro a haK
  have ha' : a < 2 ^ 32 := haK.trans (by decide)
  rw [byteAt_blit h ho ha _ haK, length_take]
  simp only [offsetIn_lt hva ha' (min_le_left (inPage va) bs.length)]
  split_ifs with hin
  · have hlt : offsetIn va a < inPage va := hin.trans_le (min_le_left _ _)
    rw [offsetIn_eq hva ha' hlt, getD_eq_getElem?_getD, getD_eq_getElem?_getD,
      getElem?_take_of_lt hlt]
  · rfl

/-- `copyout` of some bytes: what is written, and when it succeeds. -/
structure Copied (K : Link) (s s' : Phys) (d : ℕ) (F : Set ℕ) (va : ℕ) (bs : List UInt8) (r : ℤ) :
Prop where
  wrote : Wrote K s s' d F
  result : (r = -1 ∧ ∃ i < bs.length, ¬ accessible s d (pageOf va i)) ∨
    (r = 0 ∧ (∀ i < bs.length, accessible s d (pageOf va i)) ∧ Replaced s s' d va bs)

theorem Copied.nil (h : Dir s d F (kernelEntry K)) (ho : Owned K s F) : Copied K s s d F va [] 0 :=
  ⟨.refl h ho, .inr ⟨rfl, fun i hi => absurd hi (not_lt_zero i), .nil⟩⟩

theorem copyoutFrom_page {bs : List UInt8}
    (hka : uva2ka null d (pgrounddown va) s = (.ok (some f), s))
    (hf : kernelWritable K f ∧ p2v (f * PGSIZE) ≠ 0) (hbs : bs ≠ []) (n : ℕ) :
    copyoutFrom null K d (n + 1) va bs s = copyoutFrom null K d n (nextPage va)
      (bs.drop (inPage va))
      (s.setPage f (blit (s.mem f) (va % PGSIZE) (min (inPage va) bs.length) fun i =>
      bs.getD i 0)) := by
  obtain ⟨b, bs, rfl⟩ := exists_cons_of_ne_nil hbs
  have hoff : va - pgrounddown va = va % PGSIZE := by
    simp only [pgrounddown, PGSIZE]
    omega
  have hdrop : (b :: bs).drop (min (inPage va) (b :: bs).length) = (b :: bs).drop (inPage va) := by
    rcases le_total (inPage va) (b :: bs).length with hle | hle
    · rw [min_eq_left hle]
    · rw [min_eq_right hle, drop_length, drop_eq_nil_of_le hle]
  rw [copyoutFrom, bind_ok hka]
  show (if p2v _ = 0 then _ else if kernelWritable K _ then memmoveTo _ _ _ _ >>= fun _ => _ else
    _ : M ℤ) s = _
  rw [if_neg hf.2, if_pos hf.1, memmoveTo_bind, hoff]
  show copyoutFrom null K d n (nextPage va) ((b :: bs).drop (min (inPage va) (b :: bs).length))
    (s.setPage f (blit (s.mem f) (va % PGSIZE) (min (inPage va) (b :: bs).length) fun i =>
      (b :: bs).getD i 0)) = _
  rw [hdrop]

def fillPage (s : Phys) (d va : ℕ) (bs : List UInt8) : Phys :=
  s.setPage (pteAddr (pte s d (va / PGSIZE)))
    (blit (s.mem (pteAddr (pte s d (va / PGSIZE)))) (va % PGSIZE)
    (min (inPage va) bs.length) fun i => bs.getD i 0)

theorem copyoutFrom_round (null : M ℕ) {bs : List UInt8} (h : Dir s d F (kernelEntry K))
    (ho : Owned K s F) (hva : va < 2 ^ 32) (htab : present (pde s d (va / PGSIZE / 1024)))
    (hbs : bs ≠ []) (n : ℕ) : copyoutFrom null K d (n + 1) va bs s =
      if accessible s d (va / PGSIZE) then
      copyoutFrom null K d n (nextPage va) (bs.drop (inPage va)) (fillPage s d va bs) else
      (.ok (-1), s) := by
  have hk20 : va / PGSIZE < 2 ^ 20 := Nat.div_lt_of_lt_mul hva
  have hround : pgrounddown va / PGSIZE = va / PGSIZE := Nat.mul_div_cancel _ (by decide)
  have hka := uva2ka_eq null hround hk20 htab
  by_cases ha : accessible s d (va / PGSIZE)
  · rw [if_pos ha] at hka ⊢
    have hmem := h.mem_page (h.lt_of_accessible ha) (present_of_accessible ha)
    exact copyoutFrom_page hka (kernelWritable_of_avail (ho.avail _ (.inl hmem))) hbs n
  · obtain ⟨b, bs, rfl⟩ := exists_cons_of_ne_nil hbs
    rw [copyoutFrom, bind_ok hka, if_neg ha, if_neg ha]
    rfl

/-- Up to the first page that is not accessible, the pages of the `n` bytes from `va` on have page
tables. -/
def Tabled (s : Phys) (d va n : ℕ) : Prop :=
  ∀ i < n, (∀ j < i, accessible s d (pageOf va j)) → present (pde s d (pageOf va i / 1024))

theorem Tabled.first {n : ℕ} (h : Tabled s d va n) (hva : va < 2 ^ 32) (hn : 0 < n) :
    present (pde s d (va / PGSIZE / 1024)) := by
  have := h 0 hn fun j hj => absurd hj (not_lt_zero j)
  rwa [pageOf_eq hva (inPage_pos va)] at this

theorem Tabled.of_stop {n : ℕ} (hva : va < 2 ^ 32) (htab : present (pde s d (va / PGSIZE / 1024)))
    (ha : ¬ accessible s d (va / PGSIZE)) : Tabled s d va n := by
  intro i _ hall
  rcases i.eq_zero_or_pos with rfl | hi
  · rwa [pageOf_eq hva (inPage_pos va)]
  · have := hall 0 hi
    rw [pageOf_eq hva (inPage_pos va)] at this
    exact absurd this ha

/-- After an accessible page the condition is that of the next page. -/
theorem tabled_next {n : ℕ} (hva : va < 2 ^ 32) (ha : accessible s d (va / PGSIZE)) :
    Tabled s d va n ↔ Tabled s d (nextPage va) (n - inPage va) := by
  constructor
  · intro h i hi hall
    rw [pageOf_next]
    refine h _ (by omega) fun j hj => ?_
    rcases lt_or_ge j (inPage va) with hin | hin
    · rwa [pageOf_eq hva hin]
    · have := hall (j - inPage va) (by omega)
      rwa [pageOf_next, add_sub_of_le hin] at this
  · intro h i hi hall
    rcases lt_or_ge i (inPage va) with hin | hin
    · rw [pageOf_eq hva hin]
      exact Dir.table_of_pte (present_of_accessible ha)
    · have := h (i - inPage va) (by omega) fun j hj => by
        rw [pageOf_next]
        exact hall _ (by omega)
      rwa [pageOf_next, add_sub_of_le hin] at this

theorem Wrote.tabled (hw : Wrote K s s' d F) (va n : ℕ) : Tabled s' d va n ↔ Tabled s d va n := by
  simp only [Tabled, accessible, hw.pte, hw.pde]

/-- The loop, with a null pointer that faults.  It faults exactly if it comes to a page without page
table; if not, it is the same for every null pointer. -/
theorem copyoutFrom_spec : ∀ (n va : ℕ) (bs : List UInt8) (s : Phys), Dir s d F (kernelEntry K) →
    Owned K s F → va < 2 ^ 32 → bs.length ≤ 2 ^ 32 → bs.length + va % PGSIZE ≤ n * PGSIZE →
    Sat (fun _ _ => ¬ Tabled s d va bs.length) (fun r s' => Tabled s d va bs.length ∧
      Copied K s s' d F va bs r ∧ ∀ null, copyoutFrom null K d n va bs s = (.ok r, s')) (copyoutFrom
      (throw .fault) K d n va bs s) := by
  intro n
  induction n with
  | zero =>
    intro va bs s h ho hva hlen hn
    obtain rfl : bs = [] := eq_nil_of_length_eq_zero (by omega)
    exact ⟨fun i hi => absurd hi (not_lt_zero i), .nil h ho, fun _ => rfl⟩
  | succ n ih =>
    intro va bs s h ho hva hlen hn
    by_cases hbs : bs = []
    · subst hbs
      exact ⟨fun i hi => absurd hi (not_lt_zero i), .nil h ho, fun _ => rfl⟩
    have hpos : 0 < bs.length := length_pos_of_ne_nil hbs
    by_cases hpde : present (pde s d (va / PGSIZE / 1024))
    swap
    · obtain ⟨b, bs, rfl⟩ := exists_cons_of_ne_nil hbs
      have hround : pgrounddown va / PGSIZE = va / PGSIZE := Nat.mul_div_cancel _ (by decide)
      have hka : uva2ka (throw .fault) d (pgrounddown va) s = (.error .fault, s) := by
        rw [uva2ka, bind_ok (walkpgdir_false hround (Nat.div_lt_of_lt_mul hva) s), if_neg hpde]
        rfl
      rw [copyoutFrom, bind_error hka]
      exact fun htab => hpde (htab.first hva hpos)
    have hround := fun null => copyoutFrom_round null h ho hva hpde hbs n
    by_cases ha : accessible s d (va / PGSIZE)
    swap
    · rw [hround, if_neg ha]
      refine ⟨.of_stop hva hpde ha, ⟨.refl h ho, .inl ⟨rfl, 0, hpos, ?_⟩⟩,
        fun null => (hround null).trans (if_neg ha)⟩
      rwa [pageOf_eq hva (inPage_pos va)]
    have hw : Wrote K s (fillPage s d va bs) d F := .page h ho ha _
    have hpage : inPage va + va % PGSIZE = PGSIZE :=
      Nat.sub_add_cancel (Nat.mod_lt va (by decide)).le
    have hdrop : (bs.drop (inPage va)).length = bs.length - inPage va := length_drop
    have hfuel : (bs.drop (inPage va)).length + nextPage va % PGSIZE ≤ n * PGSIZE := by
      rw [add_mul] at hn
      rw [hdrop, nextPage_mod]
      omega
    have htab : Tabled (fillPage s d va bs) d (nextPage va) (bs.drop (inPage va)).length ↔
      Tabled s d va bs.length := by
      rw [hw.tabled, hdrop, tabled_next hva ha]
    have hrest := ih (nextPage va) (bs.drop (inPage va)) _ hw.dir hw.steps.own
      (Nat.mod_lt _ (by decide)) (by omega) hfuel
    rw [htab] at hrest
    rw [hround, if_pos ha]
    refine hrest.mono fun r s₂ ⟨htab', ⟨hw₂, hr⟩, hrun⟩ => ⟨htab', ⟨hw.trans hw₂, hr.imp ?_ ?_⟩,
      fun null => ((hround null).trans (if_pos ha)).trans (hrun null)⟩
    · rintro ⟨hr, i, hi, hni⟩
      rw [pageOf_next, accessible_congr (hw.pte _)] at hni
      exact ⟨hr, inPage va + i, by omega, hni⟩
    · rintro ⟨hr, hall, hreplaced⟩
      refine ⟨hr, fun i hi => ?_, (Replaced.page h ho hva ha).append hreplaced hva hlen⟩
      rcases lt_or_ge i (inPage va) with hin | hin
      · rw [pageOf_eq hva hin]
        exact ha
      · have := hall (i - inPage va) (by omega)
        rwa [pageOf_next, accessible_congr (hw.pte _), Nat.add_sub_of_le hin] at this

theorem fuel_enough {n : ℕ} (hn : n < 2 ^ 32) (va : ℕ) : n + va % PGSIZE ≤ (fuel + 1) * PGSIZE := by
  have := mod_lt va (show 0 < PGSIZE by decide)
  simp only [fuel, PGSIZE] at *
  omega

theorem copyoutWith_spec {p : List UInt8} (h : Dir s d F (kernelEntry K)) (ho : Owned K s F)
    (hva : va < 2 ^ 32) (hlen : p.length < 2 ^ 32) :
    Sat (fun _ _ => ¬ Tabled s d va p.length) (fun r s' => Tabled s d va p.length ∧
      Copied K s s' d F va p r ∧ ∀ null, copyoutWith null K d va p s = (.ok r, s')) (copyoutWith
      (throw .fault) K d va p s) :=
  copyoutFrom_spec (fuel + 1) va p s h ho hva hlen.le (fuel_enough hlen va)

theorem copyout_spec {p : List UInt8} (h : Dir s d F (kernelEntry K)) (ho : Owned K s F)
    (hva : va < 2 ^ 32) (hlen : p.length < 2 ^ 32) (htab : Tabled s d va p.length) :
    Total (fun r s' => Copied K s s' d F va p r) (copyout K d va p s) := by
  obtain ⟨r, s', -, -, hcopied, hrun⟩ :=
    ((copyoutWith_spec h ho hva hlen).weaken fun _ _ hn => hn htab).exists_ok
  rw [copyout, hrun]
  exact hcopied

/-- `copyout` reads through no null pointer, succeeds exactly on accessible pages, then replaces
exactly the bytes, and writes to no other page, exactly if the pages up to the first that is not
accessible have page tables. -/
theorem copyout_exact {p : List UInt8} (hb : Built K d s) (hva : va < 2 ^ 32)
    (hlen : p.length < 2 ^ 32) : (copyoutWith (throw .fault) K d va p s = copyout K d va p s ∧
      ∃ r s', copyout K d va p s = (.ok r, s') ∧ (r = 0 ∨ r = -1) ∧
      (r = 0 ↔ ∀ i < p.length, accessible s d (pageOf va i)) ∧
      (r = 0 → ∀ a < KERNBASE, byteAt s' d a =
        if offsetIn va a < p.length then some (p.getD (offsetIn va a) 0) else byteAt s d a) ∧
      (∀ k, translate s' d k = translate s d k) ∧ s'.freelist = s.freelist ∧
      ∀ f, (∀ k, accessible s d k → pteAddr (pte s d k) ≠ f) → s'.mem f = s.mem f) ↔
    ∀ i < p.length, (∀ j < i, accessible s d (pageOf va j)) →
      present (pde s d (pageOf va i / 1024)) := by
  obtain ⟨F, hdir, hown⟩ := hb.dir
  have hspec := copyoutWith_spec hdir hown hva hlen
  constructor
  · rintro ⟨hnull, r, s', hrun, -⟩
    exact (hspec.of_eq_ok (hnull.trans hrun)).1
  intro htab
  obtain ⟨r, s', -, -, ⟨hw, hr⟩, hrun⟩ := (hspec.weaken fun _ _ hn => hn htab).exists_ok
  refine ⟨(hrun _).trans (hrun _).symm, r, s', hrun _, ?_, ?_, ?_,
    fun k => translate_congr (hw.pte k), hw.freelist, hw.only⟩
  all_goals rcases hr with ⟨rfl, i, hi, hni⟩ | ⟨rfl, hall, hreplaced⟩
  · exact .inr rfl
  · exact .inl rfl
  · exact ⟨fun h => absurd h (by decide), fun h => absurd (h i hi) hni⟩
  · exact ⟨fun _ => hall, fun _ => rfl⟩
  · exact fun h => absurd h (by decide)
  · exact fun _ => hreplaced

theorem user_of_flags (h : pteFlags e = PTE_W ||| PTE_U ||| PTE_P) : user e := by
  have hbit : (pteFlags e).testBit 2 = e.testBit 2 := by
    rw [pteFlags, show PGSIZE = 2 ^ 12 from rfl, testBit_mod_two_pow]
    simp
  rw [user, ← hbit, h]
  decide

theorem table_first (hp : present (pte s d 0)) : present (pde s d 0) := by
  have := Dir.table_of_pte hp
  rwa [Nat.zero_div] at this

theorem accessible_of_flags (hp : present (pte s d k))
    (h : pteFlags (pte s d k) = PTE_W ||| PTE_U ||| PTE_P) : accessible s d k := by
  rw [accessible, hp, user_of_flags h]
  rfl

/-- Three bytes over the end of a page, and then over the end of the space. -/
theorem copyout_exact_first : ∃ d s s' s'', Built smallLink d s ∧
    copyout smallLink d 4094 [1, 2, 3] s = (.ok 0, s') ∧ byteAt s' d 4096 = some 3 ∧
      copyout smallLink d 8190 [1, 2, 3] s = (.ok (-1), s'') := by
  obtain ⟨d, s, hb, hpages, hzero, -⟩ := exists_built (show 2 ≤ 10000 by decide)
  have ha : ∀ k < 2, accessible s d k :=
    fun k hk => accessible_of_flags (hpages k hk).1 (hpages k hk).2
  have htab : ∀ k < 3, present (pde s d (k / 1024)) := fun k hk => by
    rw [show k / 1024 = 0 by omega]
    exact table_first (hpages 0 (by decide)).1
  have hin : ∀ i < 3, pageOf 4094 i < 2 := by decide
  have hin' : ∀ i < 3, pageOf 8190 i < 3 := by decide
  obtain ⟨-, r, s', hrun, -, hr, hbytes, -⟩ :=
    (copyout_exact (p := [1, 2, 3]) hb (show 4094 < 2 ^ 32 by decide)
    (by decide)).2 fun i hi _ => htab _ ((hin i hi).trans (by decide))
  obtain ⟨-, r', s'', hrun', hor, hr', -⟩ :=
    (copyout_exact (p := [1, 2, 3]) hb (show 8190 < 2 ^ 32 by decide)
    (by decide)).2 fun i hi _ => htab _ (hin' i hi)
  obtain rfl : r = 0 := hr.2 fun i hi => ha _ (hin i hi)
  have hout : ¬ accessible s d (pageOf 8190 2) := by
    rw [show pageOf 8190 2 = 2 by decide, accessible, hzero 2 le_rfl (by decide)]
    decide
  obtain rfl : r' = -1 := hor.resolve_left fun h => hout (hr'.1 h 2 (by decide))
  exact ⟨d, s, s', s'', hb, hrun, hbytes rfl 4096 (by decide), hrun'⟩

/-! ## No page table -/

theorem loadNull_eq (hp : present (pte s s.cr3 0)) :
    loadNull s = (.ok (entry (page s s.cr3 0) 0), s) := by
  have htab := table_first hp
  have hpte : pte s s.cr3 0 = entry (s.mem (pteAddr (pde s s.cr3 0))) 0 := by
    rw [pte, Nat.zero_div, Nat.zero_mod, if_pos htab]
  rw [page, hpte]
  rw [hpte] at hp
  exact congrFun (if_pos (by rw [Bool.and_eq_true]; exact ⟨htab, hp⟩)) s

theorem uva2ka_null (hva : va / PGSIZE = k) (hlt : k < 2 ^ 20)
    (htab : ¬ present (pde s d (k / 1024))) (hp : present (pte s s.cr3 0))
    (hpw : present (entry (page s s.cr3 0) 0)) (huw : user (entry (page s s.cr3 0) 0)) :
    uva2ka loadNull d va s = (.ok (some (pteAddr (entry (page s s.cr3 0) 0))), s) := by
  rw [uva2ka, bind_ok (walkpgdir_false hva hlt s), if_neg htab]
  show (loadNull >>= fun e => _) s = _
  rw [bind_ok (loadNull_eq hp)]
  exact congrFun (if_pos (by rw [hpw, huw]; rfl)) s

/-- A directory in use whose first word is the entry of its own first page. -/
theorem exists_null : ∃ d s, Built smallLink d s ∧ s.cr3 = d ∧ pde s d 256 = 0 ∧ accessible s d 0 ∧
    pteAddr (pte s d 0) ∈ Avail smallLink ∧
    entry (page s d 0) 0 = pteAddr (pte s d 0) * PGSIZE ||| (PTE_W ||| PTE_U) ||| PTE_P ∧
      getByte (page s d 0) 0 = 7 := by
  obtain ⟨d, s, hb, hpages, -, htables, -⟩ := exists_built (show 1 ≤ 10000 by decide)
  obtain ⟨hp, hflags⟩ := hpages 0 one_pos
  obtain ⟨F, hdir, hown⟩ := hb.dir
  have hpos : 0 < upages := by decide
  set f := pteAddr (pte s d 0) with hf
  have hfF : f ∈ F := hdir.mem_page hpos hp
  have havail := hown.avail f (.inl hfF)
  have ha : accessible s d 0 := accessible_of_flags hp hflags
  -- user code stores the word, and the process is switched to
  set p : Page := setEntry (s.mem f) 0 (f * PGSIZE ||| (PTE_W ||| PTE_U) ||| PTE_P) with hpage
  have hw := Wrote.page hdir hown ha p
  set s₁ : Phys := { s.setPage f p with cr3 := d }
  have hpte : pte s₁ d 0 = pte s d 0 := hw.pte 0
  have hmem : s₁.mem f = p := setPage_mem_self s f p
  refine ⟨d, s₁, .others hb (hw.others hdir d), rfl,
    (hw.pde 256).trans (htables 256 (by decide) fun k hk => by omega),
    (accessible_congr hpte).trans ha, by rw [hpte]; exact havail, ?_, ?_⟩
  · rw [page, hpte, ← hf, hmem, hpage, entry_setEntry _ (by decide), if_pos rfl,
      mod_eq_of_lt (entry_lt_of_lt (avail_lt havail) (by decide))]
  · rw [page, hpte, ← hf, hmem, hpage, entry_eq_add (by decide)]
    have hbyte : getByte (setEntry (s.mem f) 0 (f * PGSIZE + (PTE_W ||| PTE_U ||| 1))) 0 =
        UInt8.ofNat (f * PGSIZE + (PTE_W ||| PTE_U ||| 1)) := getByte_setByte_self _ (by decide) _
    rw [hbyte, show PTE_W ||| PTE_U ||| 1 = 7 by decide, ← UInt8.toNat_inj, UInt8.toNat_ofNat']
    show (f * 4096 + 7) % 256 = 7
    omega

/-- `copyout` to a page without page table: it returns 0, and a byte of another page has changed. -/
theorem copyout_null : ∃ d s s', Built smallLink d s ∧
    accessible s d (pageOf 0x40000000 0) = false ∧
      copyout smallLink d 0x40000000 [9] s = (.ok 0, s') ∧ byteAt s d 0 = some 7 ∧
      byteAt s' d 0 = some 9 := by
  obtain ⟨d, s, hb, hcr3, htab, ha, havail, hentry, hbyte⟩ := exists_null
  obtain ⟨F, hdir, hown⟩ := hb.dir
  have hp := present_of_accessible ha
  have hnone : ¬ present (pde s d (2 ^ 18 / 1024)) := by
    rw [show 2 ^ 18 / 1024 = 256 by decide, htab]
    exact Bool.noConfusion
  have hka : uva2ka loadNull d (pgrounddown 0x40000000) s = (.ok (some (pteAddr (pte s d 0))),
    s) := by
    rw [uva2ka_null (k := 2 ^ 18) (by decide) (by decide) hnone (by rw [hcr3]; exact hp)
      (by rw [hcr3, hentry]; exact present_entry _ _) ?_, hcr3, hentry, pteAddr_entry (by decide)]
    rw [hcr3, hentry]
    exact user_of_flags (pteFlags_entry (by decide))
  have hf := kernelWritable_of_avail havail
  have hbytes : byteAt s d 0 = some (getByte (page s d 0) 0) := by
    rw [byteAt, Nat.zero_div, translate, if_pos hp]
    rfl
  refine ⟨d, s, fillPage s d 0 [9], hb, ?_, ?_, by rw [hbytes, hbyte], ?_⟩
  · rw [show pageOf 0x40000000 0 = 2 ^ 18 by decide, accessible, pte_of_no_table hnone]
    rfl
  · rw [copyout, copyoutWith, copyoutFrom_page hka hf (cons_ne_nil 9 [])]
    rfl
  · have hreplaced : Replaced s _ d 0 ([9].take (inPage 0)) :=
      Replaced.page hdir hown (by decide) ha
    exact hreplaced 0 (by decide)

end Xv6.Vm
