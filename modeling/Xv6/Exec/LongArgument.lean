import Xv6.Exec.AllOrNothing

/-!
# Arguments longer than the device part

The stack pointer of the new image is a `uint`: an argument of more than 32 megabytes takes it below
0, to addresses without page tables.  There `uva2ka` reads the word at address 0 of the process as a
page-table entry, and `copyout` writes the argument to the page that this word names.  So `exec` is
all or nothing exactly for arguments that do not go there.
-/

namespace Xv6.Exec

open LittleEndian Fallible Vm List Nat
open UserMemory (pgroundup)

variable {K : Link} {s s' : Phys} {d f k e : ℕ} {F H : Set ℕ}
  {argv : List (List UInt8)} {arg : List UInt8}

/-! ## A small program -/

/-- Between the kernel and the device part there are no page tables. -/
def Hole (s : Phys) (d : ℕ) : Prop := ∀ a, KERNBASE + PHYSTOP ≤ a → a < DEVSPACE →
    pde s d (a / PGSIZE / 1024) = 0

def userEntry (f : ℕ) : ℕ := f * PGSIZE ||| (PTE_W ||| PTE_U) ||| PTE_P

theorem pteAddr_userEntry (f : ℕ) : pteAddr (userEntry f) = f := pteAddr_entry (by decide)

theorem present_userEntry (f : ℕ) : present (userEntry f) := present_entry _ _

theorem user_userEntry (f : ℕ) : user (userEntry f) := user_of_flags (pteFlags_entry (by decide))

theorem userEntry_lt (hf : f < 2 ^ 20) : userEntry f < 2 ^ 32 := entry_lt_of_lt hf (by decide)

def filled (e : ℕ) : Page := fun i => byteOf e (i.val % 4)

theorem entry_filled (he : e < 2 ^ 32) {j : ℕ} (hj : j < 1024) : entry (filled e) j = e := by
  have hbytes : ∀ i < 4, getByte (filled e) (4 * j + i) = byteOf e i := by
    intro i hi
    have hlt : 4 * j + i < PGSIZE := by
      rw [PGSIZE]
      omega
    rw [getByte, dif_pos hlt, filled, mul_add_mod, mod_eq_of_lt hi]
  rw [entry, getLE_of_bytes hbytes]
  exact mod_eq_of_lt he

/-! ## Where the argument goes -/

theorem Stacked.congr {g : ℕ} (h : Stacked K s d H g) (hmem : ∀ f ∈ H, s'.mem f = s.mem f)
    (hfree : s'.freelist = s.freelist) : Stacked K s' d H g where
  dir := h.dir.congr hmem
  own := ⟨hfree ▸ h.own.nodup, hfree ▸ h.own.avail, hfree ▸ h.own.apart⟩
  lt := h.lt
  guard := (accessible_congr (h.dir.pte_congr hmem g)).trans h.guard
  stack := (accessible_congr (h.dir.pte_congr hmem _)).trans h.stack
  tables k hk := by rw [h.dir.pde_congr hmem]; exact h.tables k hk

/-- The word at address 0 of the process in use, whose directory is `q`, is an entry for its second
page; `d` is the directory of the new image. -/
structure Forged (K : Link) (s : Phys) (d : ℕ) (H : Set ℕ) (q : ℕ) (F : Set ℕ) : Prop where
  stacked : Stacked K s d H 0
  hole : Hole s d
  old : Dir s q F (kernelEntry K)
  own : Owned K s (H ∪ F)
  apart : ∀ f ∈ F, f ∉ H
  cr3 : s.cr3 = q
  acc : ∀ k < 2, accessible s q k
  word : entry (page s q 0) 0 = userEntry (pteAddr (pte s q 1))

section Forged

variable {q va : ℕ}

section

variable (h : Forged K s d H q F)

include h

theorem Forged.present (hk : k < 2) : present (pte s q k) := present_of_accessible (h.acc k hk)

theorem Forged.mem (hk : k < 2) : pteAddr (pte s q k) ∈ F :=
  h.old.mem_page (hk.trans (by decide)) (h.present hk)

theorem Forged.ownF : Owned K s F := h.own.mono Set.subset_union_right

theorem Forged.uva2ka (hlow : KERNBASE + PHYSTOP ≤ va) (hhigh : va < DEVSPACE) :
    uva2ka loadNull d va s = (.ok (some (pteAddr (pte s q 1))), s) := by
  have hlt : va / PGSIZE < 2 ^ 20 := Nat.div_lt_of_lt_mul (hhigh.trans (by decide))
  have htab : ¬ Vm.present (pde s d (va / PGSIZE / 1024)) := by
    rw [h.hole va hlow hhigh]
    exact Bool.noConfusion
  have hword := h.word
  rw [← h.cr3] at hword
  rw [uva2ka_null rfl hlt htab (by rw [h.cr3]; exact h.present two_pos)
    (by rw [hword]; exact present_userEntry _)
    (by rw [hword]; exact user_userEntry _), hword, pteAddr_userEntry, h.cr3]

theorem Forged.fill (p : Page) : Forged K (s.setPage (pteAddr (pte s q 1)) p) d H q F := by
  have hw := Wrote.page h.old h.ownF (h.acc 1 one_lt_two) p
  have hmem : ∀ g ∈ H, (s.setPage (pteAddr (pte s q 1)) p).mem g = s.mem g := fun g hg =>
    setPage_mem_of_ne s (fun heq : g = pteAddr (pte s q 1) =>
      h.apart _ (h.mem one_lt_two) (heq ▸ hg)) p
  have hne : pteAddr (pte s q 0) ≠ pteAddr (pte s q 1) := fun heq =>
    absurd (h.old.page_inj (by decide) (by decide) (h.present two_pos) (h.present one_lt_two) heq)
    (by decide)
  refine ⟨h.stacked.congr hmem rfl, fun a ha ha' => ?_, hw.dir,
    ⟨h.own.nodup, h.own.avail, h.own.apart⟩, h.apart, h.cr3,
    fun k hk => (accessible_congr (hw.pte k)).trans (h.acc k hk), ?_⟩
  · rw [h.stacked.dir.pde_congr hmem, h.hole a ha ha']
  · rw [page, hw.pte, hw.pte, setPage_mem_of_ne s hne]
    exact h.word

theorem Forged.wrote (hw : Wrote K s s' d H) : Forged K s' d H q F := by
  have hmem : ∀ f ∈ F, s'.mem f = s.mem f := fun f hf => hw.only f fun k hk heq =>
    h.apart f hf (heq ▸ h.stacked.dir.mem_page (h.stacked.dir.lt_of_accessible hk)
      (present_of_accessible hk))
  have hpte := h.old.pte_congr hmem
  refine ⟨h.stacked.wrote hw, fun a ha ha' => (hw.pde _).trans (h.hole a ha ha'), h.old.congr hmem,
    ⟨hw.freelist ▸ h.own.nodup, hw.freelist ▸ h.own.avail, hw.freelist ▸ h.own.apart⟩, h.apart,
    hw.steps.cr3.trans h.cr3,
    fun k hk => (accessible_congr (hpte k)).trans (h.acc k hk), ?_⟩
  rw [page, hpte, hpte, hmem _ (h.mem two_pos)]
  exact h.word

end

theorem setPage_setPage (s : Phys) (f : ℕ) (p p' : Page) :
    (s.setPage f p).setPage f p' = s.setPage f p' := by
  simp only [Phys.setPage, Function.update_idem]

/-- What begins between the kernel and the device part is written to the second page of the process,
page after page, until the device part, which the user cannot access. -/
theorem Forged.copyoutFrom : ∀ (n va : ℕ) (bs : List UInt8) (s : Phys), Forged K s d H q F →
    KERNBASE + PHYSTOP ≤ va → va < DEVSPACE → DEVSPACE - va < bs.length →
      bs.length + va % PGSIZE ≤ n * PGSIZE →
      ∃ p, copyoutFrom loadNull K d n va bs s = (.ok (-1), s.setPage (pteAddr (pte s q 1)) p) ∧
      getByte p (PGSIZE - 1) = bs.getD (DEVSPACE - 1 - va) 0 := by
  intro n
  induction n with
  | zero =>
    intro va bs s _ _ _ hlen hn
    omega
  | succ n ih =>
    intro va bs s h hlow hhigh hlen hn
    have hbs : bs ≠ [] := ne_nil_of_length_pos (by omega)
    have hround : KERNBASE + PHYSTOP ≤ pgrounddown va ∧ pgrounddown va < DEVSPACE := by
      simp only [pgrounddown, PGSIZE, KERNBASE, PHYSTOP, DEVSPACE] at *
      omega
    have hf := kernelWritable_of_avail (h.ownF.avail _ (.inl (h.mem one_lt_two)))
    rw [copyoutFrom_page (h.uva2ka hround.1 hround.2) hf hbs]
    have hin : inPage va ≤ DEVSPACE - va := by
      simp only [inPage, PGSIZE, DEVSPACE] at *
      omega
    rw [min_eq_left (by omega)]
    set f := pteAddr (pte s q 1)
    set p := blit (s.mem f) (va % PGSIZE) (inPage va) fun i => bs.getD i 0
    have h₁ : Forged K (s.setPage f p) d H q F := h.fill p
    have hpte : pteAddr (pte (s.setPage f p) q 1) = f :=
      congrArg pteAddr ((Wrote.page h.old h.ownF (h.acc 1 one_lt_two) p).pte 1)
    have hdrop : (bs.drop (inPage va)).length = bs.length - inPage va := length_drop
    have hpage : inPage va + va % PGSIZE = PGSIZE :=
      Nat.sub_add_cancel (Nat.mod_lt va (by decide)).le
    by_cases hlast : DEVSPACE - va = inPage va
    · -- the next page is the first of the device part
      have hnext : nextPage va = DEVSPACE := by
        simp only [nextPage, pgrounddown, inPage, PGSIZE, DEVSPACE] at *
        omega
      obtain ⟨n, rfl⟩ := Nat.exists_eq_succ_of_ne_zero (n := n) (by rintro rfl; omega)
      have htab : Vm.present (pde (s.setPage f p) d (DEVSPACE / PGSIZE / 1024)) :=
        h₁.stacked.table (.inr ⟨le_rfl, by decide⟩)
      have hacc : ¬ accessible (s.setPage f p) d (DEVSPACE / PGSIZE) := fun ha =>
        absurd (h₁.stacked.dir.lt_of_accessible ha) (by decide)
      refine ⟨p, ?_, ?_⟩
      · rw [hnext, copyoutFrom_round _ h₁.stacked.dir h₁.stacked.own (by decide) htab
          (ne_nil_of_length_pos (by omega)), if_neg hacc]
      · have hlt : va % PGSIZE < PGSIZE := Nat.mod_lt va (by decide)
        rw [getByte_blit (by omega) (by omega) (by decide)]
        exact congrArg (fun i => bs.getD i 0) (by omega)
    · have hnext : nextPage va = va + inPage va := by
        simp only [nextPage, pgrounddown, inPage, PGSIZE, DEVSPACE] at *
        omega
      obtain ⟨p', hrun, hbyte⟩ := ih (nextPage va) (bs.drop (inPage va)) _ h₁ (by omega) (by omega)
        (by omega) (by
        rw [nextPage_mod, hdrop]
        rw [add_mul] at hn
        omega)
      rw [hpte, setPage_setPage] at hrun
      refine ⟨p', hrun, hbyte.trans ?_⟩
      rw [getD_eq_getElem?_getD, getElem?_drop, ← getD_eq_getElem?_getD, hnext]
      exact congrArg (fun i => bs.getD i 0) (by omega)

end Forged

/-! ## The arguments -/

/-- A process whose word at address 0 is an entry for its second page, and memory for a new
image. -/
structure Forger (K : Link) (s : Kern) (F : Set ℕ) : Prop where
  dir : Dir s.phys s.task.pgdir F (kernelEntry K)
  own : Owned K s.phys F
  cr3 : s.phys.cr3 = s.task.pgdir
  acc : ∀ k < 2, accessible s.phys s.task.pgdir k
  word : entry (page s.phys s.task.pgdir 0) 0 = userEntry (pteAddr (pte s.phys s.task.pgdir 1))
  refuse : s.phys.refuse = []
  free : NPDENTRIES + 2 < s.phys.freelist.length

/-- Page numbers whose entries have no byte 0. -/
def frame (i : ℕ) : ℕ := 4096 * (1 + i / 3825) + 16 * (1 + i % 3825 / 15) + (1 + i % 3825 % 15)

theorem Forger.byteAt {s : Kern} {a : ℕ} (hacc : accessible s.phys s.task.pgdir (a / PGSIZE)) :
    byteAt s.phys s.task.pgdir a =
      some (getByte (page s.phys s.task.pgdir (a / PGSIZE)) (a % PGSIZE)) := by
  rw [Vm.byteAt, Vm.translate, if_pos (present_of_accessible hacc)]
  rfl

theorem Strings.fits {ptrs : List ℕ} {lo sp : ℕ}
    (h : Strings s d sp (arg :: argv) ptrs) (hlow : ∀ p ∈ ptrs, lo ≤ p) :
    lo + (arg.length + 1) ≤ sp := by
  cases ptrs with
  | nil => exact h.elim
  | cons p ptrs => exact (Nat.add_le_add_right (hlow p mem_cons_self) _).trans h.1

/-- The stack of the process at the system call, the array of its arguments and the path. -/
def callPage : Page := fun i => if i.val = PGSIZE - 1 then 2 else
  [0, 0, 0, 0, 0x14, 0x10, 0, 0, 0x0C, 0x10, 0, 0, 0, 0x20, 0, 0, 0, 0, 0, 0, 105, 0].getD i.val 0

/-- A page of ones: the page `k` of the process. -/
def onesPage (k : ℕ) : Page := fun i => if k = 8196 ∧ i.val = PGSIZE - 1 then 0 else 1

/-- A process that calls `exec` with one argument, which is on the pages from 2 on. -/
structure Caller (s : Kern) (first : Page) : Prop where
  sz : 8197 * PGSIZE ≤ s.task.sz
  lt : s.task.sz < KERNBASE
  esp : s.task.esp = PGSIZE
  acc : ∀ k < 8197, accessible s.phys s.task.pgdir k
  call : page s.phys s.task.pgdir 1 = callPage
  first : page s.phys s.task.pgdir 2 = first
  rest : ∀ k, 2 < k → k < 8197 → page s.phys s.task.pgdir k = onesPage k

section Caller

variable {s : Kern} {first : Page}

theorem Caller.userByte (h : Caller s first) {a : ℕ} (ha : a < 8197 * PGSIZE) :
    userByte s a = getByte (page s.phys s.task.pgdir (a / PGSIZE)) (a % PGSIZE) := by
  rw [Exec.userByte, Forger.byteAt (h.acc _ (Nat.div_lt_of_lt_mul (by rwa [mul_comm] at ha)))]
  rfl

end Caller

/-- Every entry of the directory `d` names the page table `t`, and every entry of `t` the page
`j`. -/
structure Hijacked (K : Link) (s : Phys) (d t j : ℕ) : Prop where
  dir : s.mem d = filled (userEntry t)
  table : s.mem t = filled (userEntry j)
  table_lt : t < 2 ^ 20
  page : j ∈ Avail K
  page_ne : j ≠ d ∧ j ≠ t

section Hijacked

variable {t j va : ℕ}

theorem Hijacked.uva2ka (h : Hijacked K s d t j) (hva : va < 2 ^ 32) :
    uva2ka loadNull d va s = (.ok (some j), s) := by
  have hk : va / PGSIZE < 2 ^ 20 := Nat.div_lt_of_lt_mul hva
  have hpde : pde s d (va / PGSIZE / 1024) = userEntry t := by
    rw [pde, h.dir, entry_filled (userEntry_lt h.table_lt) (by omega)]
  have htab : present (pde s d (va / PGSIZE / 1024)) := by rw [hpde]; exact present_userEntry t
  have hpte : pte s d (va / PGSIZE) = userEntry j := by
    rw [pte, if_pos htab, hpde, pteAddr_userEntry, h.table,
      entry_filled (userEntry_lt (avail_lt h.page)) (Nat.mod_lt _ (by decide))]
  have hacc : accessible s d (va / PGSIZE) := by
    rw [accessible, hpte, present_userEntry, user_userEntry]
    rfl
  rw [uva2ka_eq _ rfl hk htab, if_pos hacc, hpte, pteAddr_userEntry]

theorem Hijacked.copyoutFrom : ∀ (n va : ℕ) (bs : List UInt8) (s : Phys), Hijacked K s d t j →
    va < 2 ^ 32 → bs.length + va % PGSIZE ≤ n * PGSIZE →
      ∃ s', copyoutFrom loadNull K d n va bs s = (.ok 0, s') ∧ Hijacked K s' d t j ∧
      (∀ f, f ≠ j → s'.mem f = s.mem f) ∧ s'.freelist = s.freelist := by
  intro n
  induction n with
  | zero =>
    intro va bs s h _ hlen
    obtain rfl : bs = [] := eq_nil_of_length_eq_zero (by omega)
    exact ⟨s, rfl, h, fun _ _ => rfl, rfl⟩
  | succ n ih =>
    intro va bs s h hva hlen
    by_cases hbs : bs = []
    · subst hbs
      exact ⟨s, rfl, h, fun _ _ => rfl, rfl⟩
    have hround : pgrounddown va < 2 ^ 32 := (Nat.div_mul_le_self va PGSIZE).trans_lt hva
    rw [copyoutFrom_page (h.uva2ka hround) (kernelWritable_of_avail h.page) hbs]
    set s₁ := s.setPage j (blit (s.mem j) (va % PGSIZE) (min (inPage va) bs.length) fun i =>
      bs.getD i 0)
    have hmem : ∀ f, f ≠ j → s₁.mem f = s.mem f := fun f hf => setPage_mem_of_ne s hf _
    have h₁ : Hijacked K s₁ d t j :=
      ⟨(hmem d h.page_ne.1.symm).trans h.dir, (hmem t h.page_ne.2.symm).trans h.table, h.table_lt,
        h.page, h.page_ne⟩
    have hpage : inPage va + va % PGSIZE = PGSIZE :=
      Nat.sub_add_cancel (Nat.mod_lt va (by decide)).le
    have hrest : (bs.drop (inPage va)).length + nextPage va % PGSIZE ≤ n * PGSIZE := by
      rw [length_drop, nextPage_mod]
      rw [add_mul] at hlen
      omega
    obtain ⟨s', hrun, h', hmem', hfree⟩ := ih (nextPage va) _ s₁ h₁ (Nat.mod_lt _ (by decide)) hrest
    exact ⟨s', hrun, h', fun f hf => (hmem' f hf).trans (hmem f hf), hfree⟩

theorem Hijacked.copyout (h : Hijacked K s d t j) (bs : List UInt8) (hva : va < 2 ^ 32)
    (hlen : bs.length < 2 ^ 32) : ∃ s', copyout K d va bs s = (.ok 0, s') ∧
    (∀ f, f ≠ j → s'.mem f = s.mem f) ∧ s'.freelist = s.freelist := by
  obtain ⟨s', hrun, -, hmem, hfree⟩ :=
    Hijacked.copyoutFrom (fuel + 1) va bs s h hva (fuel_enough hlen va)
  exact ⟨s', hrun, hmem, hfree⟩

end Hijacked

/-- The page below the device part. -/
def hole : ℕ := DEVSPACE - PGSIZE

end Xv6.Exec
