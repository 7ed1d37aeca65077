import Xv6.Exec.Load

/-!
# The stack of the new image

The two pages above the program: the guard page `g`, which the user cannot access, and the stack
page `g + 1` (`Stacked`).  What does not fit on the stack page begins below it, and `copyout` comes
to the guard page and fails.
-/

namespace Xv6.Exec

open LittleEndian Fallible Vm List
open UserMemory (pgroundup)

variable {K : Link} {s s' s'' : Phys} {d g k sz sp : ℕ} {H : Set ℕ}

/-! ## Pushing -/

/-- An inaccessible page below the page of the stack. -/
structure Stacked (K : Link) (s : Phys) (d : ℕ) (H : Set ℕ) (g : ℕ) : Prop where
  dir : Dir s d H (kernelEntry K)
  own : Owned K s H
  lt : (g + 2) * PGSIZE < KERNBASE
  guard : accessible s d g = false
  stack : accessible s d (g + 1)
  tables : ∀ k < g + 2, present (pde s d (k / 1024))

theorem Stacked.wrote (h : Stacked K s d H g) (hw : Wrote K s s' d H) : Stacked K s' d H g where
  dir := hw.dir
  own := hw.steps.own
  lt := h.lt
  guard := (accessible_congr (hw.pte g)).trans h.guard
  stack := (accessible_congr (hw.pte _)).trans h.stack
  tables k hk := by rw [hw.pde]; exact h.tables k hk

theorem present_kernelEntry_dev (hk : DEVSPACE / PGSIZE ≤ k) (hlt : k < 2 ^ 20) :
    present (kernelEntry K k) := by
  have hdev : (⟨DEVSPACE, DEVSPACE, 0, PTE_W⟩ : Kmap).Covers k := by
    simp only [Kmap.Covers, Kmap.size, DEVSPACE, PGSIZE] at *
    omega
  simp only [kernelEntry, kmap, foldl]
  rw [Kmap.map, if_pos hdev]
  exact present_entry _ _

theorem Stacked.table (h : Stacked K s d H g) {a : ℕ}
    (ha : a < (g + 2) * PGSIZE ∨ DEVSPACE ≤ a ∧ a < 2 ^ 32) :
    present (pde s d (a / PGSIZE / 1024)) := by
  rcases ha with ha | ⟨ha, ha'⟩
  · exact h.tables _ (Nat.div_lt_of_lt_mul (by rwa [mul_comm] at ha))
  · have hk : DEVSPACE / PGSIZE ≤ a / PGSIZE := Nat.div_le_div_right ha
    have hlt : a / PGSIZE < 2 ^ 20 := Nat.div_lt_of_lt_mul ha'
    refine Dir.table_of_pte ?_
    rw [h.dir.kern _ ((show upages ≤ DEVSPACE / PGSIZE by decide).trans hk)]
    exact present_kernelEntry_dev hk hlt

section Arith

variable {n : ℕ}

theorem pushed_lt (sp n : ℕ) : pushed sp n < 2 ^ 32 := by
  simp only [pushed, sub32]
  omega

theorem pushed_fits (hg : (g + 2) * PGSIZE < KERNBASE) (hsp' : sp ≤ (g + 2) * PGSIZE)
    (hfit : (g + 1) * PGSIZE + n ≤ sp) : (g + 1) * PGSIZE ≤ pushed sp n ∧ pushed sp n + n ≤ sp ∧
    pushed sp n % 4 = 0 := by
  simp only [pushed, sub32, PGSIZE, KERNBASE] at *
  omega

theorem pushed_range (hg : (g + 2) * PGSIZE < KERNBASE) (hsp' : sp ≤ (g + 2) * PGSIZE)
    (hn : (g + 2) * PGSIZE - sp + n ≤ 2 * PGSIZE + (2 ^ 32 - DEVSPACE)) :
    pushed sp n + n ≤ sp ∨ DEVSPACE ≤ pushed sp n := by
  simp only [pushed, sub32, PGSIZE, DEVSPACE, KERNBASE] at *
  omega

theorem pushed_guard (hg : (g + 2) * PGSIZE < KERNBASE) (hsp : (g + 1) * PGSIZE ≤ sp)
    (hsp' : sp ≤ (g + 2) * PGSIZE) (hn : n < 2 ^ 31) (hfit : sp < (g + 1) * PGSIZE + n) :
    ∃ i < n, pageOf (pushed sp n) i = g := by
  simp only [pageOf, pushed, sub32, PGSIZE, KERNBASE] at *
  by_cases hin : g * 4096 ≤ (sp + (2 ^ 32 - n % 2 ^ 32)) % 2 ^ 32 / 4 * 4 ∧ n ≤ sp
  · exact ⟨0, by omega, by omega⟩
  · refine ⟨(g * 4096 + 2 ^ 32 - (sp + (2 ^ 32 - n % 2 ^ 32)) % 2 ^ 32 / 4 * 4) %
      2 ^ 32, by omega, by omega⟩

end Arith

def BytesAt (s : Phys) (d a : ℕ) (bs : List UInt8) :
    Prop := ∀ i < bs.length, byteAt s d (a + i) = some (bs.getD i 0)

/-- `s'` is `s` with the bytes `bs` at `a`, as far as `copyout` succeeded. -/
structure Pushed (s s' : Phys) (d a : ℕ) (bs : List UInt8) : Prop where
  bytes : BytesAt s' d a bs
  other : ∀ b < KERNBASE, b < a ∨ a + bs.length ≤ b → byteAt s' d b = byteAt s d b

/-- Pushing fails exactly when it does not fit on the stack page. -/
theorem Stacked.copyout (h : Stacked K s d H g) (bs : List UInt8) (hsp : (g + 1) * PGSIZE ≤ sp)
    (hsp' : sp ≤ (g + 2) * PGSIZE)
    (hbs : (g + 2) * PGSIZE - sp + bs.length ≤ 2 * PGSIZE + (2 ^ 32 - DEVSPACE)) :
    Total (fun r s' => Wrote K s s' d H ∧
      ((r = -1 ∧ sp < (g + 1) * PGSIZE + bs.length) ∨
      (r = 0 ∧ (g + 1) * PGSIZE ≤ pushed sp bs.length ∧ pushed sp bs.length + bs.length ≤ sp ∧
      pushed sp bs.length % 4 = 0 ∧ Pushed s s' d (pushed sp bs.length) bs))) (copyout K d (pushed
      sp bs.length) bs s) := by
  have hlen : bs.length < 2 ^ 31 := (Nat.le_of_add_left_le hbs).trans_lt (by decide)
  have hva : pushed sp bs.length < 2 ^ 32 := pushed_lt sp _
  have htab : Tabled s d (pushed sp bs.length) bs.length := by
    rcases pushed_range h.lt hsp' hbs with hin | hdev
    · refine fun i hi _ => h.table (.inl ((Nat.mod_le _ _).trans_lt ?_))
      omega
    · refine .of_stop hva (h.table (.inr ⟨hdev, hva⟩)) fun ha => ?_
      exact absurd (h.dir.lt_of_accessible ha)
        (not_lt.2 ((show upages ≤ DEVSPACE / PGSIZE by decide).trans
        (Nat.div_le_div_right hdev)))
  refine (copyout_spec h.dir h.own hva (hlen.trans (by decide)) htab).mono ?_
  rintro r s' ⟨hw, hr⟩
  refine ⟨hw, ?_⟩
  rcases lt_or_ge sp ((g + 1) * PGSIZE + bs.length) with hbig | hfit
  · -- the guard page is on the way
    rcases hr with ⟨rfl, -⟩ | ⟨-, hall, -⟩
    · exact .inl ⟨rfl, hbig⟩
    · obtain ⟨i, hi, hpage⟩ := pushed_guard h.lt hsp hsp' hlen hbig
      have := hall i hi
      rw [hpage, h.guard] at this
      exact Bool.noConfusion this
  · obtain ⟨hlow, hhigh, halign⟩ := pushed_fits h.lt hsp' hfit
    have hKERN := h.lt
    rcases hr with ⟨-, i, hi, hni⟩ | ⟨hr, -, hreplaced⟩
    · have hpage : pageOf (pushed sp bs.length) i = g + 1 := by
        clear hni htab
        generalize pushed sp bs.length = va at *
        simp only [pageOf, PGSIZE, KERNBASE] at *
        omega
      rw [hpage] at hni
      exact (hni h.stack).elim
    · refine .inr ⟨hr, hlow, hhigh, halign, fun i hi => ?_, fun b hb hout => ?_⟩
      · have hoff : offsetIn (pushed sp bs.length) (pushed sp bs.length + i) = i := by
          simp only [offsetIn]
          omega
        rw [hreplaced _ (by omega), hoff, if_pos hi]
      · have hoff : ¬ offsetIn (pushed sp bs.length) b < bs.length := by
          simp only [offsetIn, KERNBASE] at *
          omega
        rw [hreplaced b hb, if_neg hoff]

/-! ## The strings -/

/-- The strings of `argv`, each one below the one before it, and the first one below `sp`. -/
def Strings (s : Phys) (d : ℕ) : ℕ → List (List UInt8) → List ℕ → Prop
  | _, [], [] => True
  | sp, arg :: argv, p :: ptrs => p + (arg.length + 1) ≤ sp ∧ BytesAt s d p (arg ++ [0]) ∧
    Strings s d p argv ptrs
  | _, _, _ => False

theorem Strings.length_eq : ∀ {sp : ℕ} {argv : List (List UInt8)} {ptrs : List ℕ},
    Strings s d sp argv ptrs → ptrs.length = argv.length
  | _, [], [], _ => rfl
  | _, _ :: _, _ :: _, h => congrArg (· + 1) (Strings.length_eq h.2.2)

theorem Strings.congr {lo : ℕ} : ∀ {sp : ℕ} {argv : List (List UInt8)} {ptrs : List ℕ},
    Strings s d sp argv ptrs → (∀ p ∈ ptrs, lo ≤ p) →
      (∀ a, lo ≤ a → a < sp → byteAt s' d a = byteAt s d a) → Strings s' d sp argv ptrs
  | _, [], [], _, _, _ => trivial
  | sp, arg :: argv, p :: ptrs, h, hlo, hsame => by
    have hp := hlo p mem_cons_self
    have hsp := h.1
    refine ⟨h.1, fun i hi => ?_, h.2.2.congr (fun q hq => hlo q (mem_cons_of_mem p hq)) fun a ha
      ha' =>
      hsame a ha (by omega)⟩
    have hi' : i < arg.length + 1 := by rwa [length_append] at hi
    rw [hsame (p + i) (by omega) (by omega)]
    exact h.2.1 i hi

theorem pushed_used {n : ℕ} (hg : (g + 2) * PGSIZE < KERNBASE) (hsp' : sp ≤ (g + 2) * PGSIZE)
    (halign : sp % 4 = 0) (hfit : (g + 2) * PGSIZE - sp + n ≤ PGSIZE) :
    (g + 2) * PGSIZE - pushed sp n = ((g + 2) * PGSIZE - sp + n + 3) / 4 * 4 := by
  simp only [pushed, sub32, PGSIZE, KERNBASE] at *
  omega

/-- The first argument that does not fit on the stack page, if there is one, does not begin below
the device part: not even on the second page, the lowest stack.  The arguments before these use
`used` bytes of the page. -/
def Tame : ℕ → List (List UInt8) → Prop
  | _, [] => True
  | used, arg :: argv =>
    if used + (arg.length + 1) ≤ PGSIZE then Tame ((used + (arg.length + 1) + 3) / 4 * 4) argv
    else used + (arg.length + 1) ≤ 2 * PGSIZE + (2 ^ 32 - DEVSPACE)

instance decidableTame : ∀ (used : ℕ) (argv : List (List UInt8)), Decidable (Tame used argv)
  | _, [] => inferInstanceAs (Decidable True)
  | used, arg :: argv =>
    have := decidableTame ((used + (arg.length + 1) + 3) / 4 * 4) argv
    inferInstanceAs (Decidable (if used + (arg.length + 1) ≤ PGSIZE then
      Tame ((used + (arg.length + 1) + 3) / 4 * 4) argv
      else used + (arg.length + 1) ≤ 2 * PGSIZE + (2 ^ 32 - DEVSPACE)))

theorem Tame.bound {used : ℕ} {arg : List UInt8} {argv : List (List UInt8)}
    (h : Tame used (arg :: argv)) : used + (arg.length + 1) ≤ 2 * PGSIZE + (2 ^ 32 - DEVSPACE) := by
  rw [Tame] at h
  split_ifs at h with hfit
  · exact hfit.trans (by decide)
  · exact h

/-- What the loop over the arguments leaves when it ends well. -/
structure Args (s s' : Phys) (d g sp argc : ℕ) (argv : List (List UInt8)) (sp' : ℕ)
(ptrs : List ℕ) : Prop where
  argc : argc + argv.length ≤ MAXARG
  low : (g + 1) * PGSIZE ≤ sp'
  le : sp' ≤ sp
  align : sp' % 4 = 0
  above : ∀ p ∈ ptrs, sp' ≤ p
  strings : Strings s' d sp argv ptrs
  other : ∀ a < KERNBASE, a < sp' ∨ sp ≤ a → byteAt s' d a = byteAt s d a

theorem pushArgs_spec : ∀ (argv : List (List UInt8)) (argc sp : ℕ) (s : Phys), Stacked K s d H g →
    (g + 1) * PGSIZE ≤ sp → sp ≤ (g + 2) * PGSIZE → sp % 4 = 0 → argc ≤ MAXARG →
    Tame ((g + 2) * PGSIZE - sp) (argv.take (MAXARG - argc)) →
    Total (fun r s' => Wrote K s s' d H ∧ ∀ sp' ptrs, r = some (sp', ptrs) →
      Args s s' d g sp argc argv sp' ptrs) (pushArgs K d argv argc sp s) := by
  intro argv
  induction argv with
  | nil =>
    intro argc sp s h hsp _ halign hargc _
    refine ⟨.refl h.dir h.own, ?_⟩
    rintro sp' ptrs hr
    cases hr
    exact ⟨hargc, hsp, le_rfl, halign, fun _ hp => (not_mem_nil hp).elim, trivial, fun _ _ _ => rfl⟩
  | cons arg argv ih =>
    intro argc sp s h hsp hsp' halign hargc htame
    have hnone : ∀ {s' : Phys}, Wrote K s s' d H → Wrote K s s' d H ∧
      ∀ sp' ptrs, (none : Option (ℕ × List ℕ)) =
        some (sp', ptrs) → Args s s' d g sp argc (arg :: argv) sp' ptrs :=
        fun hw => ⟨hw, fun _ _ hr => by cases hr⟩
    have hlen : (arg ++ [0]).length = arg.length + 1 := length_append
    rw [pushArgs]
    by_cases hmax : MAXARG ≤ argc
    · rw [if_pos hmax]
      exact hnone (.refl h.dir h.own)
    rw [if_neg hmax]
    rw [show MAXARG - argc = MAXARG - (argc + 1) + 1 by omega, take_succ_cons] at htame
    have hcopy := h.copyout (arg ++ [0]) hsp hsp' (by rw [hlen]; exact htame.bound)
    rw [hlen] at hcopy
    show Total _ ((copyout K d _ _ >>= fun r => _) s)
    refine hcopy.bind fun r s₁ => ?_
    rintro ⟨hw, ⟨rfl, -⟩ | ⟨rfl, hlow, hhigh, halign₁, hpushed⟩⟩
    · rw [if_pos (by decide)]
      exact hnone hw
    rw [if_neg (by decide)]
    set sp₁ := pushed sp (arg.length + 1)
    have hfit : (g + 2) * PGSIZE - sp + (arg.length + 1) ≤ PGSIZE := by
      have : (g + 1) * PGSIZE + PGSIZE = (g + 2) * PGSIZE := by rw [← Nat.succ_mul]
      omega
    rw [Tame, if_pos hfit, ← pushed_used h.lt hsp' halign hfit] at htame
    have hrest := ih (argc + 1) sp₁ s₁ (h.wrote hw) hlow (by omega) halign₁ (by omega) htame
    refine hrest.bind fun r s₂ => ?_
    rintro ⟨hw₂, hr⟩
    rcases r with _ | ⟨sp₂, ptrs⟩
    · exact hnone (hw.trans hw₂)
    · refine ⟨hw.trans hw₂, ?_⟩
      rintro sp' ptrs' hr'
      cases hr'
      have hargs := hr sp₂ ptrs rfl
      have hle := hargs.le
      have hKERN := h.lt
      refine ⟨?_, hargs.low, by omega, hargs.align, ?_, ⟨hhigh, fun i hi => ?_, hargs.strings⟩,
        fun a ha hout => ?_⟩
      · have := hargs.argc
        rw [length_cons]
        omega
      · rintro p (_ | ⟨_, hp⟩)
        · exact hle
        · exact hargs.above p hp
      · rw [hlen] at hi
        rw [hargs.other _ (by omega) (by omega)]
        exact hpushed.bytes i (by omega)
      · rw [hargs.other a ha (by omega), hpushed.other a ha (by omega)]

/-! ## The frame -/

theorem length_wordBytes (ws : List ℕ) : (wordBytes ws).length = 4 * ws.length := by
  induction ws with
  | nil => rfl
  | cons w ws ih =>
    rw [wordBytes, flatMap_cons, length_append, length_cons]
    rw [wordBytes] at ih
    rw [ih]
    simp only [length_cons, length_nil]
    omega

theorem length_ustack (sp : ℕ) (ptrs : List ℕ) : (ustack sp ptrs).length = 3 + ptrs.length + 1 := by
  simp only [ustack, length_append, length_cons, length_nil]

theorem pushed_eq_sub32 {n : ℕ} (hsp : sp % 4 = 0) (hn : n % 4 = 0) : pushed sp n = sub32 sp n := by
  simp only [pushed, sub32]
  omega

/-- The new image with its stack: the frame is at `sp`, and the strings are above it. -/
structure Frame (K : Link) (s s' : Phys) (d : ℕ) (H : Set ℕ) (g : ℕ) (argv : List (List UInt8))
(sz sp : ℕ)
    (ptrs : List ℕ) : Prop where
  stacked : Stacked K s' d H g
  size : sz = (g + 2) * PGSIZE
  argc : argv.length ≤ MAXARG
  low : (g + 1) * PGSIZE ≤ sp
  align : sp % 4 = 0
  words : BytesAt s' d sp (wordBytes (ustack (sp + (3 + ptrs.length + 1) * 4) ptrs))
  above : ∀ p ∈ ptrs, sp + (3 + ptrs.length + 1) * 4 ≤ p
  top : sp + (3 + ptrs.length + 1) * 4 ≤ (g + 2) * PGSIZE
  strings : Strings s' d ((g + 2) * PGSIZE) argv ptrs
  program : ∀ a < g * PGSIZE, byteAt s' d a = byteAt s d a

theorem Image.clearpteu (h : Image K s d H ((g + 2) * PGSIZE)) :
    Total (fun _ s' => Stacked K s' d H g ∧ Steps K s s' H H ∧ Keeps s s' d ∧
      (∀ k, k ≠ g → pte s' d k = pte s d k) ∧ ∀ i, pde s' d i = pde s d i)
      (clearpteu d (g * PGSIZE) s) := by
  have hpages : npages ((g + 2) * PGSIZE) = g + 2 := npages_page _
  have hlt := h.lt
  have hup : g < upages := by
    simp only [upages, PGSIZE, KERNBASE] at *
    omega
  have hacc : ∀ k < g + 2, accessible s d k := fun k hk => h.below k (by rwa [hpages])
  have htab : ∀ k < g + 2, present (pde s d (k / 1024)) := fun k hk =>
    Dir.table_of_pte (present_of_accessible (hacc k hk))
  refine ((clearpteu_spec h.dir h.own (Nat.mul_div_cancel g (by decide)) hup).weaken fun _ _ hbad =>
    hbad.2 (htab g (by omega))).mono ?_
  rintro - s' ⟨hdir, hsteps, hpte, hkeeps, hpde⟩
  refine ⟨⟨hdir, hsteps.own, hlt, ?_, ?_, fun k hk => ?_⟩, hsteps, hkeeps,
    fun k hk => by rw [hpte, if_neg hk], hpde⟩
  · rw [accessible, hpte, if_pos rfl, user_noUser, Bool.and_false]
  · have hsame : pte s' d (g + 1) = pte s d (g + 1) := by rw [hpte, if_neg (by omega)]
    rw [accessible_congr hsame]
    exact hacc (g + 1) (by omega)
  · rw [hpde]
    exact htab k hk

theorem Stacked.pushStack (h : Stacked K s d H g) {argv : List (List UInt8)}
    (htame : Tame 0 (argv.take MAXARG)) : Total (fun r s' => Wrote K s s' d H ∧ ∀ sp, r = some sp →
      ∃ ptrs, Frame K s s' d H g argv ((g + 2) * PGSIZE) sp ptrs) (pushStack K d ((g + 2) * PGSIZE)
      argv s) := by
  have hlt := h.lt
  have htop : (g + 1) * PGSIZE ≤ (g + 2) * PGSIZE := Nat.mul_le_mul_right _ (Nat.le_succ _)
  have halign : (g + 2) * PGSIZE % 4 = 0 := by
    simp only [PGSIZE]
    omega
  rw [Exec.pushStack]
  refine (pushArgs_spec argv 0 _ s h htop le_rfl halign (Nat.zero_le _)
    (by rw [Nat.sub_self]; exact htame)).bind fun r s₁ => ?_
  rintro ⟨hw, hr⟩
  rcases r with _ | ⟨sp, ptrs⟩
  · exact ⟨hw, fun _ hr => by cases hr⟩
  have hargs := hr sp ptrs rfl
  have hcount := hargs.strings.length_eq
  have hargc := hargs.argc
  rw [Nat.zero_add] at hargc
  have hlow := hargs.low
  have hle := hargs.le
  have hlen : (wordBytes (ustack sp ptrs)).length = (3 + ptrs.length + 1) * 4 := by
    rw [length_wordBytes, length_ustack, Nat.mul_comm]
  have hpage : (g + 1) * PGSIZE + PGSIZE = (g + 2) * PGSIZE := by rw [← Nat.succ_mul]
  have hsmall : (g + 2) * PGSIZE - sp + (3 + ptrs.length + 1) * 4 ≤ 2 * PGSIZE +
    (2 ^ 32 - DEVSPACE) := by
    have hroom : PGSIZE + (3 + MAXARG + 1) * 4 ≤ 2 * PGSIZE + (2 ^ 32 - DEVSPACE) := by decide
    omega
  have hcopy := (h.wrote hw).copyout (wordBytes (ustack sp ptrs)) hlow hle
    (by rw [hlen]; exact hsmall)
  rw [hlen, pushed_eq_sub32 hargs.align (Nat.mul_mod_left _ 4)] at hcopy
  refine hcopy.bind fun r s₂ => ?_
  rintro ⟨hw₂, ⟨rfl, -⟩ | ⟨rfl, hlow₂, hhigh₂, halign₂, hpushed⟩⟩
  · exact ⟨hw.trans hw₂, fun _ hr => by cases hr⟩
  refine ⟨hw.trans hw₂, ?_⟩
  rintro sp' hr'
  obtain rfl : sub32 sp ((3 + ptrs.length + 1) * 4) = sp' := Option.some.inj hr'
  have hback : sub32 sp ((3 + ptrs.length + 1) * 4) + (3 + ptrs.length + 1) * 4 = sp := by
    simp only [sub32, KERNBASE] at *
    omega
  refine ⟨ptrs, (h.wrote hw).wrote hw₂, rfl, hargc, hlow₂,
    halign₂, by rw [hback]; exact hpushed.bytes,
    by rw [hback]; exact hargs.above, by omega, ?_, fun a ha => ?_⟩
  · exact hargs.strings.congr hargs.above fun a ha ha' =>
      hpushed.other a (by omega) (by rw [hlen]; omega)
  · have hg : g * PGSIZE ≤ (g + 1) * PGSIZE := Nat.mul_le_mul_right _ (Nat.le_succ _)
    rw [hpushed.other a (by omega) (by omega), hargs.other a (by omega) (by omega)]

end Xv6.Exec
