import Xv6.Vm.Copyout

/-!
# The size of a process

`growproc` on a process whose memory is `[0, sz)`, and `sys_sbrk`, which reads the old size before
it calls `growproc`.  The functions of `vm.c` say 0 for an error, and `growproc` takes the new size
0 for one.
-/

namespace Xv6.Vm

open LittleEndian Fallible Function
open UserMemory (pgroundup)

variable {K : Link} {s s' s'' : Phys} {d f k i : ℕ} {F F' G : Set ℕ} {q : ℕ → ℕ}

structure Proc where
  pgdir : ℕ
  sz : ℕ
  deriving DecidableEq

/-- `sz + n`, as a `uint`. -/
def addSize (sz : ℕ) (n : ℤ) : ℕ := ((sz + n) % 2 ^ 32).toNat

/-- The end of `growproc`: the size is stored, and `switchuvm` loads the directory. -/
def setSize (p : Proc) (sz : ℕ) : M (ℤ × Proc) := do
  modify fun s => { s with cr3 := p.pgdir }
  return (0, { p with sz := sz })

def growproc (K : Link) (p : Proc) (n : ℤ) : M (ℤ × Proc) :=
  if 0 < n then do
    let sz ← allocuvm K p.pgdir p.sz (addSize p.sz n)
    if sz = 0 then return (-1, p) else setSize p sz
  else if n < 0 then do
    let sz ← deallocuvm K p.pgdir p.sz (addSize p.sz n)
    if sz = 0 then return (-1, p) else setSize p sz
  else setSize p p.sz

/-! ## One call -/

/-- The memory of the process is `[0, sz)`. -/
structure Proc.Ok (K : Link) (s : Phys) (p : Proc) (F : Set ℕ) : Prop where
  dir : Dir s p.pgdir F (kernelEntry K)
  own : Owned K s F
  pos : 0 < p.sz
  lt : p.sz < KERNBASE
  mapped : ∀ k < upages, translate s p.pgdir k ≠ none ↔ k * PGSIZE < pgroundup p.sz

theorem Proc.Ok.lt_npages {p : Proc} (h : p.Ok K s F) (hk : k < upages) :
    translate s p.pgdir k ≠ none ↔ k < npages p.sz := by
  rw [h.mapped k hk, pgroundup_eq h.lt.le, Nat.mul_lt_mul_right (by decide)]

theorem Dir.translate_setSize (h : Dir s d F q) (c : ℕ) :
    translate { s with cr3 := c } d k = translate s d k := by
  have hsame : pte { s with cr3 := c } d k = pte s d k := h.pte_congr (fun _ _ => rfl) k
  exact translate_congr hsame

/-- `growproc` has changed the size exactly; or nothing, for lack of room or of free pages. -/
def Grown (s s' : Phys) (p p' : Proc) (n r : ℤ) : Prop :=
  (r = 0 ∧ (p'.sz : ℤ) = p.sz + n ∧ p'.pgdir = p.pgdir ∧
    ∀ k < upages, translate s' p.pgdir k ≠ none ↔ k * PGSIZE < pgroundup p'.sz) ∨
  (r = -1 ∧ p' = p ∧ (∀ k, translate s' p.pgdir k = translate s p.pgdir k) ∧
    ((KERNBASE : ℤ) ≤ p.sz + n ∨ ¬ Rich s p.pgdir (npages (addSize p.sz n) - npages p.sz)))

section

variable {p : Proc} {n : ℤ} (h : p.Ok K s F)

include h

theorem growproc_grown (hn : -2 ^ 31 ≤ n ∧ n < 2 ^ 31) (hpos : 0 < (p.sz : ℤ) + n) :
    ∃ r p' s', growproc K p n s = (.ok (r, p'), s') ∧ Grown s s' p p' n r := by
  have hlt := h.lt
  have hK : KERNBASE = 2 ^ 31 := rfl
  have hsize : (addSize p.sz n : ℤ) = p.sz + n := by
    rw [addSize]
    omega
  rcases lt_trichotomy n 0 with hneg | rfl | hposn
  · -- pages are removed
    obtain ⟨r, s', hrun, hr, F', h'⟩ :=
      (deallocuvm_spec hlt.le (addSize p.sz n) h.dir h.own).exists_ok
    rw [if_neg (by omega)] at hr
    refine ⟨0, ⟨p.pgdir, addSize p.sz n⟩, { s' with cr3 := p.pgdir }, ?_,
      .inl ⟨rfl, hsize, rfl, fun k hk => ?_⟩⟩
    · rw [growproc, if_neg (by omega), if_pos hneg, bind_ok hrun, hr, if_neg (by omega)]
      rfl
    · have hmono : npages (addSize p.sz n) ≤ npages p.sz := npages_mono (by omega)
      rw [h'.dir.translate_setSize, pgroundup_eq (show addSize p.sz n ≤ KERNBASE by omega),
        Nat.mul_lt_mul_right (by decide)]
      by_cases hin : npages (addSize p.sz n) ≤ k ∧ k < npages p.sz
      · rw [translate_of_zero (by rw [h'.pte, if_pos hin])]
        exact ⟨fun hc => absurd rfl hc, fun hc => by omega⟩
      · have hsame : translate s' p.pgdir k = translate s p.pgdir k :=
          translate_congr (by rw [h'.pte, if_neg hin])
        rw [hsame, h.lt_npages hk]
        omega
  · refine ⟨0, p, { s with cr3 := p.pgdir }, rfl, .inl ⟨rfl, by omega, rfl, fun k hk => ?_⟩⟩
    rw [h.dir.translate_setSize, h.mapped k hk]
  · by_cases hbig : KERNBASE ≤ addSize p.sz n
    · refine ⟨-1, p, s, ?_, .inr ⟨rfl, rfl, fun _ => rfl, .inl (by omega)⟩⟩
      have hrun : allocuvm K p.pgdir p.sz (addSize p.sz n) s = (.ok 0, s) := by
        rw [allocuvm, if_pos hbig]
        rfl
      rw [growproc, if_pos hposn, bind_ok hrun]
      rfl
    · have hnone : ∀ k < upages, npages p.sz ≤ k → pte s p.pgdir k = 0 := by
        intro k hk hk'
        by_contra hne
        exact absurd ((h.lt_npages hk).1 fun hnone => hne (h.dir.translate_eq_none.1 hnone))
          (by omega)
      have hup' := npages_le (show addSize p.sz n ≤ KERNBASE by omega)
      have hmono : npages p.sz ≤ npages (addSize p.sz n) := npages_mono (by omega)
      obtain ⟨r, s', hrun, hr⟩ :=
        (allocuvm_spec (show addSize p.sz n < KERNBASE by omega) (by omega) h.dir h.own
        fun k hk hk' => hnone k (by omega) hk).exists_ok
      rcases hr with ⟨rfl, -, F', h'⟩ | ⟨rfl, hpoor, h', F', hdir', -⟩
      · -- pages are added
        refine ⟨0, ⟨p.pgdir, addSize p.sz n⟩, { s' with cr3 := p.pgdir }, ?_,
          .inl ⟨rfl, hsize, rfl, fun k hk => ?_⟩⟩
        · rw [growproc, if_pos hposn, bind_ok hrun, if_neg (by omega)]
          rfl
        · rw [h'.dir.translate_setSize, pgroundup_eq (show addSize p.sz n ≤ KERNBASE by omega),
            Nat.mul_lt_mul_right (by decide)]
          by_cases hin : npages p.sz ≤ k ∧ k < npages (addSize p.sz n)
          · rw [translate, if_pos (h'.new k hin.1 hin.2).1]
            simp [hin.2]
          · rw [translate_congr (h'.out k hin), h.lt_npages hk]
            omega
      · -- memory ran out
        refine ⟨-1, p, s', ?_, .inr ⟨rfl, rfl, fun k => translate_congr ?_, .inr hpoor⟩⟩
        · rw [growproc, if_pos hposn, bind_ok hrun]
          rfl
        · rw [h'.pte]
          split_ifs with hk
          · exact (hnone k (by omega) hk.1).symm
          · rfl

/-- The whole memory is freed, and `growproc` takes the new size 0 for an error. -/
theorem growproc_to_zero (hn : (p.sz : ℤ) + n = 0) :
    ∃ s', growproc K p n s = (.ok (-1, p), s') ∧ translate s p.pgdir 0 ≠ none ∧
      translate s' p.pgdir 0 = none := by
  have hpos := h.pos
  have hpages : 0 < npages p.sz := lt_npages.2 (by omega)
  obtain ⟨r, s', hrun, hr, F', h'⟩ := (deallocuvm_spec h.lt.le 0 h.dir h.own).exists_ok
  rw [if_neg (by omega)] at hr
  subst hr
  refine ⟨s', ?_, (h.lt_npages (by decide)).2 hpages,
    translate_of_zero (by rw [h'.pte, if_pos ⟨Nat.zero_le _, hpages⟩])⟩
  rw [growproc, if_neg (by omega), if_pos (by omega), addSize, hn]
  exact bind_ok hrun

/-- The new size wraps around, and nothing is done. -/
theorem growproc_below_zero (hn : -2 ^ 31 ≤ n) (hneg : (p.sz : ℤ) + n < 0) :
    growproc K p n s = (.ok (0, p), { s with cr3 := p.pgdir }) := by
  have hpos := h.pos
  have hrun : deallocuvm K p.pgdir p.sz (addSize p.sz n) s = (.ok p.sz, s) := by
    rw [deallocuvm, if_pos (by rw [addSize]; omega)]
    rfl
  rw [growproc, if_neg (by omega), if_pos (by omega), bind_ok hrun, if_neg (by omega)]
  rfl

end

/-- `growproc` changes the size exactly, or nothing, exactly if the new size is positive. -/
theorem growproc_exact {p : Proc} {n : ℤ} (h : p.Ok K s F) (hn : -2 ^ 31 ≤ n ∧ n < 2 ^ 31) :
    (∃ r p' s', growproc K p n s = (.ok (r, p'), s') ∧ Grown s s' p p' n r) ↔
      0 < (p.sz : ℤ) + n := by
  refine ⟨fun ⟨r, p', s', hrun, hg⟩ => ?_, growproc_grown h hn⟩
  by_contra hle
  rcases Int.lt_or_eq_of_le (Int.not_lt.1 hle) with hneg | hzero
  · rw [growproc_below_zero h hn.1 hneg] at hrun
    cases hrun
    have hpos := h.pos
    rcases hg with ⟨-, hsz, -⟩ | ⟨hr, -⟩ <;> omega
  · obtain ⟨s₁, hrun₁, hbefore, hafter⟩ := growproc_to_zero h hzero
    rw [hrun₁] at hrun
    cases hrun
    rcases hg with ⟨hr, -⟩ | ⟨-, -, hsame, -⟩
    · omega
    · exact hbefore ((hsame 0).symm.trans hafter)

theorem exists_proc : ∃ d s F, Proc.Ok smallLink s ⟨d, 4096⟩ F ∧ Rich s d 40000 := by
  obtain ⟨d, s, hb, hp, hzero, -, hrich⟩ := exists_built (show 1 ≤ 10000 by decide)
  obtain ⟨F, hdir, hown⟩ := hb.dir
  refine ⟨d, s, F, ⟨hdir, hown, show 0 < 4096 by decide, show 4096 < KERNBASE by decide,
    fun k hk => ?_⟩, hrich⟩
  rw [show pgroundup 4096 = 4096 by decide]
  rcases Nat.eq_zero_or_pos k with rfl | hpos
  · rw [translate, if_pos (hp 0 one_pos).1]
    simp
  · rw [translate_of_zero (hzero k hpos hk)]
    simp only [PGSIZE]
    refine ⟨fun hc => absurd rfl hc, fun hc => ?_⟩
    omega

theorem growproc_exact_first : ∃ d s p' s', growproc smallLink ⟨d, 4096⟩ 100 s = (.ok (0, p'), s') ∧
    p'.sz = 4196 := by
  obtain ⟨d, s, F, hok, hrich⟩ := exists_proc
  obtain ⟨r, p', s', hrun, hr⟩ :=
    (growproc_exact hok (show -2 ^ 31 ≤ (100 : ℤ) ∧ (100 : ℤ) < 2 ^ 31 by decide)).2
    (show 0 < ((4096 : ℕ) : ℤ) + 100 by decide)
  rcases hr with ⟨rfl, hsz, -⟩ | ⟨-, -, -, hbig | hpoor⟩
  · have : (p'.sz : ℤ) = ((4096 : ℕ) : ℤ) + 100 := hsz
    exact ⟨d, s, p', s', hrun, by omega⟩
  · exact absurd hbig (show ¬ ((KERNBASE : ℕ) : ℤ) ≤ ((4096 : ℕ) : ℤ) + 100 by decide)
  · exact absurd (hrich.mono (show npages (addSize 4096 100) - npages 4096 ≤ 40000 by decide)) hpoor

/-- A failure that has freed the memory, and a success without effect. -/
theorem growproc_boundary : ∃ d s F, Proc.Ok smallLink s ⟨d, 4096⟩ F ∧
    (∃ s', growproc smallLink ⟨d, 4096⟩ (-4096) s = (.ok (-1, ⟨d, 4096⟩), s') ∧
      translate s d 0 ≠ none ∧ translate s' d 0 = none) ∧
    ∃ s', growproc smallLink ⟨d, 4096⟩ (-4097) s = (.ok (0, ⟨d, 4096⟩), s') := by
  obtain ⟨d, s, F, hok, -⟩ := exists_proc
  exact ⟨d, s, F, hok, growproc_to_zero hok (show ((4096 : ℕ) : ℤ) + -4096 = 0 by decide), _,
    growproc_below_zero hok (by decide) (show ((4096 : ℕ) : ℤ) + -4097 < 0 by decide)⟩

/-! ## Two threads -/

theorem allocFrom_result (oldsz newsz : ℕ) : ∀ (n a : ℕ) (s : Phys),
    Sat (fun _ _ => True) (fun r _ => r = 0 ∨ r = newsz) (allocFrom K d oldsz newsz n a s) := by
  intro n
  induction n with
  | zero => exact fun _ _ => trivial
  | succ n ih =>
    intro a s
    rw [allocFrom]
    split_ifs with ha
    · refine .skip fun r s₁ => ?_
      cases r with
      | none => exact .skip fun _ _ => .inl rfl
      | some mem =>
        refine .skip fun _ s₂ => .skip fun r s₃ => ?_
        split_ifs
        · exact .skip fun _ _ => .skip fun _ _ => .inl rfl
        · exact ih _ s₃
    · exact .inr rfl

theorem growproc_grow {p p' : Proc} {n r : ℤ} (hn : 0 < n ∧ n < 2 ^ 31) (hlt : p.sz < KERNBASE)
    (hrun : growproc K p n s = (.ok (r, p'), s')) :
    (r = -1 ∧ p' = p) ∨ (r = 0 ∧ (p'.sz : ℤ) = p.sz + n ∧ p'.sz < KERNBASE) := by
  have hK : KERNBASE = 2 ^ 31 := rfl
  have hsize : (addSize p.sz n : ℤ) = p.sz + n := by
    rw [addSize]
    omega
  rw [growproc, if_pos hn.1] at hrun
  have halloc : Sat (fun _ _ => True) (fun r _ => r = 0 ∨ r = addSize p.sz n ∧
    addSize p.sz n < KERNBASE)
      (allocuvm K p.pgdir p.sz (addSize p.sz n) s) := by
    rw [allocuvm]
    split_ifs with h₁ h₂
    · exact .inl rfl
    · omega
    · exact (allocFrom_result p.sz (addSize p.sz n) _ _ s).mono fun r _ hr => hr.imp_right fun hr =>
        ⟨hr, by omega⟩
  refine (halloc.bind fun sz s₁ hsz =>
    ?_ : Sat (fun _ _ => True) (fun (x : ℤ × Proc) _ => (x.1 = -1 ∧ x.2 = p) ∨
      (x.1 = 0 ∧ (x.2.sz : ℤ) = p.sz + n ∧ x.2.sz < KERNBASE)) _).of_eq_ok hrun
  rcases hsz with rfl | ⟨rfl, hsz⟩
  · exact .inl ⟨rfl, rfl⟩
  · rw [if_neg (by omega)]
    exact .inr ⟨rfl, hsize, hsz⟩

/-- Where a thread is in `sys_sbrk`: `addr` is the size it has read. -/
inductive SbrkPc where
  | start
  | read (addr : ℕ)
  | done (ret : ℤ)
  deriving DecidableEq

def SbrkPc.isRead : SbrkPc → Bool
  | .read _ => true
  | _ => false

structure Sbrk (T : Type) where
  phys : Phys
  proc : Proc
  pc : T → SbrkPc

variable {T : Type} [DecidableEq T]

/-- One step of thread `t`, which asks for `n t` bytes: the size is read, or `growproc` runs under
the lock. -/
def Sbrk.next (K : Link) (n : T → ℤ) (x : Sbrk T) (t : T) : Option (Sbrk T) :=
  match x.pc t with
  | .start => some { x with pc := update x.pc t (.read x.proc.sz) }
  | .read addr =>
    match growproc K x.proc (n t) x.phys with
    | (.ok (r, p), s) => some ⟨s, p, update x.pc t (.done (if r < 0 then -1 else addr))⟩
    | (.error _, _) => none
  | .done _ => none

def sbrkSys (K : Link) (n : T → ℤ) : Machine.Sys (Sbrk T) T where
  init x := x.proc.sz < KERNBASE ∧ ∀ t, x.pc t = .start
  next x t := x.next K n t

/-- A thread reads the size while no other thread is between its two steps. -/
def Alone (x : Sbrk T) (t : T) : Prop := x.pc t = .start → ∀ u, (x.pc u).isRead = false

instance [Fintype T] (x : Sbrk T) (t : T) : Decidable (Alone x t) :=
  inferInstanceAs (Decidable (_ → _))

/-- What was given lies below the size, apart from each other; who has read the size has the present
one. -/
structure Sbrk.Inv (n : T → ℤ) (x : Sbrk T) : Prop where
  lt : x.proc.sz < KERNBASE
  read : ∀ t addr, x.pc t = .read addr → addr = x.proc.sz ∧ ∀ u a, x.pc u = .read a → u = t
  below : ∀ t r, x.pc t = .done r → r ≠ -1 → r + n t ≤ x.proc.sz
  apart : ∀ t u r r', t ≠ u → x.pc t = .done r → x.pc u = .done r' → r ≠ -1 → r' ≠ -1 →
    r + n t ≤ r' ∨ r' + n u ≤ r

theorem Sbrk.Inv.next {n : T → ℤ} (hn : ∀ t, 0 < n t ∧ n t < 2 ^ 31) {x x' : Sbrk T} {t : T}
    (h : x.Inv n) (halone : Alone x t) (hnext : x.next K n t = some x') : x'.Inv n := by
  unfold Sbrk.next at hnext
  rcases hpc : x.pc t with _ | addr | ret
  · -- the size is read
    rw [hpc] at hnext
    cases hnext
    have hother := halone hpc
    have hpcs : ∀ u y, update x.pc t (.read x.proc.sz) u = .done y → x.pc u = .done y := by
      intro u y hu
      by_cases hut : u = t
      · subst hut
        rw [update_self] at hu
        cases hu
      · rwa [update_of_ne hut] at hu
    have hread : ∀ u a, update x.pc t (.read x.proc.sz) u = .read a → u = t ∧ a = x.proc.sz := by
      intro u a hu
      by_cases hut : u = t
      · subst hut
        rw [update_self] at hu
        cases hu
        exact ⟨rfl, rfl⟩
      · rw [update_of_ne hut] at hu
        have := hother u
        rw [hu] at this
        cases this
    refine ⟨h.lt, fun u a hu => ⟨(hread u a hu).2, fun v b hv => ?_⟩,
      fun u r hu => h.below u r (hpcs u r hu), fun u v r r' huv hu hv =>
      h.apart u v r r' huv (hpcs u r hu) (hpcs v r' hv)⟩
    rw [(hread v b hv).1, (hread u a hu).1]
  · -- `growproc`
    simp only [hpc] at hnext
    obtain ⟨haddr, honly⟩ := h.read t addr hpc
    rcases hrun : growproc K x.proc (n t) x.phys with ⟨_ | ⟨r, p⟩, s⟩
    · rw [hrun] at hnext
      cases hnext
    · rw [hrun] at hnext
      cases hnext
      have hnoread : ∀ u a ret, update x.pc t (.done ret) u ≠ .read a := by
        intro u a ret hu
        by_cases hut : u = t
        · subst hut
          rw [update_self] at hu
          cases hu
        · rw [update_of_ne hut] at hu
          exact hut (honly u a hu)
      rcases growproc_grow (hn t) h.lt hrun with ⟨rfl, rfl⟩ | ⟨rfl, hsz, hlt⟩
      · -- it failed
        have hpcs : ∀ u y, update x.pc t (.done (-1)) u = .done y → y ≠ -1 → x.pc u = .done y := by
          intro u y hu hy
          by_cases hut : u = t
          · subst hut
            rw [update_self] at hu
            cases hu
            exact absurd rfl hy
          · rwa [update_of_ne hut] at hu
        exact ⟨h.lt, fun u a hu => absurd hu (hnoread u a _),
          fun u r hu hr => h.below u r (hpcs u r hu hr) hr, fun u v r r' huv hu hv hr hr' =>
          h.apart u v r r' huv (hpcs u r hu hr) (hpcs v r' hv hr') hr hr'⟩
      · -- it returns the old size
        have hpcs : ∀ u y, update x.pc t (.done addr) u = .done y → (u = t ∧ y = addr) ∨
          x.pc u = .done y := by
          intro u y hu
          by_cases hut : u = t
          · subst hut
            rw [update_self] at hu
            cases hu
            exact .inl ⟨rfl, rfl⟩
          · rw [update_of_ne hut] at hu
            exact .inr hu
        have hpos := (hn t).1
        refine ⟨hlt, fun u a hu => absurd hu (hnoread u a _), fun u r hu hr => ?_,
          fun u v r r' huv hu hv hr hr' => ?_⟩
        · show r + n u ≤ p.sz
          rcases hpcs u r hu with ⟨rfl, rfl⟩ | hu
          · omega
          · have := h.below u r hu hr
            omega
        · rcases hpcs u r hu with ⟨rfl, rfl⟩ | hu₁ <;> rcases hpcs v r' hv with ⟨rfl, rfl⟩ | hv₁
          · exact absurd rfl huv
          · have := h.below v r' hv₁ hr'
            omega
          · have := h.below u r hu₁ hr
            omega
          · exact h.apart u v r r' huv hu₁ hv₁ hr hr'
  · rw [hpc] at hnext
    cases hnext

/-- Threads of which none reads the size between the two steps of another get disjoint memory below
the size. -/
theorem sbrk_disjoint {n : T → ℤ} (hn : ∀ t, 0 < n t ∧ n t < 2 ^ 31) {x : Sbrk T}
    (h : (sbrkSys K n).ReachableVia Alone x) {t u : T} (htu : t ≠ u) {a b : ℤ}
    (ht : x.pc t = .done a) (hu : x.pc u = .done b) (ha : a ≠ -1) (hb : b ≠ -1) :
    (a + n t ≤ b ∨ b + n u ≤ a) ∧ a + n t ≤ x.proc.sz ∧ b + n u ≤ x.proc.sz := by
  have hinv : x.Inv n := Machine.Sys.ReachableVia.invariant (I := fun x => x.Inv n)
    (fun y hy => ⟨hy.1, fun t addr ht => absurd ((hy.2 t).symm.trans ht) (by simp),
      fun t r ht => absurd ((hy.2 t).symm.trans ht) (by simp),
      fun t _ r _ _ ht => absurd ((hy.2 t).symm.trans ht) (by simp)⟩)
    (fun _ _ _ hI hok hs => hI.next hn hok hs) h
  exact ⟨hinv.apart t u a b htu ht hu ha hb, hinv.below t a ht ha, hinv.below u b hu hb⟩

/-- A process of 4000 bytes: 10 more need no page. -/
def smallProc : Sbrk Bool := ⟨freshPhys, ⟨1024, 4000⟩, fun _ => .start⟩

theorem smallProc_init : (sbrkSys smallLink fun _ : Bool => 10).init smallProc :=
  ⟨by decide, fun _ => rfl⟩

theorem sbrk_disjoint_smallProc : ∃ x : Sbrk Bool, x.pc false = .done 4000 ∧
    x.pc true = .done 4010 ∧ (4010 : ℤ) + 10 ≤ x.proc.sz := by
  obtain ⟨x, hreach, h₁, h₂⟩ : ∃ x, (sbrkSys smallLink fun _ : Bool => 10).ReachableVia Alone x ∧
      x.pc false = .done 4000 ∧ x.pc true = .done 4010 :=
    Machine.Sys.exists_reachableVia [false, false, true, true] smallProc_init (by decide +kernel)
  exact ⟨x, h₁, h₂, (sbrk_disjoint (fun _ => ⟨by decide, by decide⟩) hreach
    (by decide : false ≠ true) h₁ h₂ (by decide)
    (by decide)).2.2⟩

/-- Both threads read the size and then grow the process: both get the same memory. -/
theorem sbrk_same_memory : ∃ x : Sbrk Bool, (sbrkSys smallLink fun _ : Bool => 10).Reachable x ∧
    x.pc false = .done 4000 ∧ x.pc true = .done 4000 ∧ x.proc.sz = 4020 :=
  Machine.Sys.exists_reachable [false, true, false, true] smallProc_init (by decide +kernel)

end Xv6.Vm
