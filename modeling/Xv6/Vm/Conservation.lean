import Xv6.Lib.Machine
import Xv6.Vm.Copy

/-!
# Conservation of physical pages

The calls of `kinit1`, `kinit2`, `kalloc`, `kfree`, `setupkvm`, `allocuvm`, `deallocuvm`, `copyuvm`
and `freevm` one after the other, with the directories in use and the pages that callers of `kalloc`
hold; a call that panics ends the run.  Every page from `end` to `PHYSTOP` has one owner at a time
(`Owner`), or it is on the free list.
-/

namespace Xv6.Vm

open Fallible Machine List Option Set
open UserMemory (pgroundup)

variable {K : Link} {s s' : Phys} {d f k : ℕ} {F F' G : Set ℕ} {σ : Pages}

/-! ## Calls -/

/-- How far the boot code has come. -/
inductive Stage where
  | off
  | kinit1
  | kinit2
  deriving DecidableEq

structure Pages where
  phys : Phys
  stage : Stage
  dirs : List ℕ
  /-- The pages that callers of `kalloc` hold. -/
  held : List ℕ

inductive Call where
  | kinit1
  | kinit2
  | kalloc
  | kfree (v : ℕ)
  | setupkvm
  | allocuvm (pgdir oldsz newsz : ℕ)
  | deallocuvm (pgdir oldsz newsz : ℕ)
  | copyuvm (pgdir sz : ℕ)
  | freevm (pgdir : ℕ)

def ends {α : Type} (x : Except Panic α × Phys) (g : α → Phys → Pages) : Option Pages :=
  match x with
  | (.ok a, s) => some (g a s)
  | (.error _, _) => none

theorem ends_eq_some {α : Type} {x : Except Panic α × Phys} {g : α → Phys → Pages} :
    ends x g = some σ ↔ ∃ a s, x = (.ok a, s) ∧ g a s = σ := by
  rcases x with ⟨_ | a, s⟩ <;> simp [ends]

def Pages.call (K : Link) (σ : Pages) : Call → Option Pages
  | .kinit1 => ends (Vm.kinit1 K σ.phys) fun _ s => { σ with phys := s, stage := .kinit1 }
  | .kinit2 => ends (Vm.kinit2 K σ.phys) fun _ s => { σ with phys := s, stage := .kinit2 }
  | .kalloc => ends (Vm.kalloc σ.phys) fun r s => { σ with phys := s, held := r.toList ++ σ.held }
  | .kfree v =>
    if v ∈ σ.held then ends (Vm.kfree K v σ.phys) fun _ s =>
      { σ with phys := s, held := σ.held.erase v } else none
  | .setupkvm => ends (Vm.setupkvm K σ.phys) fun r s =>
    { σ with phys := s, dirs := r.toList ++ σ.dirs }
  | .allocuvm d oldsz newsz =>
    if d ∈ σ.dirs then ends (Vm.allocuvm K d oldsz newsz σ.phys) fun _ s =>
      { σ with phys := s } else none
  | .deallocuvm d oldsz newsz =>
    if d ∈ σ.dirs then ends (Vm.deallocuvm K d oldsz newsz σ.phys) fun _ s =>
      { σ with phys := s } else none
  | .copyuvm d sz =>
    if d ∈ σ.dirs then ends (Vm.copyuvm K d sz σ.phys) fun r s =>
      { σ with phys := s, dirs := r.toList ++ σ.dirs } else none
  | .freevm d =>
    if d ∈ σ.dirs then ends (Vm.freevm K d σ.phys) fun _ s =>
      { σ with phys := s, dirs := σ.dirs.erase d } else none

def pagesSys (K : Link) : Sys Pages Call where
  init σ := σ.stage = .off ∧ σ.phys.freelist = [] ∧ σ.dirs = [] ∧ σ.held = []
  next := Pages.call K

/-- `kinit1` and then `kinit2` are called once, and `deallocuvm` is called on the user part. -/
def Proper (σ : Pages) : Call → Prop
  | .kinit1 => σ.stage = .off
  | .kinit2 => σ.stage = .kinit1
  | .deallocuvm _ oldsz _ => oldsz ≤ KERNBASE
  | _ => True

/-! ## `freerange` -/

def firstPage (K : Link) : ℕ := npages (K.end - KERNBASE)

/-- The pages of the first four megabytes, which are for `kinit1`. -/
def lowPages : ℕ := 4 * 1024 * 1024 / PGSIZE

def physPages : ℕ := PHYSTOP / PGSIZE

theorem Link.end_bounds (K : Link) : KERNBASE < K.end ∧ K.end ≤ KERNBASE + PHYSTOP := by
  have h₁ := K.link_lt
  have h₂ := K.data_lt
  have h₃ := K.end_le
  rw [KERNLINK] at h₁
  omega

theorem mem_avail_iff : f ∈ Avail K ↔ firstPage K ≤ f ∧ f < physPages := by
  have hend := K.end_bounds
  show K.end ≤ p2v (f * PGSIZE) ∧ f * PGSIZE < PHYSTOP ↔ _
  simp only [p2v, firstPage, physPages, npages, PGSIZE, PHYSTOP, KERNBASE] at *
  omega

theorem pgroundup_end (K : Link) : pgroundup K.end = KERNBASE + firstPage K * PGSIZE := by
  have hend := K.end_bounds
  simp only [pgroundup, firstPage, npages, PGSIZE, PHYSTOP, KERNBASE] at *
  omega

theorem v2p_page (hk : k < physPages) : v2p (KERNBASE + k * PGSIZE) / PGSIZE = k := by
  simp only [v2p, physPages, PHYSTOP, PGSIZE, KERNBASE] at *
  omega

theorem freerangeFrom_spec {hi vend : ℕ} (hhi : hi ≤ physPages)
    (hvend : vend = KERNBASE + hi * PGSIZE) : ∀ (n lo : ℕ) (s : Phys), hi - lo < n →
    Owned K s { f | lo ≤ f ∧ f < hi } →
      Total (fun _ s' => Steps K s s' { f | lo ≤ f ∧ f < hi } ∅ ∧ s'.refuse = s.refuse)
      (freerangeFrom K vend n (KERNBASE + lo * PGSIZE) s) := by
  intro n
  induction n with
  | zero => omega
  | succ n ih =>
    intro lo s hn ho
    have hround : KERNBASE + lo * PGSIZE + PGSIZE = KERNBASE + (lo + 1) * PGSIZE := by
      rw [add_assoc, Nat.succ_mul]
    have hcond : KERNBASE + (lo + 1) * PGSIZE ≤ vend ↔ lo < hi := by
      rw [hvend, Nat.add_le_add_iff_left, Nat.mul_le_mul_right_iff (by decide), Nat.succ_le_iff]
    rw [freerangeFrom, hround]
    by_cases hlt : lo < hi
    · have hmem : lo ∈ { f | lo ≤ f ∧ f < hi } := ⟨le_rfl, hlt⟩
      have hrest : { f | lo ≤ f ∧ f < hi } \ {lo} = { f | lo + 1 ≤ f ∧ f < hi } := by
        ext f
        simp only [mem_sdiff, mem_ofPred_eq, mem_singleton_iff]
        omega
      have hsteps := Steps.freed ho hmem
      rw [hrest] at hsteps
      rw [if_pos (hcond.2 hlt), v2p_page (hlt.trans_le hhi), bind_ok (kfree_eq ho hmem)]
      exact (ih (lo + 1) _ (by omega) hsteps.own).mono fun _ _ h => ⟨hsteps.trans h.1, h.2⟩
    · have hempty : { f | lo ≤ f ∧ f < hi } = ∅ := by
        ext f
        simp only [mem_ofPred_eq, mem_empty_iff_false, iff_false]
        omega
      rw [if_neg fun h => hlt (hcond.1 h)]
      rw [hempty] at ho ⊢
      exact ⟨.refl ho, rfl⟩

theorem freerange_spec {lo hi vstart vend : ℕ} (hhi : hi ≤ physPages)
    (hstart : pgroundup vstart = KERNBASE + lo * PGSIZE) (hvend : vend = KERNBASE + hi * PGSIZE)
    (ho : Owned K s { f | lo ≤ f ∧ f < hi }) : ∃ s', freerange K vstart vend s = (.ok ⟨⟩, s') ∧
    Steps K s s' { f | lo ≤ f ∧ f < hi } ∅ ∧ s'.refuse = s.refuse := by
  have hfuel : hi - lo < fuel := (Nat.sub_le hi lo).trans_lt (hhi.trans_lt (by decide))
  obtain ⟨⟨⟩, s', hrun, hsteps⟩ := (freerangeFrom_spec hhi hvend fuel lo s hfuel ho).exists_ok
  exact ⟨s', by rw [freerange, hstart, hrun], hsteps⟩

/-- The pages that `kinit1` has not been given, and then those that `kinit2` has not been given. -/
def early (K : Link) : Stage → Set ℕ
  | .off => Avail K
  | .kinit1 => { f | f ∈ Avail K ∧ lowPages ≤ f }
  | .kinit2 => ∅

theorem kinit1_spec (ho : Owned K s (Avail K)) :
    ∃ s', kinit1 K s = (.ok ⟨⟩, s') ∧ Steps K s s' (Avail K) (early K .kinit1) ∧
      s'.refuse = s.refuse := by
  have hphys : physPages = 57344 := rfl
  have hlow : lowPages = 1024 := rfl
  have hsplit : Avail K = { f | firstPage K ≤ f ∧ f < lowPages } ∪ early K .kinit1 := by
    ext f
    simp only [mem_union, mem_ofPred_eq, early, mem_avail_iff]
    omega
  have hdisj : ∀ f ∈ early K .kinit1, f ∉ { f | firstPage K ≤ f ∧ f < lowPages } := fun f hf hf' =>
    not_lt_of_ge hf.2 hf'.2
  rw [hsplit] at ho
  obtain ⟨s', hrun, hsteps, hrefuse⟩ :=
    freerange_spec (show lowPages ≤ physPages by omega) (pgroundup_end K)
    (show p2v (4 * 1024 * 1024) = KERNBASE + lowPages * PGSIZE by decide)
    (ho.mono subset_union_left)
  have := hsteps.beside ho hdisj
  rw [empty_union, ← hsplit] at this
  exact ⟨s', hrun, this, hrefuse⟩

theorem kinit2_spec (hend : K.end ≤ KERNBASE + 4 * 1024 * 1024) (ho : Owned K s (early K .kinit1)) :
    ∃ s', kinit2 K s = (.ok ⟨⟩, s') ∧ Steps K s s' (early K .kinit1) ∅ ∧ s'.refuse = s.refuse := by
  have hfirst : firstPage K ≤ lowPages := by
    simp only [firstPage, npages, lowPages, PGSIZE] at *
    omega
  have hset : early K .kinit1 = { f | lowPages ≤ f ∧ f < physPages } := by
    ext f
    simp only [early, mem_ofPred_eq, mem_avail_iff]
    omega
  rw [hset] at ho ⊢
  exact freerange_spec le_rfl (by decide)
    (show p2v PHYSTOP = KERNBASE + physPages * PGSIZE by decide) ho

/-- With an `end` above the first four megabytes `kinit2` panics. -/
theorem kinit2_panics (hend : KERNBASE + 4 * 1024 * 1024 < K.end) :
    kinit2 K s = (.error .kfree, s) := by
  have hlow : p2v (lowPages * PGSIZE) < K.end := by
    rw [show p2v (lowPages * PGSIZE) = KERNBASE + 4 * 1024 * 1024 by decide]
    exact hend
  have hthrow : kfree K lowPages s = (.error .kfree, s) := by
    rw [kfree, if_pos (.inl hlow)]
    rfl
  obtain ⟨n, hn⟩ : ∃ n, fuel = n + 1 := ⟨2 ^ 20 - 1, rfl⟩
  rw [kinit2, freerange, hn, freerangeFrom, if_pos (by decide),
    show v2p (pgroundup (p2v (4 * 1024 * 1024))) / PGSIZE = lowPages by decide, bind_error hthrow]

/-! ## Owners -/

inductive Owner where
  | boot
  | caller
  | dir (d : ℕ)
  deriving DecidableEq

def share (K : Link) (σ : Pages) : Owner → Set ℕ
  | .boot => early K σ.stage
  | .caller => { f | f ∈ σ.held }
  | .dir d => { f | d ∈ σ.dirs ∧ f ∈ pagesOf σ.phys d }

/-- Every page is free or has one owner. -/
structure Conserved (K : Link) (σ : Pages) : Prop where
  parts : Heap.Parts (Avail K) σ.phys.toHeap (share K σ)
  held : σ.held.Nodup
  dirs : σ.dirs.Nodup
  dir : ∀ d ∈ σ.dirs, Dir σ.phys d (pagesOf σ.phys d) (kernelEntry K)

theorem share_dir (hd : d ∈ σ.dirs) : share K σ (.dir d) = pagesOf σ.phys d := by
  ext f
  exact and_iff_right hd

theorem share_dir_of_notMem (hd : d ∉ σ.dirs) : share K σ (.dir d) = ∅ := by
  ext f
  exact iff_of_false (fun hf => hd hf.1) fun hf => hf

section Step

variable {σ σ' : Pages} {o : Owner}

theorem Conserved.moves (h : Conserved K σ)
    (hsteps : Steps K σ.phys σ'.phys (share K σ o) (share K σ' o))
    (hstage : o ≠ .boot → σ'.stage = σ.stage) (hheld : o ≠ .caller → σ'.held = σ.held)
    (hdirs : ∀ d, o ≠ .dir d → (d ∈ σ'.dirs ↔ d ∈ σ.dirs)) (hnodup : σ'.held.Nodup)
    (hnodup' : σ'.dirs.Nodup)
    (hdir : ∀ d, o = .dir d → d ∈ σ'.dirs → ∃ F, Dir σ'.phys d F (kernelEntry K)) :
    Conserved K σ' := by
  have hkept : ∀ d ∈ σ.dirs, o ≠ .dir d → ∀ f ∈ pagesOf σ.phys d, σ'.phys.mem f = σ.phys.mem f :=
    fun d hd ho f hf =>
    h.parts.kept hsteps.toMoves (Ne.symm ho) (show f ∈ share K σ (.dir d) from ⟨hd, hf⟩)
  have hsame : ∀ d ∈ σ.dirs, o ≠ .dir d → Dir σ'.phys d (pagesOf σ.phys d) (kernelEntry K) :=
    fun d hd ho =>
    (h.dir d hd).congr (hkept d hd ho)
  refine ⟨h.parts.moves hsteps.toMoves rfl fun o' ho' => ?_, hnodup, hnodup', fun d hd => ?_⟩
  · cases o' with
    | boot => rw [share, hstage (Ne.symm ho'), share]
    | caller => rw [share, hheld (Ne.symm ho'), share]
    | dir d =>
      by_cases hd : d ∈ σ.dirs
      · rw [share_dir hd, share_dir ((hdirs d (Ne.symm ho')).2 hd),
          (hsame d hd (Ne.symm ho')).pagesOf_eq]
      · rw [share_dir_of_notMem hd, share_dir_of_notMem fun hd' =>
          hd ((hdirs d (Ne.symm ho')).1 hd')]
  · by_cases ho : o = .dir d
    · obtain ⟨F, hF⟩ := hdir d ho hd
      rw [hF.pagesOf_eq]
      exact hF
    · have := hsame d ((hdirs d ho).1 hd) ho
      rw [this.pagesOf_eq]
      exact this

theorem Steps.idle (h : Steps K s s' ∅ ∅) (ho : Owned K s G) : Steps K s s' G G := by
  have := (h.fresh ho).1
  rwa [empty_union] at this

theorem Conserved.idle (h : Conserved K σ) (hsteps : Steps K σ.phys s' ∅ ∅) :
    Conserved K { σ with phys := s' } :=
  h.moves (o := .caller) (hsteps.idle (h.parts.own .caller)) (fun _ => rfl) (fun _ => rfl)
  (fun _ _ => .rfl) h.held h.dirs
    (fun _ ho => nomatch ho)

theorem Conserved.changed (h : Conserved K σ) (hd : d ∈ σ.dirs) (hdir : Dir s' d F' (kernelEntry K))
    (hsteps : Steps K σ.phys s' (pagesOf σ.phys d) F') : Conserved K { σ with phys := s' } := by
  refine h.moves (o := .dir d) ?_ (fun _ => rfl) (fun _ => rfl) (fun _ _ => .rfl) h.held h.dirs
    fun d' ho _ => ?_
  · have hd' : d ∈ ({ σ with phys := s' } : Pages).dirs := hd
    rw [share_dir hd, share_dir hd', hdir.pagesOf_eq]
    exact hsteps
  · obtain rfl := Owner.dir.inj ho
    exact ⟨F', hdir⟩

theorem Conserved.created (h : Conserved K σ) (hdir : Dir s' d F (kernelEntry K))
    (hsteps : Steps K σ.phys s' ∅ F) : Conserved K { σ with phys := s', dirs := d :: σ.dirs } := by
  have hnew : d ∉ σ.dirs := by
    intro hd
    rcases (hsteps.total d).1 (.inl hdir.mem_dir) with hf | hfree
    · exact hf
    · have hmem : d ∈ share K σ (.dir d) := ⟨hd, (h.dir d hd).mem_dir⟩
      exact h.parts.apart _ d hmem hfree
  have hmem : d ∈ ({ σ with phys := s', dirs := d :: σ.dirs } : Pages).dirs := mem_cons_self
  refine h.moves (o := .dir d) ?_ (fun _ => rfl) (fun _ => rfl) (fun d' ho => ?_) h.held
    (nodup_cons.2 ⟨hnew, h.dirs⟩)
    fun d' ho _ => ?_
  · rw [share_dir_of_notMem hnew, share_dir hmem, hdir.pagesOf_eq]
    exact hsteps
  · exact mem_cons.trans (or_iff_right fun heq => ho (heq ▸ rfl))
  · obtain rfl := Owner.dir.inj ho
    exact ⟨F, hdir⟩

theorem Conserved.made {r : Option ℕ} (h : Conserved K σ) (hr : (r = none ∧ Steps K σ.phys s' ∅ ∅) ∨
    ∃ d F, r = some d ∧ Dir s' d F (kernelEntry K) ∧ Steps K σ.phys s' ∅ F) :
    Conserved K { σ with phys := s', dirs := r.toList ++ σ.dirs } := by
  rcases hr with ⟨rfl, hsteps⟩ | ⟨d, F, rfl, hdir, hsteps⟩
  · exact h.idle hsteps
  · exact h.created hdir hsteps

theorem Conserved.kalloc {r : Option ℕ} (h : Conserved K σ)
    (hrun : Vm.kalloc σ.phys = (.ok r, s')) :
    Conserved K { σ with phys := s', held := r.toList ++ σ.held } := by
  have hown := h.parts.own .caller
  rcases (kalloc_spec hown).of_eq_ok hrun with ⟨rfl, hq, -⟩ | ⟨f, rfl, -, hf, -, hsteps, -⟩
  · exact h.moves (o := .caller) (hq.steps hown) (fun _ => rfl) (fun ho => absurd rfl ho)
      (fun _ _ => .rfl) h.held h.dirs
      (fun _ ho => nomatch ho)
  · refine h.moves (o := .caller) ?_ (fun _ => rfl) (fun ho => absurd rfl ho) (fun _ _ => .rfl)
      (nodup_cons.2 ⟨hf, h.held⟩) h.dirs (fun _ ho => nomatch ho)
    have hset : share K { σ with phys := s', held := f :: σ.held } .caller = insert f
      (share K σ .caller) := by
      ext g
      exact mem_cons
    exact hset ▸ hsteps

theorem Conserved.kfree (h : Conserved K σ) (hf : f ∈ σ.held) :
    Conserved K { σ with phys := σ.phys.freed f, held := σ.held.erase f } := by
  refine h.moves (o := .caller) ?_ (fun _ => rfl) (fun ho => absurd rfl ho) (fun _ _ => .rfl)
    (h.held.erase f) h.dirs
    (fun _ ho => nomatch ho)
  have hset : share K { σ with phys := σ.phys.freed f, held := σ.held.erase f } .caller = share K σ
    .caller \ {f} := by
    ext g
    exact h.held.mem_erase_iff.trans and_comm
  rw [hset]
  exact .freed (h.parts.own .caller) hf

theorem Conserved.freevm (h : Conserved K σ) (hd : d ∈ σ.dirs)
    (hsteps : Steps K σ.phys s' (pagesOf σ.phys d) ∅) :
    Conserved K { σ with phys := s', dirs := σ.dirs.erase d } := by
  have hgone : d ∉ ({ σ with phys := s', dirs := σ.dirs.erase d } : Pages).dirs :=
    h.dirs.not_mem_erase
  refine h.moves (o := .dir d) ?_ (fun _ => rfl) (fun _ => rfl) (fun d' ho => ?_) h.held
    (h.dirs.erase d)
    fun d' ho hd' => ?_
  · rw [share_dir hd, share_dir_of_notMem hgone]
    exact hsteps
  · exact mem_erase_of_ne fun heq => ho (heq ▸ rfl)
  · obtain rfl := Owner.dir.inj ho
    exact absurd hd' hgone

theorem Conserved.booted {stage : Stage} (h : Conserved K σ)
    (hsteps : Steps K σ.phys s' (early K σ.stage) (early K stage)) :
    Conserved K { σ with phys := s', stage := stage } :=
  h.moves (o := .boot) hsteps (fun ho => absurd rfl ho) (fun _ => rfl) (fun _ _ => .rfl) h.held
  h.dirs (fun _ ho => nomatch ho)

theorem Conserved.init (h : (pagesSys K).init σ) : Conserved K σ := by
  obtain ⟨hstage, hfree, hdirs, hheld⟩ := h
  have hboot : share K σ .boot = Avail K := by rw [share, hstage, early]
  have hcaller : ∀ f, f ∉ share K σ .caller := fun f hf => by
    rw [share, hheld] at hf
    cases hf
  have hdir : ∀ d f, f ∉ share K σ (.dir d) := fun d f hf => by
    have := hf.1
    rw [hdirs] at this
    cases this
  have hmem : ∀ o f, f ∈ share K σ o → o = .boot := by
    intro o f hf
    cases o with
    | boot => rfl
    | caller => exact (hcaller f hf).elim
    | dir d => exact (hdir d f hf).elim
  have hnone : ∀ f, f ∉ σ.phys.freelist := fun f => by simp [hfree]
  refine ⟨⟨by simp [hfree], fun f => ?_, fun _ f _ => hnone f,
    fun i j f hi hj => ?_⟩, by simp [hheld], by simp [hdirs],
    fun d hd => by simp [hdirs] at hd⟩
  · rw [or_iff_right (hnone f)]
    constructor
    · exact fun hf => ⟨.boot, hboot ▸ hf⟩
    · rintro ⟨o, ho⟩
      rw [hmem o f ho, hboot] at ho
      exact ho
  · rw [hmem i f hi, hmem j f hj]

theorem Conserved.call {c : Call} (h : Conserved K σ) (hc : Proper σ c)
    (hnext : σ.call K c = some σ') : Conserved K σ' := by
  cases c with
  | kinit1 =>
    rw [Pages.call] at hnext
    obtain ⟨_, s', hrun, rfl⟩ := ends_eq_some.1 hnext
    have hown := h.parts.own .boot
    rw [share, show σ.stage = .off from hc] at hown
    obtain ⟨s₁, hrun', hsteps, -⟩ := kinit1_spec hown
    obtain ⟨-, rfl⟩ := Prod.mk.inj (hrun.symm.trans hrun')
    refine h.booted ?_
    rw [show σ.stage = .off from hc]
    exact hsteps
  | kinit2 =>
    rw [Pages.call] at hnext
    obtain ⟨_, s', hrun, rfl⟩ := ends_eq_some.1 hnext
    have hown := h.parts.own .boot
    rw [share, show σ.stage = .kinit1 from hc] at hown
    rcases lt_or_ge (KERNBASE + 4 * 1024 * 1024) K.end with hend | hend
    · rw [kinit2_panics hend] at hrun
      cases hrun
    obtain ⟨s₁, hrun', hsteps, -⟩ := kinit2_spec hend hown
    obtain ⟨-, rfl⟩ := Prod.mk.inj (hrun.symm.trans hrun')
    refine h.booted ?_
    rw [show σ.stage = .kinit1 from hc]
    exact hsteps
  | kalloc =>
    obtain ⟨r, s', hrun, rfl⟩ := ends_eq_some.1 hnext
    exact h.kalloc hrun
  | kfree v =>
    obtain ⟨hv, hnext⟩ := ite_none_right_eq_some.1 hnext
    obtain ⟨_, s', hrun, rfl⟩ := ends_eq_some.1 hnext
    rw [kfree_eq (h.parts.own .caller) hv] at hrun
    obtain ⟨-, rfl⟩ := Prod.mk.inj hrun
    exact h.kfree hv
  | setupkvm =>
    obtain ⟨r, s', hrun, rfl⟩ := ends_eq_some.1 hnext
    have hown : Owned K σ.phys ∅ := (h.parts.own .caller).mono (empty_subset _)
    refine h.made (((setupkvm_spec hown).of_eq_ok hrun).imp (fun h => ⟨h.1, h.2.1⟩) ?_)
    rintro ⟨d, F, hr, hdir, hsteps, -⟩
    exact ⟨d, F, hr, hdir, hsteps⟩
  | allocuvm d oldsz newsz =>
    obtain ⟨hd, hnext⟩ := ite_none_right_eq_some.1 hnext
    obtain ⟨r, s', hrun, rfl⟩ := ends_eq_some.1 hnext
    have hown := h.parts.own (.dir d)
    rw [share_dir hd] at hown
    by_cases hnew : newsz < KERNBASE
    · by_cases hle : oldsz ≤ newsz
      · rcases (allocuvm_sat hnew hle (h.dir d hd) hown).of_eq_ok hrun with ⟨-, -, F', h'⟩ | ⟨-, -,
          -, F', hdir', hsteps'⟩
        · exact h.changed hd h'.dir h'.steps
        · exact h.changed hd hdir' hsteps'
      · rw [Vm.allocuvm, if_neg (by omega), if_pos (by omega)] at hrun
        cases hrun
        exact h
    · rw [Vm.allocuvm, if_pos (by omega)] at hrun
      cases hrun
      exact h
  | deallocuvm d oldsz newsz =>
    obtain ⟨hd, hnext⟩ := ite_none_right_eq_some.1 hnext
    obtain ⟨r, s', hrun, rfl⟩ := ends_eq_some.1 hnext
    have hown := h.parts.own (.dir d)
    rw [share_dir hd] at hown
    obtain ⟨-, F', h'⟩ := (deallocuvm_spec hc _ (h.dir d hd) hown).of_eq_ok hrun
    exact h.changed hd h'.dir h'.steps
  | copyuvm d sz =>
    obtain ⟨hd, hnext⟩ := ite_none_right_eq_some.1 hnext
    obtain ⟨r, s', hrun, rfl⟩ := ends_eq_some.1 hnext
    have hown := h.parts.own (.dir d)
    rw [share_dir hd] at hown
    refine h.made (((copyuvm_sat (fun _ _ hp => hp) (h.dir d hd) hown).of_eq_ok hrun).imp
      (fun hr => ⟨hr.1, hr.2.1⟩) ?_)
    rintro ⟨d', F, hr, hdir, hsteps, -⟩
    exact ⟨d', F, hr, hdir, hsteps⟩
  | freevm d =>
    obtain ⟨hd, hnext⟩ := ite_none_right_eq_some.1 hnext
    obtain ⟨_, s', hrun, rfl⟩ := ends_eq_some.1 hnext
    have hown := h.parts.own (.dir d)
    rw [share_dir hd] at hown
    exact h.freevm hd ((freevm_spec (h.dir d hd) hown).of_eq_ok hrun)

theorem Conserved.of_reachable (h : (pagesSys K).ReachableVia Proper σ) : Conserved K σ :=
  h.invariant (fun _ => .init) fun _ _ _ hI hc hnext => hI.call hc hnext

end Step

/-! ## One place for each page -/

inductive Spot where
  /-- The `i`th page of the free list. -/
  | free (i : ℕ)
  | owned (d : ℕ) (p : Place)
  | held (i : ℕ)
  /-- Not yet given to `kinit1` or `kinit2`. -/
  | early

def Pages.At (K : Link) (σ : Pages) (f : ℕ) : Spot → Prop
  | .free i => σ.phys.freelist[i]? = some f
  | .owned d p => d ∈ σ.dirs ∧ place σ.phys d p = f
  | .held i => σ.held[i]? = some f
  | .early => f ∈ Vm.early K σ.stage

theorem getElem?_inj {l : List ℕ} {i j : ℕ} (h : l.Nodup) (hi : l[i]? = some f)
    (hj : l[j]? = some f) : i = j := by
  obtain ⟨hi', hi⟩ := List.getElem?_eq_some_iff.1 hi
  obtain ⟨hj', hj⟩ := List.getElem?_eq_some_iff.1 hj
  exact (h.getElem_inj_iff).1 (hi.trans hj.symm)

def Spot.owner : Spot → Option Owner
  | .free _ => none
  | .owned d _ => some (.dir d)
  | .held _ => some .caller
  | .early => some .boot

theorem Pages.At.mem {w : Spot} (h : σ.At K f w) (hf : f ≠ 0) : match w.owner with
    | none => f ∈ σ.phys.freelist
    | some o => f ∈ share K σ o := by
  cases w with
  | free i => exact mem_of_getElem? h
  | owned d p => exact ⟨h.1, hf, p, h.2⟩
  | held i => exact mem_of_getElem? (l := σ.held) h
  | early => exact h

theorem Conserved.owner_eq {w w' : Spot} (h : Conserved K σ) (hf : f ≠ 0)
    (hw : σ.At K f w) (hw' : σ.At K f w') : w.owner = w'.owner := by
  have h₁ := hw.mem hf
  have h₂ := hw'.mem hf
  cases ho : w.owner with
  | none =>
    cases ho' : w'.owner with
    | none => rfl
    | some o' =>
      rw [ho] at h₁
      rw [ho'] at h₂
      exact (h.parts.apart o' f h₂ h₁).elim
  | some o =>
    rw [ho] at h₁
    cases ho' : w'.owner with
    | none =>
      rw [ho'] at h₂
      exact (h.parts.apart o f h₁ h₂).elim
    | some o' =>
      rw [ho'] at h₂
      rw [h.parts.inj o o' f h₁ h₂]

theorem Conserved.at_unique {w w' : Spot} (h : Conserved K σ) (hf : f ≠ 0)
    (hw : σ.At K f w) (hw' : σ.At K f w') : w = w' := by
  have howner := h.owner_eq hf hw hw'
  cases w with
  | free i =>
    cases w' with
    | free j => rw [getElem?_inj h.parts.nodup hw hw']
    | owned | held | early => cases howner
  | owned d p =>
    cases w' with
    | owned d' p' =>
      obtain rfl : d = d' := Owner.dir.inj (some.inj howner)
      rw [(h.dir d hw.1).exact.inj p p' (by rw [hw.2]; exact hf) (hw.2.trans hw'.2.symm)]
    | free | held | early => cases howner
  | held i =>
    cases w' with
    | held j => rw [getElem?_inj h.held hw hw']
    | free | owned | early => cases howner
  | early =>
    cases w' with
    | early => rfl
    | free | owned | held => cases howner

theorem Conserved.exists_at (h : Conserved K σ) (hf : f ∈ Avail K) : ∃ w, σ.At K f w := by
  rcases (h.parts.mem_iff f).1 hf with hfree | ⟨o, ho⟩
  · obtain ⟨i, hi⟩ := mem_iff_getElem?.1 hfree
    exact ⟨.free i, hi⟩
  · cases o with
    | boot => exact ⟨.early, ho⟩
    | caller =>
      obtain ⟨i, hi⟩ := mem_iff_getElem?.1 ho
      exact ⟨.held i, hi⟩
    | dir d =>
      obtain ⟨hd, -, p, hp⟩ := ho
      exact ⟨.owned d p, hd, hp⟩

theorem place_of_translate {x : ℕ × ℕ} (h : translate s d k = some x) :
    pteAddr (pte s d k) = x.1 ∧ present (pte s d k) := by
  rw [translate] at h
  split_ifs at h with hp
  cases h
  exact ⟨rfl, hp⟩

/-- Each page is in exactly one place, no page is user memory twice, and `freevm` gives back what
the directory has. -/
theorem pages_conserved {σ : Pages} (h : (pagesSys K).ReachableVia Proper σ) :
    (∀ f ∈ Avail K, ∃! w, σ.At K f w) ∧
    (∀ d ∈ σ.dirs, ∀ d' ∈ σ.dirs, ∀ k < upages, ∀ k' < upages, ∀ x x',
      translate σ.phys d k = some x → translate σ.phys d' k' = some x' → x.1 = x'.1 → d = d' ∧
      k = k') ∧ ∀ d ∈ σ.dirs, ∃ s', freevm K d σ.phys = (.ok ⟨⟩, s') ∧ s'.freelist.Nodup ∧
      ∀ f, f ∈ s'.freelist ↔ f ∈ σ.phys.freelist ∨ f ≠ 0 ∧ ∃ p, place σ.phys d p = f := by
  have hC := Conserved.of_reachable h
  refine ⟨fun f hf => ?_, fun d hd d' hd' k hk k' hk' x x' hx hx' heq => ?_, fun d hd => ?_⟩
  · obtain ⟨w, hw⟩ := hC.exists_at hf
    exact ⟨w, hw, fun w' hw' => hC.at_unique (avail_ne_zero hf) hw' hw⟩
  · obtain ⟨hp, hpage⟩ := place_of_translate hx
    obtain ⟨hp', hpage'⟩ := place_of_translate hx'
    have hne : x.1 ≠ 0 := hp ▸ (hC.dir d hd).page_ne k hk hpage
    have hw : σ.At K x.1 (.owned d (.page k)) := ⟨hd, by rw [Dir.place_page hk hpage, hp]⟩
    have hw' : σ.At K x.1 (.owned d' (.page k')) :=
      ⟨hd', by rw [Dir.place_page hk' hpage', hp', heq]⟩
    cases hC.at_unique hne hw hw'
    exact ⟨rfl, rfl⟩
  · have hown := hC.parts.own (.dir d)
    rw [share_dir hd] at hown
    obtain ⟨⟨⟩, s', hrun, hsteps⟩ := (freevm_spec (hC.dir d hd) hown).exists_ok
    refine ⟨s', hrun, hsteps.own.nodup, fun f => ?_⟩
    have htotal := hsteps.total f
    rw [or_iff_right (fun hf : f ∈ (∅ : Set ℕ) => hf)] at htotal
    exact htotal.trans or_comm

/-! ## A first directory -/

def bootPages : Pages := ⟨⟨⟨fun _ _ => 0, []⟩, [], 0⟩, .off, [], []⟩

theorem reachable_kinit1 (h : (pagesSys K).ReachableVia Proper σ)
    (hstage : σ.stage = .off) (hrun : kinit1 K σ.phys = (.ok ⟨⟩, s')) :
    (pagesSys K).ReachableVia Proper { σ with phys := s', stage := .kinit1 } := by
  have hnext : (pagesSys K).next σ .kinit1 = some { σ with phys := s', stage := .kinit1 } := by
    rw [show (pagesSys K).next = Pages.call K from rfl, Pages.call, hrun]
    rfl
  exact .step h (show Proper σ .kinit1 from hstage) hnext

theorem reachable_kinit2 (h : (pagesSys K).ReachableVia Proper σ)
    (hstage : σ.stage = .kinit1) (hrun : kinit2 K σ.phys = (.ok ⟨⟩, s')) :
    (pagesSys K).ReachableVia Proper { σ with phys := s', stage := .kinit2 } := by
  have hnext : (pagesSys K).next σ .kinit2 = some { σ with phys := s', stage := .kinit2 } := by
    rw [show (pagesSys K).next = Pages.call K from rfl, Pages.call, hrun]
    rfl
  exact .step h (show Proper σ .kinit2 from hstage) hnext

theorem exists_booted : ∃ σ, (pagesSys smallLink).ReachableVia Proper σ ∧ σ.phys.refuse = [] ∧
    Owned smallLink σ.phys ∅ ∧ NPDENTRIES < σ.phys.freelist.length := by
  have hinit : (pagesSys smallLink).init bootPages := ⟨rfl, rfl, rfl, rfl⟩
  obtain ⟨s₁, hrun₁, hsteps₁, hrefuse₁⟩ := kinit1_spec ((Conserved.init hinit).parts.own .boot)
  obtain ⟨s₂, hrun₂, hsteps₂, hrefuse₂⟩ := kinit2_spec (by decide) hsteps₁.own
  have hreach := reachable_kinit2 (reachable_kinit1 (.init hinit) rfl hrun₁) rfl hrun₂
  refine ⟨_, hreach, hrefuse₂.trans hrefuse₁, hsteps₂.own, ?_⟩
  -- all pages are on the list now
  have hsub : range' 1024 2048 ⊆ s₂.freelist := by
    intro f hf
    rw [mem_range'_1] at hf
    have havail : f ∈ Avail smallLink := by
      show 0x80115000 ≤ (f * 4096 + 2 ^ 31) % 2 ^ 32 ∧ f * 4096 < 0xE000000
      omega
    rcases ((hsteps₁.trans hsteps₂).total f).2 (.inl havail) with hf | hf
    · exact hf.elim
    · exact hf
  have hlen := (subperm_of_subset nodup_range' hsub).length_le
  rw [length_range'] at hlen
  exact lt_of_lt_of_le (by decide) hlen

theorem exists_directory : ∃ σ d, (pagesSys smallLink).ReachableVia Proper σ ∧ d ∈ σ.dirs := by
  obtain ⟨σ, hreach, hrefuse, hown, hlen⟩ := exists_booted
  obtain ⟨d, s', hrun, -⟩ := exists_setupkvm (n := 0) hown hrefuse hlen
  have hnext : σ.call smallLink .setupkvm = some { σ with phys := s', dirs := d :: σ.dirs } :=
    ends_eq_some.2 ⟨some d, s', hrun, rfl⟩
  exact ⟨_, d, .step hreach (show Proper σ .setupkvm from trivial) hnext, mem_cons_self⟩

theorem pages_conserved_directory : ∃ σ d s', (pagesSys smallLink).ReachableVia Proper σ ∧
    d ∈ σ.dirs ∧ freevm smallLink d σ.phys = (.ok ⟨⟩, s') ∧ d ∈ s'.freelist := by
  obtain ⟨σ, d, hreach, hd⟩ := exists_directory
  have hne := ((Conserved.of_reachable hreach).dir d hd).dir_ne
  obtain ⟨-, -, hfree⟩ := pages_conserved hreach
  obtain ⟨s', hrun, -, hmem⟩ := hfree d hd
  exact ⟨σ, d, s', hreach, hd, hrun, (hmem d).2 (.inr ⟨hne, .dir, rfl⟩)⟩

/-! ## Sizes above `KERNBASE` -/

theorem kernelEntry_avail (hf : f ∈ Avail K) :
    kernelEntry K (upages + f) = f * PGSIZE ||| PTE_W ||| PTE_P := by
  have hend := K.end_bounds
  have hdata := K.data_lt
  have hlink := K.link_lt
  have hpage := K.data_page
  obtain ⟨h₁, h₂⟩ := hf
  simp only [p2v, PGSIZE, PHYSTOP, KERNBASE, KERNLINK, EXTMEM] at hend hdata hlink hpage h₁ h₂
  have hdev : ¬ (⟨DEVSPACE, DEVSPACE, 0, PTE_W⟩ : Kmap).Covers (upages + f) := by
    simp only [Kmap.Covers, upages, DEVSPACE, PGSIZE, KERNBASE]
    omega
  have hmem : (⟨K.data, v2p K.data, PHYSTOP, PTE_W⟩ : Kmap).Covers (upages + f) := by
    simp only [Kmap.Covers, Kmap.size, v2p, upages, PHYSTOP, PGSIZE, KERNBASE]
    omega
  simp only [kernelEntry, kmap, foldl]
  rw [Kmap.map, if_neg hdev, Kmap.map, if_pos hmem]
  have haddr : v2p K.data + ((upages + f) * PGSIZE - K.data) = f * PGSIZE := by
    simp only [v2p, upages, PGSIZE, KERNBASE]
    omega
  rw [haddr]

theorem deallocuvm_kernel (h : Dir s d F (kernelEntry K)) (ho : Owned K s F) :
    ∃ r s', deallocuvm K d ((upages + d + 1) * PGSIZE) ((upages + d) * PGSIZE) s = (.ok r, s') ∧
      s'.freelist = d :: s.freelist := by
  have havail := ho.avail d (.inl h.mem_dir)
  have hlt : upages + d + 1 < 2 ^ 20 := by
    have := (mem_avail_iff.1 havail).2
    simp only [physPages, PHYSTOP, upages, PGSIZE, KERNBASE] at *
    omega
  set k := upages + d with hk
  have hentry : pte s d k = d * PGSIZE ||| PTE_W ||| PTE_P := by
    rw [h.kern k (Nat.le_add_right _ _), hk, kernelEntry_avail havail]
  have hpk : present (pte s d k) := by
    rw [hentry]
    exact present_entry _ _
  have haddr : pteAddr (pte s d k) = d := by rw [hentry, pteAddr_entry (by decide)]
  have hpage : k * PGSIZE / PGSIZE = k := Nat.mul_div_cancel k (by decide)
  have hround : pgroundup (k * PGSIZE) = k * PGSIZE := by
    simp only [pgroundup, PGSIZE]
    omega
  have hnext : (k * PGSIZE + PGSIZE) % 2 ^ 32 = (k + 1) * PGSIZE := by
    simp only [PGSIZE]
    omega
  have hone : k * PGSIZE < (k + 1) * PGSIZE :=
    Nat.mul_lt_mul_of_pos_right (Nat.lt_succ_self k) (by decide)
  have htab := Dir.table_of_pte hpk
  have hunmap : unmap K (pteAddr (pde s d (k / 1024)), k % 1024) s =
      (.ok ⟨⟩, (s.freed d).setPage (pteAddr (pde s d (k / 1024)))
        (setEntry ((s.freed d).mem (pteAddr (pde s d (k / 1024)))) (k % 1024) 0)) := by
    rw [unmap, load_bind, entry_eq_pte htab, if_pos hpk, haddr, if_neg h.dir_ne,
      bind_ok (kfree_eq ho h.mem_dir)]
    rfl
  obtain ⟨n, hn⟩ : ∃ n, fuel = n + 1 + 1 := ⟨2 ^ 20 - 2, rfl⟩
  have hloop : deallocFrom K d ((k + 1) * PGSIZE) fuel (k * PGSIZE) s =
      (.ok ⟨⟩, (s.freed d).setPage (pteAddr (pde s d (k / 1024)))
        (setEntry ((s.freed d).mem (pteAddr (pde s d (k / 1024)))) (k % 1024) 0)) := by
    rw [hn, deallocFrom, if_pos hone, bind_ok (walkpgdir_false hpage (by omega) s), if_pos htab]
    show (unmap K _ >>= fun _ => _) s = _
    rw [bind_ok hunmap, hnext, deallocFrom, if_neg (lt_irrefl _)]
    rfl
  rw [deallocuvm, if_neg (Nat.not_le_of_lt hone), hround, bind_ok hloop]
  exact ⟨_, _, rfl, rfl⟩

/-- After `kinit1` page 2048 is still in none of the places a page has later. -/
theorem exists_early : ∃ σ, (pagesSys smallLink).ReachableVia Proper σ ∧ σ.stage = .kinit1 ∧
    2048 ∈ Avail smallLink ∧ ∀ w, σ.At smallLink 2048 w → w = .early := by
  have hinit : (pagesSys smallLink).init bootPages := ⟨rfl, rfl, rfl, rfl⟩
  have havail : 2048 ∈ Avail smallLink := ⟨by decide, by decide⟩
  obtain ⟨s₁, hrun₁, -, -⟩ := kinit1_spec ((Conserved.init hinit).parts.own .boot)
  have hreach := reachable_kinit1 (.init hinit) rfl hrun₁
  refine ⟨_, hreach, rfl, havail, fun w hw => ?_⟩
  exact (Conserved.of_reachable hreach).at_unique (avail_ne_zero havail) hw ⟨havail, by decide⟩

/-- The directory is free, and still a directory.  Between `kinit1` and `kinit2` a page above 4 MB
is nowhere. -/
theorem dealloc_kernel_part :
    (∃ σ d σ' w w', (pagesSys smallLink).ReachableVia Proper σ ∧ d ∈ σ.dirs ∧
      (pagesSys smallLink).next σ
      (.deallocuvm d ((upages + d + 1) * PGSIZE) ((upages + d) * PGSIZE)) = some σ' ∧
      d ∈ Avail smallLink ∧ σ'.At smallLink d w ∧ σ'.At smallLink d w' ∧ w ≠ w') ∧
      ∃ σ, (pagesSys smallLink).ReachableVia Proper σ ∧ σ.stage = .kinit1 ∧ 2048 ∈ Avail smallLink ∧
      ∀ w, σ.At smallLink 2048 w → w = .early := by
  refine ⟨?_, exists_early⟩
  obtain ⟨σ, d, hreach, hd⟩ := exists_directory
  have hC := Conserved.of_reachable hreach
  have hown := hC.parts.own (.dir d)
  rw [share_dir hd] at hown
  obtain ⟨r, s', hrun, hfree⟩ := deallocuvm_kernel (hC.dir d hd) hown
  have hnext : σ.call smallLink
    (.deallocuvm d ((upages + d + 1) * PGSIZE) ((upages + d) * PGSIZE)) =
      some { σ with phys := s' } := by
    rw [Pages.call, if_pos hd, hrun]
    rfl
  refine ⟨σ, d, { σ with phys := s' }, .free 0, .owned d .dir, hreach, hd, hnext, ?_, ?_, ⟨hd, rfl⟩,
    Spot.noConfusion⟩
  · exact hown.avail d (.inl (hC.dir d hd).mem_dir)
  · show s'.freelist[0]? = some d
    rw [hfree]
    rfl

end Xv6.Vm
