import Xv6.Ilock.Syscalls

/-!
# Deadlocks of inode locks

In the order of the directory tree no deadlock can arise, but three calls do not keep it.
`link(old, "x/.")` and `link(old, "x/..")` find `x` or its parent with `x` locked, and `iput` locks
what is found.  `unlink` and `create` put the directory while they have the inode locked, and `iput`
locks the directory once more.
-/

namespace Xv6.Ilock

open LockProg Tally Function Machine.Sys State

variable {P T : Type}

/-! ## Where calls start -/

/-- Directory `j` has an entry for directory `i` that is not `.` or `..`. -/
def Fs.Child (s : Fs P) (j i : ℕ) : Prop :=
  (s.inode j).type = some .dir ∧ (s.inode i).type = some .dir ∧
    ∃ de ∈ (s.inode j).entries, de.inum = i ∧ i ≠ 0 ∧ namecmp dot de.name = false ∧
      namecmp dotdot de.name = false

/-- The kernel's tables agree with each other, and the directories form no cycle. -/
structure Fs.Tidy [Fintype P] (s : Fs P) : Prop where
  refs : ∀ x, (((∑ p, if s.cwd p = x then 1 else 0) + ∑ f, if (s.ftable f).ip = some x then 1 else
    0 : ℕ) : ℤ) ≤
    (s.icache x).ref
  files : ∀ f, ((∑ d : P × Fin NOFILE, if s.ofile d.1 d.2 = some f then 1 else 0 : ℕ) : ℤ) ≤
    (s.ftable f).ref
  free : ∀ f, (s.ftable f).ref = 0 → (s.ftable f).ip = none
  unique : ∀ x y, 0 < (s.icache x).ref → 0 < (s.icache y).ref →
    (s.icache x).inum = (s.icache y).inum → x = y
  valid : ∀ x, 0 < (s.icache x).ref → (s.icache x).valid → (s.dinode x).type ≠ none
  fresh : ∀ n, s.fresh n = false
  acyclic : ∀ i, ¬ Relation.TransGen s.Child i i

def World.boot (s : Fs P) : World P :=
  { s with gen := fun _ => 0, clock := 1, dots := fun _ => 2, owned := fun _ => true }

theorem Fs.Tidy.good [Fintype P] {s : Fs P} (h : s.Tidy) :
    (World.boot s).Good (Relation.TransGen s.Child) where
  ranked j hj de hde := by
    by_cases hdot : namecmp dot de.name
    · exact .inr (.inr (.inl ⟨hdot, by simp [World.boot]⟩))
    by_cases hdotdot : namecmp dotdot de.name
    · exact .inr (.inr (.inr ⟨hdotdot, le_rfl⟩))
    by_cases hzero : de.inum = 0
    · exact .inl hzero
    refine .inr (.inl ?_)
    by_cases hdir : (s.inode de.inum).type = some .dir
    · exact .inr (.inr ⟨rfl, rfl, .single ⟨hj, hdir, de, hde, rfl, hzero, by simpa using hdot,
        by simpa using hdotdot⟩⟩)
    · exact .inl hdir
  gen _ := one_pos
  unique := h.unique
  valid := h.valid

/-! ## Careful steps -/

def State.busy (s : State T P) (t : T) : Bool :=
  match s.threads.prog t with
  | .done => false
  | _ => true

/-- What a step must avoid.  A call is not a `link` to a name `.` or `..`, and a `chdir` or `close`
is the only call of its process.  A step in a call takes no lock that another thread has just
released to take it back, and puts no inode that another thread has allocated and not yet locked. -/
def careful [Fintype T] [DecidableEq T] [DecidableEq P] (proc : T → P) (s : State T P)
    (l : T × Label) : Bool :=
  match l.2 with
  | .call c => c.linkOk && decide (∀ u, proc u = proc l.1 → s.busy u →
      c.sole = false ∧ (s.call u).any Call.sole = false)
  | .go => decide (s.threads.Clear l.1)

/-! ## The invariant -/

variable [Fintype T] [Fintype P] [DecidableEq P] {R : ℕ → ℕ → Prop} {proc : T → P}
    {s s' : State T P}

/-- The threads keep the discipline, and one that is alone in its process makes a call for which it
must. -/
def Disciplined (R : ℕ → ℕ → Prop) (proc : T → P) (s : State T P) : Prop :=
  ∃ g e, (discipline R proc).Sound s.threads g e ∧
    ∀ t, (g t).mode = .sole → (s.call t).any Call.sole

theorem disciplined_boot {fs : Fs P} (h : fs.Tidy) :
    Disciplined (Relation.TransGen fs.Child) proc (.boot T fs) := by
  refine ⟨fun t => .start (proc t) .idle, .boot fs,
    ⟨rfl, ?_, fun t x => ?_, fun t => rfl, fun t x hx => ?_⟩, fun t ht => (nomatch ht)⟩
  · refine ⟨fun _ => rfl, h.good, fun x => ?_, fun t x hx => (nomatch hx), fun f => ?_, h.free,
      fun t ht => absurd rfl ht, fun t f hf => ?_, fun t n hn => (nomatch hn),
      fun t u _ _ ht => (nomatch ht),
      fun p hp => (nomatch hp)⟩
    · have := h.refs x
      simp only [refCount, World.boot, Tok.start, Finset.sum_const_zero, zero_add, true_and]
      exact this
    · have := h.files f
      simp only [fileCount, World.boot, Tok.start, Claim.Counts, reduceCtorEq, or_self, if_false,
        Finset.sum_const_zero, add_zero]
      exact this
    · simp [Tok.start, Claim.Builds] at hf
  · simp [boot, discipline, Tok.start]
  · simp [boot, Prog.takesBack] at hx

theorem busy_of_mode {g : T → Tok P} {e : World P} (h : (discipline R proc).Sound s.threads g e)
    {t : T} (ht : (g t).mode ≠ .idle) : s.busy t := by
  by_contra hbusy
  have hsafe := h.safe t
  cases hp : s.threads.prog t with
  | done =>
    rw [hp] at hsafe
    have : g t = .start (g t).p .idle := hsafe
    exact ht (by rw [this]; rfl)
  | stop | acquire _ _ _ _ | release _ _ | act _ _ => simp [busy, hp] at hbusy

variable [DecidableEq T]

theorem Disciplined.call [IsStrictOrder ℕ R] {t : T} {c : Call}
    (h : Disciplined R proc s) (hok : careful proc s (t, .call c))
    (hs : s.next proc t (.call c) = some s') : Disciplined R proc s' := by
  obtain ⟨g, e, hsound, hsole⟩ := h
  simp only [careful, Bool.and_eq_true, decide_eq_true_eq] at hok
  obtain ⟨hlink, halone⟩ := hok
  have hdone : s.threads.prog t = .done := by
    simp only [State.next] at hs
    split at hs
    · assumption
    · cases hs
  have hidle : g t = .start (proc t) .idle := by
    have hsafe := hsound.safe t
    rw [hdone] at hsafe
    rw [← hsound.joint.mine t]
    exact hsafe
  -- no other thread of the process is alone in it
  have hshared : ∀ u, proc u = proc t → (g u).mode ≠ .sole := fun u hu hm => by
    have := (halone u hu (busy_of_mode hsound (by simp [hm]))).2
    rw [hsole u hm] at this
    cases this
  have howned : e.owned (proc t) := by
    by_contra hno
    obtain ⟨u, hu, hm⟩ := hsound.joint.owned _ (by simpa using hno)
    exact hshared u hu hm
  have hjoint : Joint R proc (update g t { g t with mode := c.mode }) e := by
    refine hsound.joint.setMode t c.mode (by rw [hidle]; rfl)
      (fun u _ hu => ⟨fun hc => ?_, fun hm => ?_⟩)
      (.inl howned)
    · by_contra hm
      have hcall := (halone u hu (busy_of_mode hsound hm)).1
      simp [Call.mode, hcall] at hc
    · exact absurd hm (hshared u hu)
  have hstart : { g t with mode := c.mode } = Tok.start (proc t) c.mode := by rw [hidle]; rfl
  rw [hstart] at hjoint
  simp only [State.next, hdone, Option.some.injEq] at hs
  subst hs
  refine ⟨_, e, hsound.start hjoint (fun x => ?_) (c.runs hlink howned), fun u hu => ?_⟩
  · rw [hidle]
    rfl
  · by_cases hut : u = t
    · subst hut
      simp only [update_self, Option.any_some] at hu ⊢
      by_contra hc
      simp [Tok.start, Call.mode, hc] at hu
    · simp only [update_of_ne hut] at hu ⊢
      exact hsole u hu

theorem Disciplined.go [IsStrictOrder ℕ R] {t : T}
    (h : Disciplined R proc s) (hok : careful proc s (t, .go))
    (hs : s.next proc t .go = some s') : Disciplined R proc s' := by
  obtain ⟨g, e, hsound, hsole⟩ := h
  simp only [careful, decide_eq_true_eq] at hok
  simp only [State.next, Option.map_eq_some_iff] at hs
  obtain ⟨th, hstep, rfl⟩ := hs
  obtain ⟨g', e', hmoves, hsound'⟩ := hsound.step (discipline_lawful proc) hok hstep
  refine ⟨_, e', hsound', fun u hu => ?_⟩
  by_cases hut : u = t
  · subst hut
    rw [update_self] at hu
    refine hsole u ?_
    cases hmoves with
    | take _ => exact hu
    | give _ => exact hu
    | act hm =>
      rcases Move.mode hm with hidle | hsame
      · rw [hidle] at hu
        cases hu
      · exact hsame ▸ hu
  · rw [update_of_ne hut] at hu
    exact hsole u hu

/-- No thread waits for a lock it holds, and no threads wait for each other in a circle. -/
theorem no_inode_deadlock (proc : T → P) {s : State T P}
    (h : (ilockSys proc Fs.Tidy).ReachableVia (fun s l => careful proc s l) s) :
    ¬ Deadlock s.threads ∧ ∀ t, ¬ Waits s.threads t t := by
  obtain ⟨R, _, g, e, hsound, -⟩ : ∃ R, IsStrictOrder ℕ R ∧ Disciplined R proc s := by
    refine h.invariant (I := fun s => ∃ R, IsStrictOrder ℕ R ∧ Disciplined R proc s) ?_ ?_
    · rintro _ ⟨fs, hfs, rfl⟩
      exact ⟨_, { irrefl := hfs.acyclic, trans := fun _ _ _ => .trans }, disciplined_boot hfs⟩
    · rintro s ⟨t, c | _⟩ s' ⟨R, hR, hd⟩ hok hs
      · exact ⟨R, hR, hd.call hok hs⟩
      · exact ⟨R, hR, hd.go hok hs⟩
  have hno := hsound.not_deadlock (discipline_lawful proc)
  exact ⟨hno, fun t ht => hno ⟨t, .single ht⟩⟩

/-! ## Small runs -/

def rootIp : Ip := ⟨0, NINODE_pos⟩

/-- A file system with one file `f`, and one process in the root directory. -/
def smallFs : Fs Unit where
  ninodes := 4
  inode n :=
    if n = 1 then ⟨some .dir, 1, [⟨1, dot⟩, ⟨1, dotdot⟩, ⟨2, [102]⟩]⟩
    else if n = 2 then ⟨some .file, 1, []⟩
    else ⟨none, 0, []⟩
  icache x := if x = rootIp then ⟨1, 1, true⟩ else ⟨0, 0, false⟩
  ftable _ := ⟨0, none⟩
  ofile _ _ := none
  cwd _ := rootIp
  fresh _ := false

theorem smallFs_dir {n : ℕ} (h : (smallFs.inode n).type = some .dir) : n = 1 := by
  by_contra hn
  by_cases h2 : n = 2 <;> simp [smallFs, hn, h2] at h

theorem smallFs_tidy : smallFs.Tidy where
  refs x := by by_cases hx : x = rootIp <;> simp [smallFs, hx, eq_comm]
  files f := by simp [smallFs]
  free f _ := rfl
  unique x y hx hy _ := by
    have h : ∀ z, 0 < (smallFs.icache z).ref → z = rootIp := fun z hz => by
      by_contra hne
      simp [smallFs, hne] at hz
    rw [h x hx, h y hy]
  valid x hx _ := by
    by_cases h : x = rootIp
    · simp [Fs.dinode, smallFs, h]
    · simp [smallFs, h] at hx
  fresh _ := rfl
  acyclic i hi := by
    -- the only directory is the root, and its only entry besides the dots is a file
    obtain ⟨j, ⟨hi, hj, de, hde, hinum, -, hdot, hdotdot⟩, -⟩ := Relation.TransGen.head'_iff.1 hi
    obtain rfl := smallFs_dir hi
    obtain rfl := smallFs_dir hj
    have : ∀ de ∈ (smallFs.inode 1).entries, de.inum = 1 →
        namecmp dot de.name ∨ namecmp dotdot de.name := by decide
    rcases this de hde hinum with h | h
    · simp [hdot] at h
    · simp [hdotdot] at h

/-- The calls of two threads of the process. -/
abbrev smallSys : Machine.Sys (State (Fin 2) Unit) (Fin 2 × Label) := ilockSys (fun _ => ()) Fs.Tidy

theorem smallSys_init : smallSys.init (.boot (Fin 2) smallFs) := ⟨_, smallFs_tidy, rfl⟩

def goes (t : Fin 2) (n : ℕ) : List (Fin 2 × Label) := List.replicate n (t, .go)

/-- Thread `t` asks for lock `x`, which `u` holds. -/
def blocked (s : State (Fin 2) Unit) (t u : Fin 2) : Bool :=
  (s.threads.prog t).wants.any fun x => s.threads.lock x = some u

theorem waits_of_blocked {s : State (Fin 2) Unit} {t u : Fin 2} (h : blocked s t u) :
    Waits s.threads t u := by
  obtain ⟨x, hx, hu⟩ := (Option.any_eq_true _ _).1 h
  exact ⟨x, hx, by simpa using hu⟩

theorem no_inode_deadlock_exec :
    ∃ s, smallSys.ReachableVia (fun s l => careful (fun _ => ()) s l) s ∧ Waits s.threads 1 0 ∧
      ¬ Deadlock s.threads ∧ ∀ t, ¬ Waits s.threads t t := by
  obtain ⟨s, hreach, hwaits⟩ : ∃ s, smallSys.ReachableVia (fun s l => careful (fun _ => ()) s l) s ∧
      blocked s 1 0 :=
    exists_reachableVia ((0, .call (.exec [slash, 102])) :: goes 0 3 ++
      (1, .call (.exec [slash, 102])) :: goes 1 2) smallSys_init (by decide +kernel)
  exact ⟨s, hreach, waits_of_blocked hwaits, no_inode_deadlock _ hreach⟩

/-- `link("/f", "/.")` waits for itself: `dirlink` finds the root directory, and puts it with its
lock held.  `open("/a", O_CREATE)` and `unlink("/a")` wait for each other: the first has the new
file locked when it puts the directory, and the second has locked the directory in between and asks
for the file. -/
theorem inode_deadlock : (∃ s, smallSys.Reachable s ∧ Waits s.threads 0 0) ∧
    ∃ s, smallSys.Reachable s ∧ Waits s.threads 0 1 ∧ Waits s.threads 1 0 := by
  constructor
  · obtain ⟨s, hreach, hwaits⟩ : ∃ s, smallSys.Reachable s ∧ blocked s 0 0 :=
      exists_reachable ((0, .call (.link [slash, 102] [slash, 46])) :: goes 0 33) smallSys_init
        (by decide +kernel)
    exact ⟨s, hreach, waits_of_blocked hwaits⟩
  · obtain ⟨s, hreach, h₀, h₁⟩ : ∃ s, smallSys.Reachable s ∧ blocked s 0 1 ∧ blocked s 1 0 :=
      exists_reachable ((0, .call (.open [slash, 97] O_CREATE)) :: goes 0 26 ++
        (1, .call (.unlink [slash, 97])) :: goes 1 13) smallSys_init (by decide +kernel)
    exact ⟨s, hreach, waits_of_blocked h₀, waits_of_blocked h₁⟩

end Xv6.Ilock
