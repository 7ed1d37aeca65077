import Xv6.Param
import Xv6.Lib.Machine
import Xv6.Lib.Tally

/-!
# File descriptors of a process with several threads

`sys_open`, `sys_dup`, `sys_pipe`, `sys_close`, `sys_read` and `sys_write` of `sysfile.c`, as far as
they use the descriptor table of the process and the file table of `file.c`, called by any number of
threads of one process.  A step is a read or a write of an entry of `ofile`, a stretch with
`ftable.lock`, or a group of assignments to a `struct file`.

Two ghost fields record which descriptors are allocated, and whether one has been allocated twice.
-/

namespace Xv6.Descriptors

open Tally Function List Machine.Sys Option Finset

attribute [local simp] count_singleton count_cons

inductive FdType where
  | FD_NONE
  | FD_PIPE
  | FD_INODE
  deriving DecidableEq

/-- `struct file`; what the file refers to is left out. -/
structure File where
  ref : ℤ
  type : FdType
  readable : Bool
  writable : Bool
  deriving DecidableEq

abbrev Fd := Fin NOFILE

/-- A `struct file *`. -/
abbrev Fp := Fin NFILE

/-- The call that `fdalloc` is made for. -/
inductive For where
  | sysOpen (readable writable : Bool)
  | sysDup
  /-- The first of two calls by `sys_pipe`, with the file for writing. -/
  | pipeRead (wf : Fp)
  /-- The second one, with the first result. -/
  | pipeWrite (fd0 : Fd) (rf : Fp)
  deriving DecidableEq

/-- Where a thread stands: what it does next. -/
inductive Pc where
  | user
  -- `fdalloc`: the look at an entry, and the store
  | scan (k : For) (f : Fp) (fd : ℕ)
  | store (k : For) (f : Fp) (fd : Fd)
  -- `sys_open`: `filealloc`; `fileclose` without a descriptor; the assignments at the end
  | oAlloc (readable writable : Bool)
  | oFail (f : Fp)
  | oType (f : Fp) (readable writable : Bool)
  | oMode (f : Fp) (readable writable : Bool)
  -- `sys_dup`: `argfd`; `filedup`
  | dFetch (fd : Fd)
  | dDup (f : Fp)
  -- `sys_pipe`: `filealloc` twice; the types of the files; the way back without a descriptor
  | pAlloc
  | pAlloc1 (rf : Fp)
  | pType (rf wf : Fp)
  | pUndo (fd0 : Fd) (rf wf : Fp)
  | pClose (rf wf : Fp)
  | pLast (f : Fp)
  -- `sys_close`: `argfd`; `ofile[fd] = 0`; `fileclose`
  | cFetch (fd : Fd)
  | cClear (fd : Fd) (f : Fp)
  | cClose (f : Fp)
  -- `sys_read` or `sys_write`: `argfd`; the tests of `fileread` or `filewrite`
  | uFetch (fd : Fd) (write : Bool)
  | uUse (f : Fp) (write : Bool)
  | panic
  deriving DecidableEq

/-- The tables that the threads share. -/
structure Tables where
  ofile : Fd → Option Fp
  file : Fp → File
  /-- The descriptor has been allocated, and not closed since. -/
  live : Fd → Bool
  /-- A descriptor has been allocated twice. -/
  clash : Bool

structure State (T : Type) where
  tab : Tables
  pc : T → Pc

/-- Calls of a thread, and its next step; `b` says whether `kalloc` finds a page. -/
inductive Act (T : Type) where
  | sysOpen (t : T) (readable writable : Bool)
  | sysDup (t : T) (fd : Fd)
  | sysPipe (t : T)
  | sysClose (t : T) (fd : Fd)
  | sysRead (t : T) (fd : Fd)
  | sysWrite (t : T) (fd : Fd)
  | go (t : T) (b : Bool)

namespace Tables

variable (x : Tables) (f : Fp)

def setFile (y : File) : Tables := { x with file := update x.file f y }

/-- `ofile[fd] = f` by `fdalloc`: the descriptor is allocated. -/
def publish (fd : Fd) (f : Fp) : Tables :=
  { x with
    ofile := update x.ofile fd (some f)
    live := update x.live fd true
    clash := x.clash || x.live fd }

def clear (fd : Fd) : Tables :=
  { x with ofile := update x.ofile fd none, live := update x.live fd false }

/-- The file that `filealloc` returns: the first one without references. -/
def unused : Option Fp := (finRange NFILE).find? fun f => (x.file f).ref == 0

def filealloc : Tables := x.setFile f { x.file f with ref := 1 }

/-- `filedup`, if it does not panic. -/
def filedup : Option Tables :=
  if (x.file f).ref < 1 then none else
    some (x.setFile f { x.file f with ref := (x.file f).ref + 1 })

/-- The stretch of `fileclose` with the lock, if it does not panic. -/
def fileclose : Option Tables :=
  if (x.file f).ref < 1 then none
  else if 0 < (x.file f).ref - 1 then
    some (x.setFile f { x.file f with ref := (x.file f).ref - 1 })
  else some (x.setFile f { x.file f with ref := 0, type := .FD_NONE })

def count : ℕ := tally (fun y => y == some f) x.ofile

end Tables

def For.noFd : For → Fp → Pc
  | .sysOpen .., f => .oFail f
  | .sysDup, _ => .user
  | .pipeRead wf, rf => .pClose rf wf
  | .pipeWrite fd0 rf, wf => .pUndo fd0 rf wf

@[simp] def For.stored : For → Fp → Fd → Pc
  | .sysOpen r w, f, _ => .oType f r w
  | .sysDup, f, _ => .dDup f
  | .pipeRead wf, rf, fd => .scan (.pipeWrite fd rf) wf 0
  | .pipeWrite .., _, _ => .user

/-- What a thread that stands at `pc` does to the tables, and where it stands then. -/
def Tables.go (x : Tables) (b : Bool) : Pc → Option (Tables × Pc)
  | .user | .panic => none
  | .scan k f fd =>
    if h : fd < NOFILE then
      some (x, if x.ofile ⟨fd, h⟩ = none then .store k f ⟨fd, h⟩ else .scan k f (fd + 1))
    else some (x, k.noFd f)
  | .store k f fd => some (x.publish fd f, k.stored f fd)
  | .oAlloc r w =>
    match x.unused with
    | some f => some (x.filealloc f, .scan (.sysOpen r w) f 0)
    | none => some (x, .user)
  | .oFail f => some (orPanic x (x.fileclose f) .user)
  | .oType f r w => some (x.setFile f { x.file f with type := .FD_INODE }, .oMode f r w)
  | .oMode f r w => some (x.setFile f { x.file f with readable := r, writable := w }, .user)
  | .dFetch fd =>
    match x.ofile fd with
    | some f => some (x, .scan .sysDup f 0)
    | none => some (x, .user)
  | .dDup f => some (orPanic x (x.filedup f) .user)
  | .pAlloc =>
    match x.unused with
    | some rf => some (x.filealloc rf, .pAlloc1 rf)
    | none => some (x, .user)
  | .pAlloc1 rf =>
    match x.unused with
    | some wf => some (x.filealloc wf, if b then .pType rf wf else .pClose rf wf)
    | none => some (x, .pLast rf)
  | .pType rf wf =>
    some ((x.setFile rf { x.file rf with type := .FD_PIPE, readable := true, writable :=
      false }).setFile wf
      { x.file wf with type := .FD_PIPE, readable := false, writable := true },
        .scan (.pipeRead wf) rf 0)
  | .pUndo fd0 rf wf => some (x.clear fd0, .pClose rf wf)
  | .pClose rf wf => some (orPanic x (x.fileclose rf) (.pLast wf))
  | .pLast f => some (orPanic x (x.fileclose f) .user)
  | .cFetch fd =>
    match x.ofile fd with
    | some f => some (x, .cClear fd f)
    | none => some (x, .user)
  | .cClear fd f => some (x.clear fd, .cClose f)
  | .cClose f => some (orPanic x (x.fileclose f) .user)
  | .uFetch fd w =>
    match x.ofile fd with
    | some f => some (x, .uUse f w)
    | none => some (x, .user)
  | .uUse f w =>
    let ok := if w then (x.file f).writable else (x.file f).readable
    some (x, if ok ∧ (x.file f).type = .FD_NONE then .panic else .user)
where
  /-- Go on at `pc`, unless the function panics. -/
  orPanic (x : Tables) (r : Option Tables) (pc : Pc) : Tables × Pc :=
    match r with
    | some y => (y, pc)
    | none => (x, .panic)

namespace State

variable {T : Type} [DecidableEq T]

def call (s : State T) (t : T) (pc : Pc) : Option (State T) :=
  if s.pc t = .user then some { s with pc := update s.pc t pc } else none

def next (s : State T) : Act T → Option (State T)
  | .sysOpen t r w => s.call t (.oAlloc r w)
  | .sysDup t fd => s.call t (.dFetch fd)
  | .sysPipe t => s.call t .pAlloc
  | .sysClose t fd => s.call t (.cFetch fd)
  | .sysRead t fd => s.call t (.uFetch fd false)
  | .sysWrite t fd => s.call t (.uFetch fd true)
  | .go t b => (s.tab.go b (s.pc t)).map fun r => ⟨r.1, update s.pc t r.2⟩

/-- No thread is in a call; every file in the table has a type, and references for its
descriptors. -/
structure Tidy (s : State T) : Prop where
  pc : ∀ t, s.pc t = .user
  refs : ∀ f, (s.tab.count f : ℤ) ≤ (s.tab.file f).ref
  typed : ∀ fd f, s.tab.ofile fd = some f → (s.tab.file f).type ≠ .FD_NONE
  live : ∀ fd, s.tab.live fd = (s.tab.ofile fd).isSome
  clash : s.tab.clash = false

end State

def sys (T : Type) [DecidableEq T] : Machine.Sys (State T) (Act T) where
  init := State.Tidy
  next := State.next

/-! ## Calls that keep apart -/

/-- The entry that `fdalloc` looks at. -/
def Pc.looks : Pc → Option Fd
  | .scan _ _ fd => if h : fd < NOFILE then some ⟨fd, h⟩ else none
  | _ => none

/-- The entry that `fdalloc` has found free. -/
def Pc.stores : Pc → Option Fd
  | .store _ _ fd => some fd
  | _ => none

/-- The descriptor that `close` looks up. -/
def Pc.closes : Pc → Option Fd
  | .cFetch fd => some fd
  | _ => none

/-- The descriptor that the call clears, at least if it fails, and its file. -/
def Pc.clears : Pc → Option (Fd × Fp)
  | .cClear fd f | .pUndo fd f _ | .scan (.pipeWrite fd f) _ _ | .store (.pipeWrite fd f) _ _ =>
    some (fd, f)
  | _ => none

/-- The file that `open` has published without a type. -/
def Pc.untyped : Pc → Option Fp
  | .oType f _ _ => some f
  | _ => none

/-- The file that the call has looked up and has no reference to. -/
def Pc.borrows : Pc → Option Fp
  | .scan .sysDup f _ | .store .sysDup f _ | .dDup f | .uUse f _ => some f
  | _ => none

/-- The file that `fileclose` is called with. -/
def Pc.drops : Pc → Option Fp
  | .oFail f | .pClose f _ | .pLast f | .cClose f => some f
  | _ => none

/-- The file that the next step of a thread hands out by `argfd`. -/
def State.argfd {T : Type} (s : State T) (t : T) : Option Fp :=
  match s.pc t with
  | .dFetch fd | .cFetch fd | .uFetch fd _ => s.tab.ofile fd
  | _ => none

/-- No look at an entry that another call is about to fill, no look-up of a file that `open` has not
given a type, no `close` of a descriptor that another call is about to clear, and no last
`fileclose` of a file that another call has looked up and not counted. -/
def Careful {T : Type} (s : State T) : Act T → Prop
  | .go t _ => ∀ u, (∀ fd ∈ (s.pc t).looks, fd ∉ (s.pc u).stores) ∧
      (∀ f ∈ s.argfd t, f ∉ (s.pc u).untyped) ∧
      (∀ fd ∈ (s.pc t).closes, ∀ c ∈ (s.pc u).clears, c.1 ≠ fd) ∧
      ∀ f ∈ (s.pc t).drops, (s.tab.file f).ref = 1 → f ∉ (s.pc u).borrows
  | _ => True

instance {T : Type} [Fintype T] (s : State T) : DecidablePred (Careful s)
  | .go t _ => inferInstanceAs (Decidable (∀ u, (∀ fd ∈ (s.pc t).looks, fd ∉ (s.pc u).stores) ∧
      (∀ f ∈ s.argfd t, f ∉ (s.pc u).untyped) ∧
        (∀ fd ∈ (s.pc t).closes, ∀ c ∈ (s.pc u).clears, c.1 ≠ fd) ∧
      ∀ f ∈ (s.pc t).drops, (s.tab.file f).ref = 1 → f ∉ (s.pc u).borrows))
  | .sysOpen .. | .sysDup .. | .sysPipe .. | .sysClose .. | .sysRead .. | .sysWrite .. =>
    isTrue trivial

/-! ## The tables -/

/-- The references of a call that are not in the table. -/
def Pc.held : Pc → List Fp
  | .scan (.sysOpen ..) f _ | .store (.sysOpen ..) f _ => [f]
  | .scan (.pipeRead wf) rf _ | .store (.pipeRead wf) rf _ => [rf, wf]
  | .scan (.pipeWrite ..) wf _ | .store (.pipeWrite ..) wf _ => [wf]
  | .oFail f | .pAlloc1 f | .pLast f | .cClose f | .pUndo _ _ f => [f]
  | .pType rf wf | .pClose rf wf => [rf, wf]
  | _ => []

/-- `dup` has stored a file that it has not counted yet. -/
@[simp] def Pc.debt : Pc → Fp → ℕ
  | .dDup f, g => if f = g then 1 else 0
  | _, _ => 0

/-- The files that `pipe` is about to publish. -/
def Pc.piped : Pc → List Fp
  | .scan (.pipeRead wf) rf _ | .store (.pipeRead wf) rf _ => [rf, wf]
  | .scan (.pipeWrite ..) wf _ | .store (.pipeWrite ..) wf _ => [wf]
  | _ => []

def Tables.Usable (x : Tables) (f : Fp) : Prop := (x.file f).type ≠ .FD_NONE ∧ 1 ≤ (x.file f).ref

/-- What a call knows about the tables. -/
structure Pc.Knows (pc : Pc) (x : Tables) : Prop where
  calm : pc ≠ .panic
  borrows : ∀ f ∈ pc.borrows, x.Usable f
  piped : ∀ f ∈ pc.piped, (x.file f).type ≠ .FD_NONE
  stores : ∀ fd ∈ pc.stores, x.ofile fd = none
  clears : ∀ c ∈ pc.clears, x.ofile c.1 = some c.2

section Tables

variable {x : Tables} {f g : Fp} {fd : Fd} {pc : Pc}

theorem Tables.count_publish (h : x.ofile fd = none) :
    (x.publish fd f).count g = x.count g + if f = g then 1 else 0 := by
  have htally := tally_update (fun y => y == some g) x.ofile fd (some f)
  simp only [h, Tables.count, Tables.publish] at htally ⊢
  by_cases hfg : f = g <;> simp_all

theorem Tables.count_clear (h : x.ofile fd = some f) :
    (x.clear fd).count g + (if f = g then 1 else 0) = x.count g := by
  have htally := tally_update (fun y => y == some g) x.ofile fd none
  simp only [h, Tables.count, Tables.clear] at htally ⊢
  by_cases hfg : f = g
  · simp_all
  · have hne : (f == g) = false := by simpa using hfg
    simp_all

theorem Tables.one_le_count (h : x.ofile fd = some f) : 1 ≤ x.count f :=
  tally_pos (p := fun y => y == some f) (t := fd) (by simp [h])

theorem Tables.ref_unused (h : x.unused = some f) : (x.file f).ref = 0 := by
  have hfound := find?_some h
  simpa using hfound

@[simp] theorem Tables.count_setFile (y : File) : (x.setFile f y).count g = x.count g := rfl

@[simp] theorem Tables.file_setFile_self (y : File) : (x.setFile f y).file f = y := update_self ..

theorem Tables.file_setFile (y : File) (g : Fp) :
    (x.setFile f y).file g = if g = f then y else x.file g := update_apply ..

theorem Pc.debt_eq (h : f ∉ pc.borrows) : pc.debt f = 0 := by
  cases pc with
  | dDup g => exact if_neg fun hg => h (mem_some_iff.2 hg)
  | _ => rfl

/-! What another call knows is kept. -/

theorem Pc.Knows.setFile (h : pc.Knows x) {z : File}
    (hborrow : f ∈ pc.borrows → z.type ≠ .FD_NONE ∧ 1 ≤ z.ref)
    (hpiped : f ∈ pc.piped → z.type ≠ .FD_NONE) : pc.Knows (x.setFile f z) where
  calm := h.calm
  borrows g hg := by
    rw [Tables.Usable, Tables.file_setFile]
    split_ifs with hgf
    · exact hborrow (hgf ▸ hg)
    · exact h.borrows g hg
  piped g hg := by
    rw [Tables.file_setFile]
    split_ifs with hgf
    · exact hpiped (hgf ▸ hg)
    · exact h.piped g hg
  stores := h.stores
  clears := h.clears

theorem Pc.Knows.publish (h : pc.Knows x) (hfree : x.ofile fd = none) (hstore : fd ∉ pc.stores) :
    pc.Knows (x.publish fd f) where
  calm := h.calm
  borrows := h.borrows
  piped := h.piped
  stores fd' hfd' := by
    have hne : fd' ≠ fd := fun heq => hstore (heq ▸ hfd')
    exact (update_of_ne hne ..).trans (h.stores fd' hfd')
  clears c hc := by
    have hused := h.clears c hc
    refine (update_of_ne (fun heq => ?_) ..).trans hused
    rw [heq, hfree] at hused
    cases hused

theorem Pc.Knows.clear (h : pc.Knows x) (hclear : ∀ c ∈ pc.clears, c.1 ≠ fd) :
    pc.Knows (x.clear fd) where
  calm := h.calm
  borrows := h.borrows
  piped := h.piped
  stores fd' hfd' := by
    show update x.ofile fd none fd' = none
    rw [update_apply, h.stores fd' hfd', ite_self]
  clears c hc := (update_of_ne (hclear c hc) ..).trans (h.clears c hc)

end Tables

/-! ## One step -/

/-- The tables fit together, and to the calls in progress. -/
structure Inv {T : Type} (s : State T) : Prop where
  refs : ∃ I : Finset T, (∀ t ∉ I, s.pc t = .user) ∧
    ∀ f, (s.tab.count f : ℤ) + (∑ t ∈ I, (s.pc t).held.count f : ℕ) ≤
      (s.tab.file f).ref + (∑ t ∈ I, (s.pc t).debt f : ℕ)
  typed : ∀ fd f, s.tab.ofile fd = some f → (s.tab.file f).type ≠ .FD_NONE ∨
    ∃ t, f ∈ (s.pc t).untyped
  live : ∀ fd, s.tab.live fd = (s.tab.ofile fd).isSome
  clash : s.tab.clash = false
  knows : ∀ t, (s.pc t).Knows s.tab
  stores : ∀ t u, ∀ fd ∈ (s.pc t).stores, fd ∈ (s.pc u).stores → t = u
  clears : ∀ t u, ∀ c ∈ (s.pc t).clears, ∀ c' ∈ (s.pc u).clears, c.1 = c'.1 → t = u

section Step

variable {T : Type} {s s' : State T} {t : T} {y : Tables} {q : Pc} {f : Fp} {fd : Fd} {b : Bool}

theorem inv_init (h : s.Tidy) : Inv s where
  refs := ⟨∅, fun t _ => h.pc t, by simpa using h.refs⟩
  typed fd f hfd := .inl (h.typed fd f hfd)
  live := h.live
  clash := h.clash
  knows t := by
    rw [h.pc t]
    exact ⟨nofun, nofun, nofun, nofun, nofun⟩
  stores t u fd hfd := by simp [h.pc t, Pc.stores] at hfd
  clears t u fd hfd := by simp [h.pc t, Pc.clears] at hfd

/-- Of a file that no call has looked up, every reference is counted. -/
theorem Inv.refs_le (h : Inv s) (hf : ∀ u, f ∉ (s.pc u).borrows) (A : Finset T) :
    s.tab.count f + ((∑ u ∈ A, (s.pc u).held.count f : ℕ) : ℤ) ≤ (s.tab.file f).ref := by
  classical
  obtain ⟨I, hI, hrefs⟩ := h.refs
  have hdebt : ∑ u ∈ I, (s.pc u).debt f = 0 := sum_eq_zero fun u _ => Pc.debt_eq (hf u)
  have hheld : ∑ u ∈ I, (s.pc u).held.count f = ∑ u ∈ I ∪ A, (s.pc u).held.count f :=
    sum_subset subset_union_left fun u _ hu => by rw [hI u hu]; rfl
  have hle : ∑ u ∈ A, (s.pc u).held.count f ≤ ∑ u ∈ I ∪ A, (s.pc u).held.count f :=
    sum_le_sum_of_subset subset_union_right
  have hall := hrefs f
  omega

theorem Inv.one_le_ref (h : Inv s) (t : T) (hf : 1 ≤ s.tab.count f ∨ f ∈ (s.pc t).held) :
    1 ≤ (s.tab.file f).ref := by
  by_cases hb : ∃ u, f ∈ (s.pc u).borrows
  · obtain ⟨u, hu⟩ := hb
    exact ((h.knows u).borrows f hu).2
  · have hle := h.refs_le (not_exists.1 hb) {t}
    rw [Finset.sum_singleton] at hle
    have hone : 1 ≤ s.tab.count f ∨ 1 ≤ (s.pc t).held.count f := hf.imp_right count_pos_iff.2
    omega

theorem Inv.usable (h : Inv s) (t : T) (hfd : s.tab.ofile fd = some f)
    (hf : ∀ u, f ∉ (s.pc u).untyped) : s.tab.Usable f :=
  ⟨(h.typed fd f hfd).resolve_right (not_exists.2 hf),
    h.one_le_ref t (.inl (Tables.one_le_count hfd))⟩

theorem Inv.typed_others (h : Inv s) (ht : (s.pc t).untyped = none)
    (hfd : s.tab.ofile fd = some f) : (s.tab.file f).type ≠ .FD_NONE ∨ ∃ u, u ≠ t ∧
    f ∈ (s.pc u).untyped :=
  (h.typed fd f hfd).imp_right fun ⟨u, hu⟩ => ⟨u, fun heq => (by rw [heq, ht] at hu; cases hu), hu⟩

variable [DecidableEq T]

/-- A sum over the threads in calls changes by what the thread changes that takes the step. -/
theorem sum_update {I : Finset T} {pc : T → Pc} (hI : ∀ u ∉ I, pc u = .user) {g : Pc → ℕ}
    (hg : g .user = 0) (t : T) (q : Pc) :
    ∑ u ∈ insert t I, g (update pc t q u) + g (pc t) = ∑ u ∈ I, g (pc u) + g q := by
  have hold : ∑ u ∈ I, g (pc u) = ∑ u ∈ insert t I, g (pc u) :=
    sum_subset (subset_insert t I) fun u _ hu => by rw [hI u hu, hg]
  have hrest : ∑ u ∈ (insert t I).erase t, g (update pc t q u) = ∑ u ∈ (insert t I).erase t,
    g (pc u) :=
    sum_congr rfl fun u hu => by rw [update_of_ne (ne_of_mem_erase hu)]
  have hmem := mem_insert_self t I
  rw [hold, ← add_sum_erase _ _ hmem, ← add_sum_erase _ (fun u => g (pc u)) hmem, hrest,
    update_self]
  omega

/-- A thread changes the tables, and goes on at `q`. -/
theorem Inv.step (h : Inv s)
    (hrefs : ∀ f, (y.count f : ℤ) + q.held.count f + (s.pc t).debt f + (s.tab.file f).ref ≤
      s.tab.count f + (s.pc t).held.count f + q.debt f + (y.file f).ref)
    (htyped : ∀ fd f, y.ofile fd = some f → (y.file f).type ≠ .FD_NONE ∨ f ∈ q.untyped ∨
      ∃ u, u ≠ t ∧ f ∈ (s.pc u).untyped)
    (hlive : ∀ fd, y.live fd = (y.ofile fd).isSome) (hclash : y.clash = false) (hknows : q.Knows y)
    (hothers : ∀ u, u ≠ t → (s.pc u).Knows y)
    (hstores : ∀ fd ∈ q.stores, ∀ u, u ≠ t → fd ∉ (s.pc u).stores)
    (hclears : ∀ c ∈ q.clears, ∀ u, u ≠ t → ∀ c' ∈ (s.pc u).clears, c'.1 ≠ c.1) :
    Inv ⟨y, update s.pc t q⟩ where
  refs := by
    obtain ⟨I, hI, hle⟩ := h.refs
    refine ⟨insert t I, fun u hu => ?_, fun f => ?_⟩
    · rw [mem_insert, not_or] at hu
      exact (update_of_ne hu.1 ..).trans (hI u hu.2)
    · have hheld := sum_update hI (g := fun pc => pc.held.count f) rfl t q
      have hdebt := sum_update hI (g := fun pc => pc.debt f) rfl t q
      have hold := hle f
      have hnew := hrefs f
      dsimp only at hheld hdebt ⊢
      omega
  typed fd f hfd := by
    rcases htyped fd f hfd with hf | hf | ⟨u, hu, hf⟩
    · exact .inl hf
    · exact .inr ⟨t, by simpa using hf⟩
    · exact .inr ⟨u, by simpa [hu] using hf⟩
  live := hlive
  clash := hclash
  knows u := by
    rcases eq_or_ne u t with rfl | hu
    · simpa using hknows
    · simpa [hu] using hothers u hu
  stores u v fd hu hv := by
    have := h.stores u v fd
    grind
  clears u v c hu c' hv := by
    have := h.clears u v c
    grind

variable {m : Pc}

theorem Inv.move (h : Inv s) (hpc : s.pc t = m)
    (hrefs : ∀ f, q.held.count f + m.debt f ≤ m.held.count f + q.debt f) (hm : m.untyped = none)
    (hknows : q.Knows s.tab) (hstores : ∀ fd ∈ q.stores, ∀ u, u ≠ t → fd ∉ (s.pc u).stores)
    (hclears : ∀ c ∈ q.clears, ∀ u, u ≠ t → ∀ c' ∈ (s.pc u).clears, c'.1 ≠ c.1) :
    Inv ⟨s.tab, update s.pc t q⟩ := by
  subst hpc
  refine h.step (fun f => ?_) (fun fd f hfd => (h.typed_others hm hfd).imp_right .inr) h.live
    h.clash hknows
    (fun u _ => h.knows u) hstores hclears
  have := hrefs f
  omega

/-- The entry of a file changes, with the references that the call holds or owes. -/
theorem Inv.setFile (h : Inv s) (hpc : s.pc t = m) {z : File}
    (hrefs : ∀ g, (q.held.count g : ℤ) + m.debt g + (if f = g then (s.tab.file f).ref - z.ref else
    0) ≤ m.held.count g + q.debt g)
    (htype : ∀ fd, s.tab.ofile fd = some f → z.type ≠ .FD_NONE ∨ ∃ u, u ≠ t ∧ f ∈ (s.pc u).untyped)
    (hm : ∀ g ∈ m.untyped, g = f) (hknows : q.Knows (s.tab.setFile f z))
    (hborrow : ∀ u, u ≠ t → f ∈ (s.pc u).borrows → z.type ≠ .FD_NONE ∧ 1 ≤ z.ref)
    (hpiped : ∀ u, u ≠ t → f ∈ (s.pc u).piped → z.type ≠ .FD_NONE) (hstores : q.stores = none)
    (hclears : q.clears = none) : Inv ⟨s.tab.setFile f z, update s.pc t q⟩ := by
  subst hpc
  refine h.step (fun g => ?_) (fun fd g hfd => ?_) h.live h.clash hknows
    (fun u hu => (h.knows u).setFile (hborrow u hu) (hpiped u hu)) (by simp [hstores])
    (by simp [hclears])
  · have := hrefs g
    rw [Tables.count_setFile, Tables.file_setFile]
    by_cases hgf : g = f
    · subst hgf
      simp only [if_true] at this ⊢
      omega
    · simp only [if_neg hgf, if_neg (Ne.symm hgf)] at this ⊢
      omega
  · rw [Tables.file_setFile]
    split_ifs with hgf
    · subst hgf
      exact (htype fd hfd).imp_right .inr
    · refine (h.typed fd g hfd).imp_right fun ⟨u, hu⟩ => .inr ⟨u, fun heq => hgf (hm g (heq ▸ hu)),
        hu⟩

theorem Inv.filealloc (h : Inv s) (hpc : s.pc t = m) (hf : s.tab.unused = some f)
    (hm : m.untyped = none) (hdebt : ∀ g, m.debt g = 0) (hdebt' : ∀ g, q.debt g = 0)
    (hheld : ∀ g, q.held.count g = m.held.count g + if f = g then 1 else 0)
    (hknows : q.Knows (s.tab.filealloc f)) (hstores : q.stores = none) (hclears : q.clears = none) :
    Inv ⟨s.tab.filealloc f, update s.pc t q⟩ := by
  have hzero := Tables.ref_unused hf
  refine h.setFile hpc (fun g => ?_) (fun fd hfd => ?_) (by simp [hm]) hknows (fun u _ hu => ?_)
    (fun u _ hu => (h.knows u).piped f hu) hstores hclears
  · rw [hdebt, hdebt', hheld]
    split_ifs <;> push_cast <;> omega
  · have := h.one_le_ref t (.inl (Tables.one_le_count hfd))
    omega
  · have := ((h.knows u).borrows f hu).2
    omega

theorem Pc.held_of_piped {pc : Pc} (h : f ∈ pc.piped) : f ∈ pc.held := by
  cases pc with
  | scan k | store k => cases k <;> first | exact h | cases h
  | _ => cases h

theorem Inv.fileclose (h : Inv s) (hpc : s.pc t = m) (hm : m.untyped = none)
    (hdebt : ∀ g, m.debt g = 0) (hdebt' : ∀ g, q.debt g = 0)
    (hheld : ∀ g, m.held.count g = q.held.count g + if f = g then 1 else 0)
    (hlast : (s.tab.file f).ref = 1 → ∀ u, f ∉ (s.pc u).borrows) (hknows : ∀ x, q.Knows x)
    (hstores : q.stores = none) (hclears : q.clears = none) : ∃ y, s.tab.fileclose f = some y ∧
    Inv ⟨y, update s.pc t q⟩ := by
  have hmem : f ∈ (s.pc t).held := by
    rw [hpc, ← count_pos_iff, hheld, if_pos rfl]
    exact Nat.succ_pos _
  have href := h.one_le_ref t (.inr hmem)
  have hrefs : ∀ z : File, z.ref = (s.tab.file f).ref - 1 → ∀ g,
      (q.held.count g : ℤ) + m.debt g + (if f = g then (s.tab.file f).ref - z.ref else 0) ≤
        m.held.count g + q.debt g := fun z hz g => by
    rw [hdebt, hdebt', hheld, hz]
    split_ifs <;> push_cast <;> omega
  rw [Tables.fileclose, if_neg (by omega)]
  split
  · refine ⟨_, rfl, h.setFile hpc (hrefs _ rfl) (fun fd => h.typed_others (by rw [hpc, hm]))
      (by simp [hm])
      (hknows _) (fun u _ hu => ?_) (fun u _ hu => (h.knows u).piped f hu) hstores hclears⟩
    exact ⟨((h.knows u).borrows f hu).1, show 1 ≤ (s.tab.file f).ref - 1 by omega⟩
  · -- the last reference: no entry and no other call is left that could lose the type
    have hone : (s.tab.file f).ref = 1 := by omega
    have hpos : 0 < (s.pc t).held.count f := count_pos_iff.2 hmem
    refine ⟨_, rfl, h.setFile hpc (hrefs _ (by dsimp only; omega)) (fun fd hfd => ?_) (by simp [hm])
      (hknows _)
      (fun u _ hu => absurd hu (hlast hone u)) (fun u hne hu => ?_) hstores hclears⟩
    · have hle := h.refs_le (hlast hone) {t}
      have hcount := Tables.one_le_count hfd
      rw [Finset.sum_singleton] at hle
      omega
    · have hle := h.refs_le (hlast hone) {u, t}
      have hpos' := count_pos_iff.2 (Pc.held_of_piped hu)
      rw [Finset.sum_pair hne] at hle
      omega

theorem Inv.publish (h : Inv s) {k : For} (hpc : s.pc t = .store k f fd) {q : Pc}
    (hrefs : ∀ g, q.held.count g + (if f = g then 1 else 0) ≤ (Pc.store k f fd).held.count g +
    q.debt g) (htype : (s.tab.file f).type ≠ .FD_NONE ∨ f ∈ q.untyped) (hknows :
    q.Knows (s.tab.publish fd f)) (hstores : q.stores = none) (hclears : ∀ c ∈ q.clears, c.1 = fd) :
    Inv ⟨s.tab.publish fd f, update s.pc t q⟩ := by
  have hmem : fd ∈ (s.pc t).stores := by rw [hpc]; rfl
  have hfree := (h.knows t).stores fd hmem
  refine h.step (fun g => ?_) (fun fd' g hfd => ?_) (fun fd' => ?_) ?_ hknows
    (fun u hu => (h.knows u).publish hfree fun hfd => hu (h.stores u t fd hfd hmem))
    (by simp [hstores])
    (fun c hc u _ c' hc' heq => ?_)
  · have := hrefs g
    rw [hpc, Tables.count_publish hfree, show (Pc.store k f fd).debt g = 0 from rfl]
    show _ ≤ _ + (s.tab.file g).ref
    push_cast
    split_ifs at this ⊢ <;> omega
  · simp only [Tables.publish, update_apply] at hfd
    split at hfd
    · obtain rfl : f = g := by simpa using hfd
      exact htype.imp_right .inl
    · exact (h.typed_others (by rw [hpc]; rfl) hfd).imp_right .inr
  · have hlive := h.live fd'
    simp only [Tables.publish, update_apply]
    split <;> simp_all
  · simp [Tables.publish, h.clash, h.live, hfree]
  · have hused := (h.knows u).clears c' hc'
    rw [heq, hclears c hc, hfree] at hused
    cases hused

theorem Inv.clear (h : Inv s) (hpc : s.pc t = m) (hfd : (fd, f) ∈ m.clears) (hm : m.untyped = none)
    (hrefs : ∀ g, q.held.count g + m.debt g ≤ m.held.count g + q.debt g + if f = g then 1 else 0)
    (hknows : ∀ x, q.Knows x) (hstores : q.stores = none) (hclears : q.clears = none) :
    Inv ⟨s.tab.clear fd, update s.pc t q⟩ := by
  subst hpc
  have hused : s.tab.ofile fd = some f := (h.knows t).clears _ hfd
  refine h.step (fun g => ?_) (fun fd' g hfd' => ?_) (fun fd' => ?_) h.clash (hknows _)
    (fun u hu => (h.knows u).clear fun c hc heq => hu (h.clears u t c hc _ hfd heq))
    (by simp [hstores])
    (by simp [hclears])
  · have hg := hrefs g
    have hcount := Tables.count_clear (g := g) hused
    show _ ≤ _ + (s.tab.file g).ref
    split_ifs at hg hcount <;> omega
  · simp only [Tables.clear, update_apply] at hfd'
    split at hfd'
    · simp at hfd'
    · exact (h.typed_others hm hfd').imp_right .inr
  · have hlive := h.live fd'
    simp only [Tables.clear, update_apply]
    split <;> simp_all

/-! ### All steps -/

section

variable (h : Inv s)

include h

theorem Inv.closed (hpc : s.pc t = m) {q' : Pc} (hm : m.untyped = none) (hdebt : ∀ g, m.debt g = 0)
    (hheld : ∀ g, m.held.count g = q'.held.count g + if f = g then 1 else 0) (hf : f ∈ m.drops)
    (hok : Careful s (.go t b)) (hq : q' = .user ∨ ∃ g, q' = .pLast g)
    (hgo : some (Tables.go.orPanic s.tab (s.tab.fileclose f) q') = some (y, q)) :
    Inv ⟨y, update s.pc t q⟩ := by
  have hlast : (s.tab.file f).ref = 1 → ∀ u, f ∉ (s.pc u).borrows := fun href u =>
    (hok u).2.2.2 f (hpc ▸ hf) href
  obtain ⟨z, hz, hinv⟩ : ∃ y, s.tab.fileclose f = some y ∧ Inv ⟨y, update s.pc t q'⟩ := by
    rcases hq with rfl | ⟨g, rfl⟩ <;>
      exact h.fileclose hpc hm hdebt (fun _ => rfl) hheld hlast
        (fun _ => ⟨nofun, nofun, nofun, nofun, nofun⟩) rfl rfl
  rw [hz] at hgo
  cases hgo
  exact hinv

theorem Inv.stay (hpc : s.pc t = m) (hm : m.untyped = none) (hcalm : q ≠ .panic)
    (hheld : q.held = m.held) (hdebt : q.debt = m.debt) (hborrows : ∀ f ∈ q.borrows, f ∈ m.borrows)
    (hpiped : ∀ f ∈ q.piped, f ∈ m.piped) (hclears : ∀ c ∈ q.clears, c ∈ m.clears)
    (hstores : ∀ fd ∈ q.stores, s.tab.ofile fd = none ∧ ∀ u, fd ∉ (s.pc u).stores) :
    Inv ⟨s.tab, update s.pc t q⟩ := by
  subst hpc
  have hknows := h.knows t
  refine h.move rfl (fun f => by rw [hheld, hdebt]) hm ⟨hcalm,
    fun f hf => hknows.borrows f (hborrows f hf),
    fun f hf => hknows.piped f (hpiped f hf), fun fd hfd => (hstores fd hfd).1,
    fun c hc => hknows.clears c (hclears c hc)⟩ (fun fd hfd u _ => (hstores fd hfd).2 u) fun c hc u
    hu c' hc' heq => ?_
  exact hu (h.clears u t c' hc' c (hclears c hc) heq)

theorem Inv.user (hpc : s.pc t = m) (hm : m.untyped = none) (hheld : m.held = [])
    (hdebt : ∀ f, m.debt f = 0) : Inv ⟨s.tab, update s.pc t .user⟩ :=
  h.stay hpc hm nofun hheld.symm (funext fun f => (hdebt f).symm) nofun nofun nofun nofun

theorem Inv.scan (hok : Careful s (.go t b)) {k : For} {n : ℕ} (hpc : s.pc t = .scan k f n)
    (hgo : s.tab.go b (.scan k f n) = some (y, q)) : Inv ⟨y, update s.pc t q⟩ := by
  simp only [Tables.go] at hgo
  split at hgo
  · rename_i hn
    split at hgo <;> cases hgo
    · rename_i hfree
      have hlook : ⟨n, hn⟩ ∈ (s.pc t).looks := by
        rw [hpc]
        exact dif_pos hn
      have hstores : ∀ fd ∈ (Pc.store k f ⟨n, hn⟩).stores, s.tab.ofile fd = none ∧
        ∀ u, fd ∉ (s.pc u).stores := by
        rintro _ ⟨rfl⟩
        exact ⟨hfree, fun u => (hok u).1 _ hlook⟩
      cases k <;> exact h.stay hpc rfl nofun rfl rfl (fun _ => id) (fun _ => id) (fun _ => id)
        hstores
    · cases k <;> exact h.stay hpc rfl nofun rfl rfl (fun _ => id) (fun _ => id) (fun _ => id) nofun
  · cases hgo
    cases k with
    | sysDup => exact h.user hpc rfl rfl fun _ => rfl
    | sysOpen | pipeRead => exact h.stay hpc rfl nofun rfl rfl nofun nofun nofun nofun
    | pipeWrite => exact h.stay hpc rfl nofun rfl rfl nofun nofun (fun _ => id) nofun

theorem Inv.store {k : For} (hpc : s.pc t = .store k f fd) :
    Inv ⟨s.tab.publish fd f, update s.pc t (k.stored f fd)⟩ := by
  have hknows := h.knows t
  rw [hpc] at hknows
  cases k with
  | sysOpen r w =>
    refine h.publish hpc (fun g => ?_) (.inr rfl) ⟨nofun, nofun, nofun, nofun, nofun⟩ rfl nofun
    simp [Pc.held]
  | sysDup =>
    have husable := hknows.borrows f rfl
    refine h.publish hpc (fun g => ?_) (.inl husable.1) ⟨nofun, ?_, nofun, nofun, nofun⟩ rfl nofun
    · simp [Pc.held]
    · rintro _ ⟨rfl⟩
      exact husable
  | pipeRead wf =>
    refine h.publish hpc (fun g => ?_) (.inl (hknows.piped f mem_cons_self))
      ⟨nofun, nofun, fun g hg => hknows.piped g (mem_cons_of_mem _ hg), nofun, ?_⟩ rfl ?_
    · simp [Pc.held]
    · rintro _ ⟨rfl⟩
      exact update_self ..
    · rintro _ ⟨rfl⟩
      rfl
  | pipeWrite fd0 rf =>
    refine h.publish hpc (fun g => ?_) (.inl (hknows.piped f mem_cons_self)) ⟨nofun, nofun, nofun,
      nofun, nofun⟩
      rfl nofun
    simp [Pc.held]

theorem Inv.pType {rf wf : Fp} (hpc : s.pc t = .pType rf wf) :
    Inv ⟨(s.tab.setFile rf { s.tab.file rf with type := .FD_PIPE, readable := true, writable := false }).setFile wf
      { s.tab.file wf with type := .FD_PIPE, readable := false, writable := true },
      update s.pc t (.scan (.pipeRead wf) rf 0)⟩ := by
  have hborrow : ∀ u f, f ∈ (s.pc u).borrows → 1 ≤ (s.tab.file f).ref := fun u f hf => ((h.knows u).borrows f hf).2
  have hfirst : Inv ⟨s.tab.setFile rf { s.tab.file rf with type := .FD_PIPE, readable := true, writable := false },
      update s.pc t (.pType rf wf)⟩ := by
    refine h.setFile hpc (fun g => ?_) (by simp) nofun ⟨nofun, nofun, nofun, nofun, nofun⟩
      (fun u _ hu => ⟨by simp, hborrow u rf hu⟩) (by simp) rfl rfl
    simp
  have hsecond := hfirst.setFile (f := wf) (q := .scan (.pipeRead wf) rf 0) (update_self ..)
    (z := { s.tab.file wf with type := .FD_PIPE, readable := false, writable := true }) (fun g => ?_) (by simp) nofun
    ⟨nofun, nofun, fun f hf => ?_, nofun, nofun⟩ (fun u hu hw => ⟨by simp, ?_⟩) (by simp) rfl rfl
  · rwa [update_idem] at hsecond
  · simp only [Tables.file_setFile]
    split_ifs <;> simp_all [Pc.held]
  · simp only [Tables.file_setFile]
    split_ifs with h₁ h₂
    · simp
    · simp
    · simp_all [Pc.piped]
  · have hw' : wf ∈ (s.pc u).borrows := by simpa [hu] using hw
    exact hborrow u wf hw'

theorem Inv.go (hok : Careful s (.go t b)) (hgo : s.tab.go b (s.pc t) = some (y, q)) :
    Inv ⟨y, update s.pc t q⟩ := by
  cases hpc : s.pc t <;> rw [hpc] at hgo
  case user | panic => cases hgo
  case scan k f n => exact h.scan hok hpc hgo
  case store k f fd =>
    cases hgo
    exact h.store hpc
  case oAlloc | pAlloc =>
    simp only [Tables.go] at hgo
    split at hgo <;> cases hgo
    · refine h.filealloc hpc ‹_› rfl (fun _ => rfl) (fun _ => rfl) (fun g => ?_) ⟨nofun, nofun,
        nofun, nofun, nofun⟩ rfl rfl
      simp [Pc.held]
    · exact h.user hpc rfl rfl fun _ => rfl
  case pAlloc1 rf =>
    simp only [Tables.go] at hgo
    split at hgo <;> cases hgo
    · cases b
      all_goals
        refine h.filealloc hpc ‹_› rfl (fun _ => rfl) (fun _ => rfl) (fun g => ?_) ⟨nofun, nofun,
          nofun, nofun, nofun⟩
          rfl rfl
        simp [Pc.held, add_comm]
    · exact h.stay hpc rfl nofun rfl rfl nofun nofun nofun nofun
  case oType f r w =>
    cases hgo
    refine h.setFile hpc (fun g => ?_) (by simp) (fun g hg => (mem_some_iff.1 hg).symm)
      ⟨nofun, nofun, nofun, nofun, nofun⟩ (fun u _ hu => ⟨by simp, ((h.knows u).borrows f hu).2⟩)
      (by simp) rfl rfl
    simp [Pc.held]
  case oMode f r w =>
    cases hgo
    refine h.setFile hpc (fun g => ?_) (fun fd => h.typed_others (by rw [hpc]; rfl)) nofun
      ⟨nofun, nofun, nofun, nofun, nofun⟩ (fun u _ => (h.knows u).borrows f)
      (fun u _ => (h.knows u).piped f) rfl rfl
    simp [Pc.held]
  case pType rf wf =>
    cases hgo
    exact h.pType hpc
  case dFetch fd | uFetch fd w =>
    have hfetch : s.argfd t = s.tab.ofile fd := by rw [State.argfd, hpc]
    simp only [Tables.go] at hgo
    split at hgo <;> cases hgo
    · rename_i f hf
      have husable := h.usable t hf fun u => (hok u).2.1 f (hfetch.trans hf)
      refine h.move hpc (fun _ => le_rfl) rfl ⟨nofun, ?_, nofun, nofun, nofun⟩ nofun nofun
      rintro _ ⟨rfl⟩
      exact husable
    · exact h.user hpc rfl rfl fun _ => rfl
  case cFetch fd =>
    simp only [Tables.go] at hgo
    split at hgo <;> cases hgo
    · rename_i f hf
      refine h.move hpc (fun _ => le_rfl) rfl ⟨nofun, nofun, nofun, nofun, ?_⟩ nofun ?_
      · rintro _ ⟨rfl⟩
        exact hf
      · rintro _ ⟨rfl⟩ u -
        exact (hok u).2.2.1 fd (by rw [hpc]; rfl)
    · exact h.user hpc rfl rfl fun _ => rfl
  case dDup f =>
    have husable := (h.knows t).borrows f (by rw [hpc]; rfl)
    have href : ¬(s.tab.file f).ref < 1 := by
      have := husable.2
      omega
    simp only [Tables.go, Tables.filedup, if_neg href, Tables.go.orPanic, some.injEq,
      Prod.mk.injEq] at hgo
    obtain ⟨rfl, rfl⟩ := hgo
    refine h.setFile hpc (fun g => ?_) (fun fd hfd => .inl husable.1) nofun ⟨nofun, nofun, nofun,
      nofun, nofun⟩
      (fun u _ hu => ⟨husable.1, ?_⟩) (fun u _ => (h.knows u).piped f) rfl rfl
    · simp only [Pc.held, Pc.debt, count_nil]
      split_ifs
      · push_cast
        omega
      · simp
    · dsimp only
      omega
  case pUndo fd0 rf wf =>
    cases hgo
    refine h.clear (f := rf) hpc rfl rfl (fun g => ?_)
      (fun _ => ⟨nofun, nofun, nofun, nofun, nofun⟩) rfl rfl
    simp [Pc.held]
  case cClear fd f =>
    cases hgo
    refine h.clear (f := f) hpc rfl rfl (fun g => ?_) (fun _ => ⟨nofun, nofun, nofun, nofun, nofun⟩)
      rfl rfl
    simp [Pc.held]
  case oFail f | pLast f | cClose f =>
    refine h.closed hpc rfl (fun _ => rfl) (fun g => ?_) rfl hok (.inl rfl) hgo
    simp [Pc.held]
  case pClose rf wf =>
    refine h.closed hpc rfl (fun _ => rfl) (fun g => ?_) rfl hok (.inr ⟨wf, rfl⟩) hgo
    simp [Pc.held, add_comm]
  case uUse f w =>
    have htype := ((h.knows t).borrows f (by rw [hpc]; rfl)).1
    simp only [Tables.go, htype, and_false, if_false, some.injEq, Prod.mk.injEq] at hgo
    obtain ⟨rfl, rfl⟩ := hgo
    exact h.user hpc rfl rfl fun _ => rfl

theorem Inv.call (hs : s.call t q = some s') (hq : q.Knows s.tab) (hheld : q.held = [])
    (hstores : q.stores = none) (hclears : q.clears = none) : Inv s' := by
  unfold State.call at hs
  split at hs
  · rename_i huser
    cases hs
    exact h.move huser (fun f => by simp [hheld]) rfl hq (by simp [hstores]) (by simp [hclears])
  · cases hs

end

theorem inv_of_reachableVia (h : (sys T).ReachableVia Careful s) : Inv s := by
  refine Machine.Sys.ReachableVia.invariant (I := Inv) (fun s => inv_init)
    (fun s a s' hinv hok hs => ?_) h
  cases a with
  | sysOpen | sysDup | sysPipe | sysClose | sysRead | sysWrite =>
    exact hinv.call hs ⟨nofun, nofun, nofun, nofun, nofun⟩ rfl rfl rfl
  | go t b =>
    obtain ⟨⟨y, q⟩, hgo, rfl⟩ := map_eq_some_iff.1 hs
    exact hinv.go hok hgo

/-- As long as calls keep apart, no descriptor is allocated twice, no function panics, and `argfd`
hands out files with a type. -/
theorem descriptors_sound (h : (sys T).ReachableVia Careful s) :
    s.tab.clash = false ∧ (∀ t, s.pc t ≠ .panic) ∧
      ∀ t b f, Careful s (.go t b) → s.argfd t = some f → (s.tab.file f).type ≠ .FD_NONE := by
  have hinv := inv_of_reachableVia h
  refine ⟨hinv.clash, fun t => (hinv.knows t).calm, fun t b f hok hf => ?_⟩
  obtain ⟨fd, hfd⟩ : ∃ fd, s.tab.ofile fd = some f := by
    unfold State.argfd at hf
    split at hf
    · exact ⟨_, hf⟩
    · exact ⟨_, hf⟩
    · exact ⟨_, hf⟩
    · cases hf
  exact (hinv.usable t hfd fun u => (hok u).2.1 f hf).1

end Step

/-! ## Two threads -/

instance : NeZero NOFILE := ⟨by decide⟩

instance : NeZero NFILE := ⟨by decide⟩

def boot : State Bool where
  tab := { ofile := fun _ => none, file := fun _ => ⟨0, .FD_NONE, false, false⟩, live :=
    fun _ => false, clash := false }
  pc := fun _ => .user

theorem boot_tidy : boot.Tidy where
  pc _ := rfl
  refs f := by simp [Tables.count, tally, boot]
  typed fd f hfd := by simp [boot] at hfd
  live _ := rfl
  clash := rfl

/-- All of a call of `open`, by one thread. -/
def openCall (t : Bool) : List (Act Bool) :=
  .sysOpen t true true :: replicate 5 (.go t true)

/-- All of a call of `close`, by one thread. -/
def closeCall (t : Bool) (fd : Fd) : List (Act Bool) :=
  .sysClose t fd :: replicate 3 (.go t true)

/-- One thread looks up descriptor 0, and the other is in `open` and has published descriptor 1. -/
theorem descriptors_sound_besideOpen : ∃ s : State Bool, s.pc true = .oType 1 true true ∧
    s.argfd false = some 0 ∧ Careful s (.go false true) ∧ (s.tab.file 0).type ≠ .FD_NONE := by
  obtain ⟨s, hreach, hpc, hf, hok⟩ : ∃ s, (sys Bool).ReachableVia Careful s ∧
    s.pc true = .oType 1 true true ∧
      s.argfd false = some 0 ∧ Careful s (.go false true) :=
    exists_reachableVia (openCall false ++ .sysOpen true true true :: replicate 4 (.go true true) ++
      [.sysRead false 0]) boot_tidy (by decide +kernel)
  exact ⟨s, hpc, hf, hok, (descriptors_sound hreach).2.2 false true 0 hok hf⟩

/-- Calls that collide: two calls of `open` return one descriptor; the second of two calls of
`close`, or `dup` beside a `close`, panics; `read` finds a file that `open` has published without a
type, and panics. -/
theorem descriptors_unsound :
    (∃ s, (sys Bool).Reachable s ∧ s.tab.clash ∧ s.pc false = .oType 0 true true ∧
      s.pc true = .oType 1 true true) ∧
    (∃ s s', (sys Bool).Reachable s ∧ s.pc true = .cClose 0 ∧ s.next (.go true true) = some s' ∧
      s'.pc true = .panic) ∧
    (∃ s s', (sys Bool).Reachable s ∧ s.pc true = .dDup 0 ∧ s.next (.go true true) = some s' ∧
      s'.pc true = .panic) ∧
    ∃ s s', (sys Bool).Reachable s ∧ s.pc true = .uUse 0 false ∧ (s.tab.file 0).type = .FD_NONE ∧
      s.next (.go true true) = some s' ∧ s'.pc true = .panic := by
  have hstep {s : State Bool} (h : (s.next (.go true true)).any (fun s' => s'.pc true = .panic)) :
      ∃ s', s.next (.go true true) = some s' ∧ s'.pc true = .panic := by
    obtain ⟨s', hs', hpanic⟩ := (any_eq_true _ _).1 h
    exact ⟨s', hs', of_decide_eq_true hpanic⟩
  refine ⟨?_, ?_, ?_, ?_⟩
  · exact exists_reachable [.sysOpen false true true, .sysOpen true true true, .go false true,
      .go true true, .go false true, .go true true, .go false true,
      .go true true] boot_tidy (by decide +kernel)
  · obtain ⟨s, hreach, hpc, hnext⟩ : ∃ s, (sys Bool).Reachable s ∧ s.pc true = .cClose 0 ∧
        (s.next (.go true true)).any (fun s' => s'.pc true = .panic) :=
      exists_reachable (openCall false ++ [.sysClose false 0, .sysClose true 0, .go false true,
        .go true true, .go false true, .go false true, .go true true]) boot_tidy (by decide +kernel)
    obtain ⟨s', hs', hpanic⟩ := hstep hnext
    exact ⟨s, s', hreach, hpc, hs', hpanic⟩
  · obtain ⟨s, hreach, hpc, hnext⟩ : ∃ s, (sys Bool).Reachable s ∧ s.pc true = .dDup 0 ∧
        (s.next (.go true true)).any (fun s' => s'.pc true = .panic) :=
      exists_reachable (openCall false ++ .sysDup true 0 :: replicate 4 (.go true true) ++
        closeCall false 0) boot_tidy (by decide +kernel)
    obtain ⟨s', hs', hpanic⟩ := hstep hnext
    exact ⟨s, s', hreach, hpc, hs', hpanic⟩
  · -- the file keeps `readable` from an earlier use
    obtain ⟨s, hreach, hpc, htype, hnext⟩ : ∃ s, (sys Bool).Reachable s ∧
      s.pc true = .uUse 0 false ∧
        (s.tab.file 0).type = .FD_NONE ∧
        (s.next (.go true true)).any (fun s' => s'.pc true = .panic) :=
      exists_reachable (openCall false ++ closeCall false 0 ++ [.sysOpen false true true,
        .go false true, .go false true, .go false true, .sysRead true 0,
        .go true true]) boot_tidy (by decide +kernel)
    obtain ⟨s', hs', hpanic⟩ := hstep hnext
    exact ⟨s, s', hreach, hpc, htype, hs', hpanic⟩

end Xv6.Descriptors
