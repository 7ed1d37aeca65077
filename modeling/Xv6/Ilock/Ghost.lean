import Xv6.Ilock.Calls
import Xv6.Lib.Tally
import Mathlib.Order.RelClasses

/-!
# Who owns what

The ghost state of the proof that ordered calls do not deadlock.  A thread's token (`Tok`) says
which inode locks it holds, how many references to each cache entry are its own, which file it is
opening or closing and which inode it is creating.  The shared ghost state (`World`) says when each
inode was allocated, which of `.` and `..` a directory may have, and which processes own the
reference of their current directory.

* `World.lt`: the order of the locks.  A directory is below the inodes that are no directories and
  below the directories that its entries name or that were allocated after it.
* `Move`: what a thread may do.
* `Joint`: an entry of the cache has at least as many references as threads, current directories and
  files count on, and a file as many as there are descriptors for it.
-/

namespace Xv6.Ilock

open LockProg Tally Function

/-- How a thread shares the descriptors and the directory of its process. -/
inductive Mode where
  | idle
  /-- In a call, perhaps with other threads of the process. -/
  | shared
  /-- In a call as the only thread of the process. -/
  | sole
  deriving DecidableEq

inductive Claim where
  | none
  /-- Allocated, without a descriptor. -/
  | opening (f : Fin NFILE)
  /-- It has a descriptor, but no inode yet. -/
  | pending (f : Fin NFILE)
  /-- Its descriptor is gone. -/
  | closing (f : Fin NFILE)
  deriving DecidableEq

def Claim.Builds (f : Fin NFILE) (c : Claim) : Prop := c = opening f ∨ c = pending f

/-- The claim is one of the references of the file. -/
def Claim.Counts (f : Fin NFILE) (c : Claim) : Prop := c = opening f ∨ c = closing f

instance (f : Fin NFILE) (c : Claim) : Decidable (c.Counts f) := inferInstanceAs (Decidable (_ ∨ _))

/-- The ghost value of a thread of process `p`. -/
@[ext]
structure Tok (P : Type) where
  p : P
  mode : Mode
  held : Ip → Bool
  refs : Ip → ℕ
  claim : Claim
  /-- The inode it has allocated and not yet locked. -/
  fresh : Option ℕ

/-- The data with shared ghost state. -/
structure World (P : Type) extends Fs P where
  /-- When an inode was allocated; 0 if before the first call. -/
  gen : ℕ → ℕ
  clock : ℕ
  /-- Up to 1 the entry `.` of a directory, up to 2 also `..`, may go against the order. -/
  dots : ℕ → ℕ
  /-- The reference of the current directory belongs to the process, not to a thread in `chdir`. -/
  owned : P → Bool

variable {P T : Type}

namespace Tok

def start (p : P) (mode : Mode) : Tok P := ⟨p, mode, fun _ => false, fun _ => 0, .none, none⟩

def take (g : Tok P) (x : Ip) : Tok P := { g with held := update g.held x true }

def give (g : Tok P) (x : Ip) : Tok P := { g with held := update g.held x false }

def addRef (g : Tok P) (x : Ip) : Tok P := { g with refs := update g.refs x (g.refs x + 1) }

def setFresh (g : Tok P) (o : Option ℕ) : Tok P := { g with fresh := o }

def addRefs (g : Tok P) : Option Ip → Tok P
  | none => g
  | some x => g.addRef x

def dropRef (g : Tok P) (x : Ip) : Tok P := { g with refs := update g.refs x (g.refs x - 1) }

section

variable (g : Tok P) (o : Option Ip)

include g o

@[simp] theorem addRefs_p : (g.addRefs o).p = g.p := by cases o <;> rfl

@[simp] theorem addRefs_mode : (g.addRefs o).mode = g.mode := by cases o <;> rfl

@[simp] theorem addRefs_held : (g.addRefs o).held = g.held := by cases o <;> rfl

@[simp] theorem addRefs_fresh : (g.addRefs o).fresh = g.fresh := by cases o <;> rfl

end

theorem addRef_refs (g : Tok P) (x y : Ip) :
    (g.addRef x).refs y = g.refs y + if y = x then 1 else 0 := by
  by_cases h : y = x <;> simp [addRef, h]

theorem addRefs_refs (g : Tok P) (o : Option Ip) (y : Ip) :
    (g.addRefs o).refs y = g.refs y + if o = some y then 1 else 0 := by
  cases o with
  | none => simp [addRefs]
  | some x => simp [addRefs, addRef_refs, eq_comm]

theorem dropRef_refs (g : Tok P) {x : Ip} (hx : 0 < g.refs x) (y : Ip) :
    (g.dropRef x).refs y + (if y = x then 1 else 0) = g.refs y := by
  by_cases h : y = x
  · subst h
    simp only [dropRef, update_self, if_pos]
    omega
  · simp [dropRef, h]

end Tok

/-! ## The order of the locks -/

section Order

variable (R : ℕ → ℕ → Prop)

namespace World

/-- Inode `i` may be locked with directory `j` locked; `R` is the order of the inodes there were
before the first call. -/
def Below (e : World P) (j i : ℕ) : Prop :=
  (e.inode i).type ≠ some .dir ∨ e.gen j < e.gen i ∨ (e.gen j = 0 ∧ e.gen i = 0 ∧ R j i)

def Lt (e : World P) (x y : Ip) : Prop :=
  (e.dinode x).type = some .dir ∧ e.Below R (e.icache x).inum (e.icache y).inum

/-- An entry of directory `j` names an inode above it, except for dots. -/
def EntryOk (e : World P) (j d : ℕ) (de : Dirent) : Prop :=
  de.inum = 0 ∨ e.Below R j de.inum ∨ (namecmp dot de.name ∧ 1 ≤ d) ∨
    (namecmp dotdot de.name ∧ 2 ≤ d)

/-- The directories are ordered, an inode has at most one cache entry, and one that has been read is
allocated. -/
structure Good (e : World P) : Prop where
  ranked : ∀ j, (e.inode j).type = some .dir → ∀ de ∈ (e.inode j).entries,
    e.EntryOk R j (e.dots j) de
  gen : ∀ i, e.gen i < e.clock
  unique : ∀ x y, 0 < (e.icache x).ref → 0 < (e.icache y).ref →
    (e.icache x).inum = (e.icache y).inum → x = y
  valid : ∀ x, 0 < (e.icache x).ref → (e.icache x).valid → (e.dinode x).type ≠ none

end World

variable {R}

theorem World.Lt.irrefl [IsStrictOrder ℕ R] {e : World P} {x : Ip} : ¬ e.Lt R x x := by
  rintro ⟨hx, h | h | ⟨-, -, h⟩⟩
  · exact h hx
  · exact lt_irrefl _ h
  · exact irrefl_of R _ h

theorem World.Lt.trans [IsStrictOrder ℕ R] {e : World P} {x y z : Ip}
    (h : e.Lt R x y) (h' : e.Lt R y z) : e.Lt R x z := by
  obtain ⟨hx, hxy⟩ := h
  obtain ⟨hy, hyz⟩ := h'
  refine ⟨hx, ?_⟩
  rcases hyz with hz | hz | ⟨hy0, hz0, hr⟩
  · exact .inl hz
  · rcases hxy with h | h | ⟨h0, -, -⟩
    · exact absurd hy h
    · exact .inr (.inl (h.trans hz))
    · exact .inr (.inl (h0 ▸ Nat.zero_lt_of_lt hz))
  · rcases hxy with h | h | ⟨h0, -, hr'⟩
    · exact absurd hy h
    · omega
    · exact .inr (.inr ⟨h0, hz0, trans_of R hr' hr⟩)

theorem World.EntryOk.mono_dots {e : World P} {j d d' : ℕ} {de : Dirent} (h : e.EntryOk R j d de)
    (hd : d ≤ d') : e.EntryOk R j d' de := by
  rcases h with h | h | ⟨h, h1⟩ | ⟨h, h2⟩
  · exact .inl h
  · exact .inr (.inl h)
  · exact .inr (.inr (.inl ⟨h, h1.trans hd⟩))
  · exact .inr (.inr (.inr ⟨h, h2.trans hd⟩))

theorem World.not_transGen_lt [IsStrictOrder ℕ R]
    (e : World P) (x : Ip) : ¬ Relation.TransGen (e.Lt R) x x := by
  have hchain : ∀ {y : Ip}, Relation.TransGen (e.Lt R) x y → e.Lt R x y := by
    intro y h
    induction h with
    | single h => exact h
    | tail _ hyz ih => exact ih.trans hyz
  exact fun h => World.Lt.irrefl (hchain h)

end Order

/-! ## Moves -/

/-- What a thread may do to the data and to its token. -/
inductive Move [DecidableEq P] (R : ℕ → ℕ → Prop) : Tok P → Tok P → World P → World P → Prop where
  | look {g : Tok P} {e : World P} : Move R g g e e
  | ret {g : Tok P} {e : World P} (hclaim : g.claim = .none) (howned : e.owned g.p) :
      Move R g { g with mode := .idle } e e
  /-- One more reference to an entry in use. -/
  | gain {g : Tok P} {e : World P} (x : Ip) (hx : 0 < (e.icache x).ref) :
      Move R g (g.addRef x) e { e with toFs := e.addRef x 1 }
  /-- The first reference to an unused entry. -/
  | load {g : Tok P} {e : World P} (x : Ip) (n : ℕ) (hx : (e.icache x).ref = 0)
      (hn : ∀ y, 0 < (e.icache y).ref → (e.icache y).inum ≠ n) :
      Move R g (g.addRef x) e { e with toFs := e.setCached x ⟨n, 1, false⟩ }
  | drop {g : Tok P} {e : World P} (x : Ip) (hx : 0 < g.refs x) (hheld : g.held x = false) :
      Move R g (g.dropRef x) e { e with toFs := e.addRef x (-1) }
  /-- Any change to a locked inode that keeps its entries ordered; it is freed with its last
  reference. -/
  | write {g : Tok P} {e : World P} (x : Ip) (i : Inode) (v : Bool) (d : ℕ) (hheld : g.held x)
      (hx : 0 < (e.icache x).ref) (hvalid : v → i.type ≠ none)
      (hfresh : e.fresh (e.icache x).inum →
        i.type = (e.dinode x).type ∧ d = e.dots (e.icache x).inum)
      (htype : i.type = (e.dinode x).type ∨ (i.type = none ∧ (e.icache x).ref = 1))
      (hentries : i.type = some .dir → ∀ de ∈ i.entries, e.EntryOk R (e.icache x).inum d de) :
      Move R g g e
        { e with
          toFs := (e.modify x fun _ => i).setCached x { e.icache x with valid := v }
          dots := update e.dots (e.icache x).inum d }
  /-- A free inode is allocated, as the newest. -/
  | alloc {g : Tok P} {e : World P} (n : ℕ) (type : FileType) (hn : (e.inode n).type = none)
      (hfresh : g.fresh = none) :
      Move R g (g.setFresh (some n)) e
        { e with
          inode := update e.inode n ⟨some type, 0, []⟩
          fresh := update e.fresh n true
          gen := update e.gen n e.clock
          clock := e.clock + 1
          dots := update e.dots n 0 }
  /-- The new inode is an inode like any other. -/
  | settle {g : Tok P} {e : World P} (x : Ip) (hfresh : g.fresh = some (e.icache x).inum) :
      Move R g (g.setFresh none) e { e with toFs := e.settle x }
  | filealloc {g : Tok P} {e : World P} (f : Fin NFILE) (hf : (e.ftable f).ref = 0)
      (hclaim : g.claim = .none) (hmode : g.mode ≠ .idle) :
      Move R g { g with claim := .opening f } e
        { e with toFs := e.setFile f { e.ftable f with ref := 1 } }
  | setOfile {g : Tok P} {e : World P} (fd : Fin NOFILE) (f : Fin NFILE)
    (hclaim : g.claim = .opening f)
      (hmode : g.mode ≠ .idle) :
      Move R g { g with claim := .pending f } e { e with toFs := e.setOfile g.p fd (some f) }
  /-- The reference of the thread becomes one of the file. -/
  | publish {g : Tok P} {e : World P} (f : Fin NFILE) (x : Ip) (hclaim : g.claim = .pending f)
      (hx : 0 < g.refs x) (hheld : g.held x = false) :
      Move R g { g.dropRef x with claim := .none } e
        { e with toFs := e.setFile f { e.ftable f with ip := some x } }
  | clearOfile {g : Tok P} {e : World P} (fd : Fin NOFILE) (f : Fin NFILE)
    (hclaim : g.claim = .none)
      (hmode : g.mode = .sole) (hf : e.ofile g.p fd = some f) :
      Move R g { g with claim := .closing f } e { e with toFs := e.setOfile g.p fd none }
  | closeOne {g : Tok P} {e : World P} (f : Fin NFILE) (hclaim : g.claim.Counts f)
      (hf : 1 < (e.ftable f).ref) :
      Move R g { g with claim := .none } e
        { e with toFs := e.setFile f { e.ftable f with ref := (e.ftable f).ref - 1 } }
  /-- The reference of the file becomes one of the thread. -/
  | closeLast {g : Tok P} {e : World P} (f : Fin NFILE) (hclaim : g.claim.Counts f)
      (hf : (e.ftable f).ref = 1) :
      Move R g { g.addRefs (e.ftable f).ip with claim := .none } e
        { e with toFs := e.setFile f ⟨0, none⟩ }
  | takeCwd {g : Tok P} {e : World P} (hmode : g.mode = .sole) (howned : e.owned g.p) :
      Move R g (g.addRef (e.cwd g.p)) e { e with owned := update e.owned g.p false }
  | setCwd {g : Tok P} {e : World P} (x : Ip) (hmode : g.mode = .sole)
    (howned : e.owned g.p = false)
      (hx : 0 < g.refs x) (hheld : g.held x = false) :
      Move R g (g.dropRef x) e
        { e with toFs := e.setCwd g.p x, owned := update e.owned g.p true }

/-- What a thread sees of the moves of the others. -/
structure Rely (R : ℕ → ℕ → Prop) (g : Tok P) (e e' : World P) : Prop where
  good : e'.Good R
  refs : ∀ x, 0 < g.refs x → (e'.icache x).inum = (e.icache x).inum ∧
    (g.refs x : ℤ) ≤ (e'.icache x).ref ∧
    ((e.dinode x).type ≠ none → (e'.dinode x).type = (e.dinode x).type)
  heldRef : ∀ x, g.held x → 0 < (e'.icache x).ref
  held : ∀ x, g.held x →
    ((e'.icache x).inum = (e.icache x).inum ∧ (e'.icache x).valid = (e.icache x).valid) ∧
    ((e.dinode x).type ≠ none → e'.dinode x = e.dinode x ∧
      e'.gen (e.icache x).inum = e.gen (e.icache x).inum ∧
      e'.dots (e.icache x).inum = e.dots (e.icache x).inum ∧
      (e.fresh (e.icache x).inum = false → e'.fresh (e.icache x).inum = false))
  gen : ∀ i, (e'.inode i).type = some .dir →
    ((e.inode i).type = some .dir ∧ e'.gen i = e.gen i) ∨ e.clock ≤ e'.gen i
  clock : e.clock ≤ e'.clock
  cwd : g.mode ≠ .idle → e'.cwd g.p = e.cwd g.p ∧ e'.owned g.p = e.owned g.p
  cwdRef : g.mode ≠ .idle → e'.owned g.p → 0 < (e'.icache (e'.cwd g.p)).ref
  shared : g.mode = .shared → e'.owned g.p
  builds : ∀ f, g.claim.Builds f → e'.ftable f = ⟨1, none⟩
  ofile : g.mode = .sole → e'.ofile g.p = e.ofile g.p
  fresh : ∀ n, g.fresh = some n → (e'.inode n).type ≠ none ∧ e'.dots n = 0

section Joint

variable [Fintype T] [Fintype P]

/-- The references to a cache entry that someone counts on. -/
def refCount (g : T → Tok P) (e : World P) (x : Ip) : ℕ :=
  ∑ t, (g t).refs x + (∑ p, if e.owned p ∧ e.cwd p = x then 1 else 0) +
    ∑ f, if (e.ftable f).ip = some x then 1 else 0

/-- The references to a file that someone counts on. -/
def fileCount (g : T → Tok P) (e : World P) (f : Fin NFILE) : ℕ :=
  (∑ d : P × Fin NOFILE, if e.ofile d.1 d.2 = some f then 1 else 0) +
    ∑ t, if (g t).claim.Counts f then 1 else 0

/-- The tokens of all threads fit together, and to the data. -/
structure Joint (R : ℕ → ℕ → Prop) (proc : T → P) (g : T → Tok P) (e : World P) : Prop where
  mine : ∀ t, (g t).p = proc t
  good : e.Good R
  refs : ∀ x, (refCount g e x : ℤ) ≤ (e.icache x).ref
  held : ∀ t x, (g t).held x → 0 < (g t).refs x
  files : ∀ f, (fileCount g e f : ℤ) ≤ (e.ftable f).ref
  free : ∀ f, (e.ftable f).ref = 0 → (e.ftable f).ip = none
  busy : ∀ t, (g t).claim ≠ .none → (g t).mode ≠ .idle
  builds : ∀ t f, (g t).claim.Builds f → e.ftable f = ⟨1, none⟩ ∧
    (∀ q fd, e.ofile q fd = some f → q = proc t) ∧
    ∀ u, u ≠ t → ¬ (g u).claim.Builds f ∧ ¬ (g u).claim.Counts f
  fresh : ∀ t n, (g t).fresh = some n → e.fresh n ∧ (e.inode n).type ≠ none ∧ e.dots n = 0 ∧
    ∀ u, u ≠ t → (g u).fresh ≠ some n
  sole : ∀ t u, t ≠ u → proc t = proc u → (g t).mode = .sole → (g u).mode = .idle
  owned : ∀ p, e.owned p = false → ∃ t, proc t = p ∧ (g t).mode = .sole

end Joint

end Xv6.Ilock
