import Xv6.Param
import Xv6.Lib.Machine
import Mathlib.Data.Fintype.Basic
import Mathlib.Tactic.Ring

/-!
# User memory that a system call has checked

`fetchint`, `argptr` and `fetchstr` of `syscall.c` check a word on the user stack, a buffer or a
string against the size of the process, and the system call then uses the user's memory in place.
Other threads of the process go on meanwhile: they store into the same memory, and call `sbrk`.  A
step is a read of `sz`, a load of a word, a look at a byte of a string, a page that is mapped or
unmapped, or a store.  Page tables are left out, so that `deallocuvm` looks at each page of the
range by itself.
-/

namespace Xv6.UserMemory

open Function List Machine.Sys Option

def pgroundup (n : ℕ) : ℕ := (n + PGSIZE - 1) % 2 ^ 32 / PGSIZE * PGSIZE

/-- An argument of a system call, for `argptr` or for `argstr`: a pointer in the word at address
`word`. -/
inductive Arg where
  | ptr (word : ℕ) (size : ℤ)
  | str (word : ℕ)
  deriving DecidableEq

def Arg.word : Arg → ℕ
  | .ptr word _ | .str word => word

/-- What is tested against `sz`: the word of an argument, by `fetchint`, or a buffer, by
`argptr`. -/
inductive Range where
  | word (x : Arg)
  | buf (addr size : ℕ)
  deriving DecidableEq

def Range.addr : Range → ℕ
  | .word x => x.word
  | .buf addr _ => addr

def Range.size : Range → ℕ
  | .word _ => 4
  | .buf _ size => size

/-- What a system call has accepted: a buffer, or a string whose NUL was found after `len` bytes. -/
inductive Use where
  | buf (addr size : ℕ)
  | str (addr len : ℕ)
  deriving DecidableEq

inductive Pc where
  | user
  -- `growproc`: `acquire` and the look at `sz`; the loops of `allocuvm`, of `deallocuvm` in its
  -- failure, and of `deallocuvm`; the store of `sz`; `release`
  | gStart (n : ℤ)
  | gAlloc (old new a : ℕ)
  | gUndo (new a : ℕ)
  | gFree (new old a : ℕ)
  | gSet (new : ℕ)
  | gDone
  -- `fetchint` and `argptr`: the two tests; the load of `fetchint`
  | pLow (r : Range) (todo : List Arg) (uses : List Use)
  | pHigh (r : Range) (todo : List Arg) (uses : List Use)
  | load (x : Arg) (todo : List Arg) (uses : List Use)
  -- `fetchstr`: the test; `ep = sz`; the loop
  | sLow (addr : ℕ) (todo : List Arg) (uses : List Use)
  | sEnd (addr : ℕ) (todo : List Arg) (uses : List Use)
  | sScan (addr pos ep : ℕ) (todo : List Arg) (uses : List Use)
  | body (uses : List Use)
  /-- The kernel has used memory that is not mapped. -/
  | fault
  /-- `panic("remap")`. -/
  | remap
  deriving DecidableEq

/-- The process; `lock` is the thread that holds `ptable.lock`. -/
structure State (T : Type) where
  sz : ℕ
  mapped : ℕ → Bool
  byte : ℕ → UInt8
  lock : Option T
  pc : T → Pc

/-- Calls of a thread, its next step, stores of user code, and in the body of a system call a store
into a buffer and the return.  `ok`: memory allocation succeeds. -/
inductive Act (T : Type) where
  | sbrk (t : T) (n : ℤ)
  | sysCall (t : T) (args : List Arg)
  | go (t : T) (ok : Bool)
  | store (t : T) (addr : ℕ) (b : UInt8)
  | copy (t : T) (addr : ℕ) (b : UInt8)
  | finish (t : T)

def isInt (n : ℤ) : Bool := decide (-2 ^ 31 ≤ n ∧ n < 2 ^ 31)

def Arg.typed : Arg → Bool
  | .ptr word size => decide (word < 2 ^ 32) && isInt size
  | .str word => decide (word < 2 ^ 32)

def Use.contains (addr : ℕ) : Use → Bool
  | .buf a n => decide (a ≤ addr ∧ addr < a + n)
  | .str .. => false

/-- The next argument is checked, or the call goes on. -/
def check : List Arg → List Use → Pc
  | [], uses => .body uses
  | x :: todo, uses => .pLow (.word x) todo uses

/-- `argint` has found the pointer `addr`. -/
def Arg.loaded (addr : ℕ) (todo : List Arg) (uses : List Use) : Arg → Pc
  | .ptr _ size => if size < 0 then .user else .pLow (.buf addr size.toNat) todo uses
  | .str _ => .sLow addr todo uses

/-- Both tests have passed. -/
def Range.passed (todo : List Arg) (uses : List Use) : Range → Pc
  | .word x => .load x todo uses
  | .buf addr size => check todo (uses ++ [.buf addr size])

namespace State

variable {T : Type} [DecidableEq T]

variable (s : State T)

def goto (t : T) (pc : Pc) : State T := { s with pc := update s.pc t pc }

def map (a : ℕ) : State T :=
  { s with
    mapped := update s.mapped (a / PGSIZE) true
    byte := fun v => if v / PGSIZE = a / PGSIZE then 0 else s.byte v }

def unmap (a : ℕ) : State T := { s with mapped := update s.mapped (a / PGSIZE) false }

/-- Where `growproc` goes on when it has the lock, for `sz + n` and the old size. -/
def grow (n : ℤ) (sz new : ℕ) : Pc :=
  if 0 < n then
    if KERNBASE ≤ new then .gDone
    else if new < sz then .gSet sz
    else .gAlloc sz new (pgroundup sz)
  else if n < 0 then
    if sz ≤ new then if sz = 0 then .gDone else .gSet sz
    else .gFree new sz (pgroundup new)
  else .gSet sz

def word (a : ℕ) : ℕ :=
  (s.byte a).toNat + (s.byte (a + 1)).toNat * 2 ^ 8 + (s.byte (a + 2)).toNat * 2 ^ 16 +
    (s.byte (a + 3)).toNat * 2 ^ 24

/-- `sz + n`, as a `uint`. -/
def newSize (n : ℤ) : ℕ := ((s.sz + n) % 2 ^ 32).toNat

def go (t : T) (ok : Bool) : Option (State T) :=
  match s.pc t with
  | .user | .body _ | .fault | .remap => none
  | .gStart n =>
    if s.lock = none then some ({ s with lock := some t }.goto t (grow n s.sz (s.newSize n))) else
      none
  | .gAlloc old new a =>
    if a < new then
      if !ok then some (s.goto t (.gUndo new (pgroundup old)))
      else if s.mapped (a / PGSIZE) then some (s.goto t .remap)
      else some ((s.map a).goto t (.gAlloc old new ((a + PGSIZE) % 2 ^ 32)))
    else some (s.goto t (if new = 0 then .gDone else .gSet new))
  | .gUndo new a =>
    if a < new then some ((s.unmap a).goto t (.gUndo new ((a + PGSIZE) % 2 ^ 32))) else
      some (s.goto t .gDone)
  | .gFree new old a =>
    if a < old then some ((s.unmap a).goto t (.gFree new old ((a + PGSIZE) % 2 ^ 32)))
    else some (s.goto t (if new = 0 then .gDone else .gSet new))
  | .gSet new => some ({ s with sz := new }.goto t .gDone)
  | .gDone => some ({ s with lock := none }.goto t .user)
  | .pLow r todo uses => some (s.goto t (if s.sz ≤ r.addr then .user else .pHigh r todo uses))
  | .pHigh r todo uses =>
    some (s.goto t (if s.sz < (r.addr + r.size) % 2 ^ 32 then .user else r.passed todo uses))
  | .load x todo uses =>
    if s.mapped (x.word / PGSIZE) && s.mapped ((x.word + 3) / PGSIZE) then
      some (s.goto t (x.loaded (s.word x.word) todo uses))
    else some (s.goto t .fault)
  | .sLow addr todo uses => some (s.goto t (if s.sz ≤ addr then .user else .sEnd addr todo uses))
  | .sEnd addr todo uses => some (s.goto t (.sScan addr addr s.sz todo uses))
  | .sScan addr pos ep todo uses =>
    if pos < ep then
      if !s.mapped (pos / PGSIZE) then some (s.goto t .fault)
      else if s.byte pos = 0 then some (s.goto t (check todo (uses ++ [.str addr (pos - addr)])))
      else some (s.goto t (.sScan addr (pos + 1) ep todo uses))
    else some (s.goto t .user)

def call (t : T) (pc : Pc) : Option (State T) := if s.pc t = .user then
    some (s.goto t pc) else none

def write (addr : ℕ) (b : UInt8) : State T := { s with byte := update s.byte addr b }

def next : Act T → Option (State T)
  | .sbrk t n => if isInt n then s.call t (.gStart n) else none
  | .sysCall t args => if args.all Arg.typed then s.call t (check args []) else none
  | .go t ok => s.go t ok
  | .store t addr b =>
    -- a store to memory that is not mapped is a fault of the user's code
    if s.pc t = .user ∧ s.mapped (addr / PGSIZE) then some (s.write addr b) else none
  | .copy t addr b =>
    match s.pc t with
    | .body uses =>
      if uses.any (Use.contains addr) then
        if s.mapped (addr / PGSIZE) then some (s.write addr b) else some (s.goto t .fault)
      else none
    | _ => none
  | .finish t =>
    match s.pc t with
    | .body _ => some (s.goto t .user)
    | _ => none

/-- The memory below `sz` is mapped, and all threads are in user code. -/
structure Tidy (s : State T) : Prop where
  sz : s.sz < KERNBASE
  mapped : ∀ v, v < s.sz → s.mapped (v / PGSIZE)
  lock : s.lock = none
  pc : ∀ t, s.pc t = .user

end State

def sys (T : Type) [DecidableEq T] : Machine.Sys (State T) (Act T) where
  init := State.Tidy
  next := State.next

/-! ## Steps that leave accepted memory alone -/

@[simp] def Pc.uses : Pc → List Use
  | .pLow _ _ uses | .pHigh _ _ uses | .load _ _ uses | .sLow _ _ uses | .sEnd _ _ uses | .sScan _ _
    _ _ uses
  | .body uses => uses
  | _ => []

/-- In `fetchint`, `argptr` or `fetchstr`. -/
def Pc.checking : Pc → Bool
  | .pLow .. | .pHigh .. | .load .. | .sLow .. | .sEnd .. | .sScan .. => true
  | _ => false

/-- About to look at memory that has been tested. -/
def Pc.scanning : Pc → Bool
  | .load .. | .sScan .. => true
  | _ => false

/-- The first address after the memory in use. -/
def Use.top : Use → ℕ
  | .buf addr size => addr + size
  | .str addr len => addr + len + 1

def Use.nul : Use → Option ℕ
  | .buf .. => none
  | .str addr len => some (addr + len)

variable {T : Type}

def State.shrinks (s : State T) (t : T) : Bool :=
  match s.pc t with
  | .gFree .. => true
  | .gSet new => decide (new < s.sz)
  | _ => false

/-- The byte is not stored over the NUL of a string in use. -/
def State.sparesNul (s : State T) (addr : ℕ) (b : UInt8) : Prop :=
  b ≠ 0 → ∀ t, ∀ u ∈ (s.pc t).uses, u.nul ≠ some addr

/-- `sbrk` does not make the process smaller than what is in use, nor empty, nor at all while a
thread loads an argument or looks for the end of a string; nothing is checked while the process is
made smaller; and no NUL of a string in use is overwritten. -/
def Steady (s : State T) : Act T → Prop
  | .go t _ =>
    (∀ n, s.pc t = .gStart n → n < 0 → s.newSize n < s.sz →
      s.newSize n ≠ 0 ∧ ∀ u, (s.pc u).scanning = false ∧ ∀ x ∈ (s.pc u).uses, x.top ≤ s.newSize n) ∧
    ((s.pc t).checking → ∀ u, s.shrinks u = false)
  | .store _ addr b | .copy _ addr b => s.sparesNul addr b
  | _ => True

/-! ## The invariant -/

def Pc.locked : Pc → Bool
  | .gAlloc .. | .gUndo .. | .gFree .. | .gSet _ | .gDone | .remap => true
  | _ => false

/-- How far a process of size `sz` stays mapped while the thread that holds the lock goes on. -/
def Pc.low (sz : ℕ) : Pc → ℕ
  | .gFree new _ _ => new
  | .gSet new => min new sz
  | _ => sz

/-- How far the memory is mapped, and stays so. -/
def State.low (s : State T) : ℕ :=
  match s.lock with
  | some t => (s.pc t).low s.sz
  | none => s.sz

/-- The memory in use is below `low`, and a string has its end. -/
def Use.Fits (s : State T) : Use → Prop
  | .buf addr size => addr + size ≤ s.low
  | .str addr len => addr + len < s.low ∧ s.byte (addr + len) = 0

/-- What a thread knows in `growproc` and in the checks. -/
def Pc.Knows (s : State T) : Pc → Prop
  | .gAlloc old new a => old = s.sz ∧ s.sz ≤ new ∧ new < KERNBASE ∧ a % PGSIZE = 0 ∧
    pgroundup s.sz ≤ a ∧
      a < KERNBASE + PGSIZE ∧ ∀ v, v < a → s.mapped (v / PGSIZE)
  | .gUndo new a => new < KERNBASE ∧ a % PGSIZE = 0 ∧ pgroundup s.sz ≤ a ∧ a < KERNBASE + PGSIZE
  | .gFree new old a => old = s.sz ∧ 0 < new ∧ new < s.sz ∧ a % PGSIZE = 0 ∧ pgroundup new ≤ a ∧
    a < KERNBASE + PGSIZE
  | .gSet new => new < KERNBASE ∧ ∀ v, v < new → s.mapped (v / PGSIZE)
  | .pLow r _ _ => r.size < 2 ^ 31
  | .pHigh r _ _ => r.addr < KERNBASE ∧ r.size < 2 ^ 31
  | .load x _ _ => x.word + 4 ≤ s.low
  | .sScan addr pos ep _ _ => addr ≤ pos ∧ ep ≤ s.low
  | .fault => False
  | _ => True

/-- The arguments that a call still has to check. -/
@[simp] def Pc.todo : Pc → List Arg
  | .pLow (.word x) todo _ | .pHigh (.word x) todo _ | .load x todo _ => x :: todo
  | .pLow (.buf ..) todo _ | .pHigh (.buf ..) todo _ | .sLow _ todo _ | .sEnd _ todo _ | .sScan _ _
    _ todo _ => todo
  | _ => []

structure Inv (s : State T) : Prop where
  sz : s.sz < KERNBASE
  lock : ∀ t, (s.pc t).locked ↔ s.lock = some t
  mapped : ∀ v, v < s.low → s.mapped (v / PGSIZE)
  knows : ∀ t, (s.pc t).Knows s
  uses : ∀ t, ∀ u ∈ (s.pc t).uses, u.Fits s
  todo : ∀ t, ∀ x ∈ (s.pc t).todo, x.typed

/-! ### Pages -/

theorem pgroundup_spec {n : ℕ} (h : n < KERNBASE) :
    n ≤ pgroundup n ∧ pgroundup n < n + PGSIZE ∧ pgroundup n % PGSIZE = 0 := by
  simp only [pgroundup, PGSIZE, KERNBASE] at h ⊢
  omega

theorem page_lt {n v : ℕ} (hn : n < KERNBASE) (h : v < pgroundup n) : v / PGSIZE * PGSIZE < n := by
  simp only [pgroundup, PGSIZE, KERNBASE] at *
  omega

theorem page_ne {n a v : ℕ} (hn : n < KERNBASE) (ha : a % PGSIZE = 0) (hle : pgroundup n ≤ a)
    (hv : v < n) : v / PGSIZE ≠ a / PGSIZE := by
  have hup := (pgroundup_spec hn).1
  simp only [PGSIZE] at *
  omega

theorem page_div (a : ℕ) : a / PGSIZE * PGSIZE / PGSIZE = a / PGSIZE :=
  Nat.mul_div_cancel _ (by decide)

theorem next_page {a new : ℕ} (hnew : new ≤ KERNBASE) (ha : a % PGSIZE = 0) (hlt : a < new) :
    (a + PGSIZE) % 2 ^ 32 = a + PGSIZE ∧ (a + PGSIZE) % PGSIZE = 0 ∧
      a + PGSIZE < KERNBASE + PGSIZE := by
  simp only [PGSIZE, KERNBASE] at *
  omega

/-! ### Steps -/

section Steps

variable {s s' : State T} {t u : T} {pc : Pc}

theorem State.low_of_holder (h : s.lock = some t) : s.low = (s.pc t).low s.sz := by
  simp [State.low, h]

theorem State.low_of_free (h : s.lock = none) : s.low = s.sz := by
  simp [State.low, h]

theorem Inv.others (h : Inv s) (ht : s.lock = some t) : ∀ u, u ≠ t → (s.pc u).locked = false :=
  fun u hut => by
  by_contra hl
  have hlu := (h.lock u).1 (by simpa using hl)
  rw [ht] at hlu
  exact hut (some.inj hlu).symm

theorem Pc.Knows.congr (h : pc.Knows s) (hsz : s'.sz = s.sz) (hm : s'.mapped = s.mapped)
    (hlow : s'.low = s.low) : pc.Knows s' := by
  cases pc <;> simp only [Pc.Knows, hsz, hm, hlow] at h ⊢ <;> exact h

theorem Use.Fits.congr {x : Use} (h : x.Fits s) (hlow : s'.low = s.low) (hb : s'.byte = s.byte) :
    x.Fits s' := by
  cases x <;> simpa only [Use.Fits, hlow, hb] using h

theorem Use.Fits.mono {x : Use} (h : x.Fits s) (hlow : s.low ≤ s'.low)
    (hb : ∀ v, v < s.low → s.byte v = 0 → s'.byte v = 0) : x.Fits s' := by
  cases x with
  | buf addr size => exact h.trans hlow
  | str addr len => exact ⟨h.1.trans_le hlow, hb _ h.1 h.2⟩

theorem Use.Fits.of_top {x : Use} (h : x.Fits s) (htop : x.top ≤ s'.low) (hb : s'.byte = s.byte) :
    x.Fits s' := by
  cases x with
  | buf addr size => exact htop
  | str addr len => exact ⟨htop, hb ▸ h.2⟩

theorem Inv.mapped_page (h : Inv s) (hlow : s.low = s.sz) {v : ℕ} (hv : v < pgroundup s.sz) :
    s.mapped (v / PGSIZE) := by
  have hstart := h.mapped (v / PGSIZE * PGSIZE) (hlow ▸ page_lt h.sz hv)
  rwa [page_div] at hstart

/-- A point of a system call that a thread may come to. -/
structure Pc.Fair (s : State T) (pc : Pc) : Prop where
  locked : pc.locked = false
  knows : pc.Knows s
  uses : ∀ u ∈ pc.uses, u.Fits s
  todo : ∀ x ∈ pc.todo, x.typed

variable [DecidableEq T]

attribute [local simp] State.goto

theorem State.low_goto_holder (h : s.lock = some t) (pc : Pc) :
    (s.goto t pc).low = pc.low s.sz := by
  rw [State.low_of_holder (t := t) (s := s.goto t pc) h]
  simp

theorem State.low_goto (h : s.lock ≠ some t) : (s.goto t pc).low = s.low := by
  cases hl : s.lock with
  | none => rw [State.low_of_free hl, State.low_of_free (s := s.goto t pc) hl]; rfl
  | some u =>
    have hut : u ≠ t := by
      rintro rfl
      exact h hl
    rw [State.low_of_holder hl, State.low_of_holder (s := s.goto t pc) hl]
    simp [hut]

theorem Inv.aside (h : Inv s) (ht : (s.pc t).locked = false) (hf : pc.Fair s) :
    Inv (s.goto t pc) := by
  obtain ⟨hpc, hknows, huses, htodo⟩ := hf
  have hlock : s.lock ≠ some t := fun hl => by
    rw [(h.lock t).2 hl] at ht
    cases ht
  have hlow : (s.goto t pc).low = s.low := State.low_goto hlock
  have hpcs : ∀ u, (s.goto t pc).pc u = if u = t then pc else s.pc u := fun u => update_apply ..
  refine ⟨h.sz, fun u => ?_, fun v hv => h.mapped v (hlow ▸ hv), fun u => ?_, fun u => ?_,
    fun u => ?_⟩
  · rw [hpcs]
    split_ifs with hut
    · subst hut
      simp only [hpc, Bool.false_eq_true, false_iff]
      exact hlock
    · exact h.lock u
  · rw [hpcs]
    split_ifs
    · exact hknows.congr rfl rfl hlow
    · exact (h.knows u).congr rfl rfl hlow
  · rw [hpcs]
    intro x hx
    split_ifs at hx
    · exact (huses x hx).congr hlow rfl
    · exact (h.uses u x hx).congr hlow rfl
  · rw [hpcs]
    split_ifs
    · exact htodo
    · exact h.todo u

theorem Inv.growproc (h : Inv s) (hothers : ∀ u, u ≠ t → (s.pc u).locked = false)
    (hpcs : s'.pc = update s.pc t pc) (hsz : s'.sz < KERNBASE)
    (hlock : s'.lock = if pc.locked then some t else none)
    (hmapped : ∀ v, v < s'.low → s'.mapped (v / PGSIZE)) (hknows : pc.Knows s')
    (hfits : ∀ u, u ≠ t → ∀ x ∈ (s.pc u).uses, x.Fits s')
    (hscan : ∀ u, u ≠ t → (s.pc u).scanning → s.low ≤ s'.low) (huses : pc.uses = [])
    (htodo : pc.todo = []) : Inv s' := by
  have hpcs : ∀ u, s'.pc u = if u = t then pc else s.pc u := fun u => by rw [hpcs, update_apply]
  refine ⟨hsz, fun u => ?_, hmapped, fun u => ?_, fun u => ?_, fun u => ?_⟩
  · rw [hpcs, hlock]
    split_ifs with hut hlk hlk
    · simp [hut, hlk]
    · simp [hlk]
    · simp [hothers u hut, Ne.symm hut]
    · simp [hothers u hut]
  · rw [hpcs]
    split_ifs with hut
    · exact hknows
    · -- what a thread without the lock knows does not depend on `sz` and the pages
      have hknown := h.knows u
      have hfree := hothers u hut
      have hsc := hscan u hut
      cases hpc : s.pc u <;>
        simp only [hpc, Pc.Knows, Pc.locked, reduceCtorEq, Pc.scanning] at hknown hfree hsc ⊢ <;>
        try exact hknown
      · exact hknown.trans (hsc trivial)
      · exact ⟨hknown.1, hknown.2.trans (hsc trivial)⟩
  · rw [hpcs]
    intro x hx
    split_ifs at hx with hut
    · rw [huses] at hx
      cases hx
    · exact hfits u hut x hx
  · rw [hpcs]
    split_ifs
    · rw [htodo]
      simp
    · exact h.todo u

theorem Inv.holder (h : Inv s) (ht : s.lock = some t) (hpcs : s'.pc = update s.pc t pc)
    (hsz : s'.sz < KERNBASE) (hlock : s'.lock = if pc.locked then some t else none)
    (hlow : s.low ≤ s'.low) (hmapped : ∀ v, v < s'.low → s'.mapped (v / PGSIZE))
    (hb : ∀ v, v < s.low → s.byte v = 0 → s'.byte v = 0) (hknows : pc.Knows s')
    (huses : pc.uses = []) (htodo : pc.todo = []) : Inv s' :=
  h.growproc (h.others ht) hpcs hsz hlock hmapped hknows
  (fun u _ x hx => (h.uses u x hx).mono hlow hb)
    (fun _ _ _ => hlow) huses htodo

/-- The holder of the lock goes on with the memory as it is. -/
theorem Inv.holder_goto (h : Inv s) (ht : s.lock = some t) (hlk : pc.locked)
    (hlow : pc.low s.sz = s.low) (hknows : pc.Knows (s.goto t pc)) (huses : pc.uses = [])
    (htodo : pc.todo = []) : Inv (s.goto t pc) := by
  have hsame := (State.low_goto_holder ht pc).trans hlow
  exact h.holder ht rfl h.sz (by rw [if_pos hlk]; exact ht) hsame.ge
    (fun v hv => h.mapped v (hsame ▸ hv)) (fun _ _ => id) hknows huses htodo

theorem Inv.gStart (h : Inv s) {n : ℤ} {ok : Bool} (hpc : s.pc t = .gStart n)
    (hfree : s.lock = none) (hok : Steady s (.go t ok)) :
    Inv ({ s with lock := some t }.goto t (State.grow n s.sz (s.newSize n))) := by
  have hlow : s.low = s.sz := State.low_of_free hfree
  have hothers : ∀ u, u ≠ t → (s.pc u).locked = false := fun u _ => by
    by_contra hl
    rw [(h.lock u).1 (by simpa using hl)] at hfree
    cases hfree
  have hat : ∀ pc, (({ s with lock := some t } : State T).goto t pc).low = pc.low s.sz :=
    State.low_goto_holder rfl
  -- without a page to free, `low` stays
  have hkeep : ∀ pc : Pc, (({ s with lock := some t } : State T).goto t pc).low = s.sz → pc.locked →
      pc.Knows (({ s with lock := some t } : State T).goto t pc) → pc.uses = [] → pc.todo = [] →
      Inv (({ s with lock := some t } : State T).goto t pc) :=
      fun pc hpc' hlk hknows huses htodo => by
    refine h.growproc hothers rfl h.sz (by rw [hlk]; rfl) (fun v hv => h.mapped v ?_) hknows
      (fun u _ x hx => (h.uses u x hx).congr (hpc'.trans hlow.symm) rfl) (fun u _ _ => ?_) huses
      htodo
    · rwa [hlow, ← hpc']
    · rw [hpc', hlow]
  obtain ⟨hup, hup', haligned⟩ := pgroundup_spec h.sz
  have hsz := h.sz
  have hset : ∀ v, v < s.sz → s.mapped (v / PGSIZE) := fun v hv => h.mapped v (hlow ▸ hv)
  unfold State.grow
  split_ifs with hpos hbig hsmall hneg hle hzero
  · exact hkeep _ (hat _) rfl trivial rfl rfl
  · exact hkeep _ ((hat _).trans (min_self _)) rfl ⟨h.sz, hset⟩ rfl rfl
  · refine hkeep _ (hat _) rfl ⟨rfl, ?_, ?_, haligned, le_rfl, ?_,
      fun v hv => h.mapped_page hlow hv⟩ rfl rfl
    · exact not_lt.1 hsmall
    · exact not_le.1 hbig
    · show pgroundup s.sz < _
      omega
  · exact hkeep _ (hat _) rfl trivial rfl rfl
  · exact hkeep _ ((hat _).trans (min_self _)) rfl ⟨h.sz, hset⟩ rfl rfl
  · -- pages are freed: what is in use is below the new size
    have hlt := not_le.1 hle
    obtain ⟨hne, huse⟩ := hok.1 n hpc hneg hlt
    have hnew : _ = s.newSize n := hat (.gFree (s.newSize n) s.sz (pgroundup (s.newSize n)))
    obtain ⟨hup₁, hup₁', haligned₁⟩ := pgroundup_spec (hlt.trans h.sz)
    refine h.growproc hothers rfl h.sz rfl (fun v hv => h.mapped v ?_) ⟨rfl, by omega, hlt,
      haligned₁, le_rfl, ?_⟩
      (fun u _ x hx => (h.uses u x hx).of_top (by rw [hnew]; exact (huse u).2 x hx) rfl)
      (fun u _ hs => ?_) rfl rfl
    · rw [hnew] at hv
      rw [hlow]
      exact lt_trans hv hlt
    · show pgroundup _ < _
      omega
    · rw [(huse u).1] at hs
      cases hs
  · exact hkeep _ ((hat _).trans (min_self _)) rfl ⟨h.sz, hset⟩ rfl rfl

theorem Inv.go_locked (h : Inv s) {ok : Bool} (hlk : (s.pc t).locked) (hs : s.go t ok = some s') :
    Inv s' := by
  have ht := (h.lock t).1 hlk
  have hknows := h.knows t
  have hlow := State.low_of_holder ht
  have hsz := h.sz
  unfold State.go at hs
  cases hpc : s.pc t <;> simp only [hpc, Pc.locked, reduceCtorEq] at hlk <;>
    simp only [hpc, Pc.low] at hs hlow hknows
  case gAlloc old new a =>
    obtain ⟨rfl, hle, hnew, ha, hup, hbound, hmap⟩ := hknows
    split_ifs at hs with hlt hok hmapped hzero
    · -- no page: back to the old size
      obtain rfl := some.inj hs
      obtain ⟨-, hup', haligned⟩ := pgroundup_spec h.sz
      exact h.holder_goto ht rfl hlow.symm
        ⟨hnew, haligned, le_rfl, show pgroundup s.sz < _ by omega⟩ rfl rfl
    · obtain rfl := some.inj hs
      exact h.holder_goto ht rfl hlow.symm trivial rfl rfl
    · obtain rfl := some.inj hs
      obtain ⟨hnext, haligned, hnb⟩ := next_page hnew.le ha hlt
      rw [hnext]
      have hsame := (State.low_goto_holder (s := s.map a) ht (.gAlloc s.sz new (a + PGSIZE))).trans
        hlow.symm
      have hkeep : ∀ v, s.mapped (v / PGSIZE) → (s.map a).mapped (v / PGSIZE) := fun v hv => by
        simp only [State.map, update_apply]
        split_ifs
        · rfl
        · exact hv
      refine h.holder ht rfl h.sz ht hsame.ge (fun v hv => hkeep v (h.mapped v (hsame ▸ hv)))
        (fun v _ hv => ?_)
        ⟨rfl, hle, hnew, haligned, show _ ≤ a + PGSIZE by exact hup.trans (Nat.le_add_right ..),
          hnb, fun v hv => ?_⟩
        rfl rfl
      · show (if _ then _ else _) = _
        split_ifs
        · rfl
        · exact hv
      · by_cases hva : v / PGSIZE = a / PGSIZE
        · simp [State.map, hva]
        · refine hkeep v (hmap v ?_)
          simp only [PGSIZE] at *
          omega
    · obtain rfl := some.inj hs
      exact h.holder_goto ht rfl hlow.symm trivial rfl rfl
    · -- all pages of the new size are there
      obtain rfl := some.inj hs
      exact h.holder_goto ht rfl ((min_eq_right hle).trans hlow.symm)
        ⟨hnew, fun v hv => hmap v (lt_of_lt_of_le hv (not_lt.1 hlt))⟩ rfl rfl
  case gUndo new a =>
    obtain ⟨hnew, ha, hup, hbound⟩ := hknows
    split_ifs at hs with hlt <;> obtain rfl := some.inj hs
    · obtain ⟨hnext, haligned, hnb⟩ := next_page hnew.le ha hlt
      rw [hnext]
      have hsame := (State.low_goto_holder (s := s.unmap a) ht (.gUndo new (a + PGSIZE))).trans
        hlow.symm
      refine h.holder ht rfl h.sz ht hsame.ge (fun v hv => ?_) (fun _ _ => id)
        ⟨hnew, haligned, show _ ≤ a + PGSIZE from hup.trans (Nat.le_add_right ..), hnb⟩ rfl rfl
      rw [hsame] at hv
      have hne := page_ne h.sz ha hup (hlow ▸ hv)
      simpa [State.unmap, hne] using h.mapped v hv
    · exact h.holder_goto ht rfl hlow.symm trivial rfl rfl
  case gFree new old a =>
    obtain ⟨rfl, hpos, hnew, ha, hup, hbound⟩ := hknows
    split_ifs at hs with hlt hzero <;> obtain rfl := some.inj hs
    · obtain ⟨hnext, haligned, hnb⟩ := next_page hsz.le ha hlt
      rw [hnext]
      have hsame := (State.low_goto_holder (s := s.unmap a) ht (.gFree new s.sz (a + PGSIZE))).trans
        hlow.symm
      refine h.holder ht rfl h.sz ht hsame.ge (fun v hv => ?_) (fun _ _ => id)
        ⟨rfl, hpos, hnew, haligned, show _ ≤ a + PGSIZE from hup.trans (Nat.le_add_right ..), hnb⟩
        rfl rfl
      rw [hsame] at hv
      have hne := page_ne (hnew.trans h.sz) ha hup (hlow ▸ hv)
      simpa [State.unmap, hne] using h.mapped v hv
    · exact absurd hzero hpos.ne'
    · exact h.holder_goto ht rfl ((min_eq_left hnew.le).trans hlow.symm)
        ⟨hnew.trans h.sz, fun v hv => h.mapped v (by rw [hlow]; exact hv)⟩ rfl rfl
  case gSet new =>
    obtain rfl := some.inj hs
    have hnew : _ = new := State.low_goto_holder (s := { s with sz := new }) ht .gDone
    exact h.holder ht rfl hknows.1 ht (by rw [hnew, hlow]; exact min_le_left _ _)
      (fun v hv => hknows.2 v (hnew ▸ hv)) (fun _ _ => id) trivial rfl rfl
  case gDone =>
    obtain rfl := some.inj hs
    have hsame : (({ s with lock := none } : State T).goto t .user).low = s.low := by
      rw [State.low_of_free rfl, hlow]
      rfl
    exact h.holder ht rfl h.sz rfl hsame.ge (fun v hv => h.mapped v (hsame ▸ hv)) (fun _ _ => id)
      trivial rfl rfl
  case remap => cases hs

/-! ### Checks -/

omit [DecidableEq T] in
theorem user_fair : Pc.Fair s .user := ⟨rfl, trivial, by simp, by simp⟩

omit [DecidableEq T] in
theorem check_fair {todo : List Arg} {uses : List Use} (htodo : ∀ x ∈ todo, x.typed)
    (huses : ∀ u ∈ uses, u.Fits s) : (check todo uses).Fair s := by
  cases todo with
  | nil => exact ⟨rfl, trivial, huses, by simp [check]⟩
  | cons x todo => exact ⟨rfl, show 4 < 2 ^ 31 by decide, huses, htodo⟩

omit [DecidableEq T] in
theorem Arg.loaded_fair {x : Arg} {todo : List Arg} {uses : List Use}
    (htodo : ∀ y ∈ x :: todo, y.typed) (huses : ∀ u ∈ uses, u.Fits s) (addr : ℕ) :
    (x.loaded addr todo uses).Fair s := by
  obtain ⟨hx, hrest⟩ := forall_mem_cons.1 htodo
  cases x with
  | ptr word size =>
    simp only [Arg.typed, isInt, Bool.and_eq_true, decide_eq_true_eq] at hx
    simp only [Arg.loaded]
    split_ifs
    · exact user_fair
    · exact ⟨rfl, show size.toNat < 2 ^ 31 by omega, huses, hrest⟩
  | str word => exact ⟨rfl, trivial, huses, hrest⟩

omit [DecidableEq T] in
theorem Range.passed_fair {r : Range} {todo : List Arg} {uses : List Use}
    (hr : r.addr + r.size ≤ s.low) (htodo : ∀ x ∈ (Pc.pHigh r todo uses).todo, x.typed)
    (huses : ∀ u ∈ uses, u.Fits s) : (r.passed todo uses).Fair s := by
  cases r with
  | word x => exact ⟨rfl, hr, huses, htodo⟩
  | buf addr size =>
    refine check_fair htodo fun u hu => (mem_append.1 hu).elim (huses u) fun hu => ?_
    rw [mem_singleton.1 hu]
    exact hr

omit [DecidableEq T] in
/-- As long as the process is not made smaller, everything below `sz` is safe. -/
theorem State.low_of_not_shrinks (h : ∀ u, s.shrinks u = false) : s.low = s.sz := by
  cases hl : s.lock with
  | none => exact State.low_of_free hl
  | some u =>
    have hu := h u
    rw [State.low_of_holder hl]
    unfold State.shrinks at hu
    cases hpc : s.pc u <;> simp only [hpc, Pc.low] at hu ⊢
    · cases hu
    · simpa using hu

theorem Inv.go_checking (h : Inv s) {ok : Bool} (hch : (s.pc t).checking)
    (hshrink : ∀ u, s.shrinks u = false) (hs : s.go t ok = some s') : Inv s' := by
  have hlow := State.low_of_not_shrinks hshrink
  have hknows := h.knows t
  have huses := h.uses t
  have htodo := h.todo t
  have hl : (s.pc t).locked = false := by
    cases hpc : s.pc t <;> simp_all [Pc.checking, Pc.locked]
  have huser : Inv (s.goto t .user) := h.aside hl user_fair
  unfold State.go at hs
  cases hpc : s.pc t <;> simp only [hpc, Pc.checking, reduceCtorEq] at hch <;>
    simp only [hpc, Pc.uses] at hs hknows huses <;>
    rw [hpc] at htodo
  case pLow r todo uses =>
    obtain rfl := some.inj hs
    split_ifs with hle
    · exact huser
    · refine h.aside hl ⟨rfl, ⟨(not_le.1 hle).trans h.sz, hknows⟩, huses, ?_⟩
      cases r <;> exact htodo
  case pHigh r todo uses =>
    obtain rfl := some.inj hs
    obtain ⟨haddr, hsize⟩ := hknows
    split_ifs with hlt
    · exact huser
    · refine h.aside hl (Range.passed_fair ?_ htodo huses)
      simp only [KERNBASE] at haddr
      rw [Nat.mod_eq_of_lt (by omega)] at hlt
      omega
  case load x todo uses =>
    have hknows : x.word + 4 ≤ s.low := hknows
    rw [h.mapped x.word (by omega), h.mapped (x.word + 3) (by omega), Bool.and_self,
      if_pos rfl] at hs
    obtain rfl := some.inj hs
    exact h.aside hl (Arg.loaded_fair htodo huses _)
  case sLow addr todo uses =>
    obtain rfl := some.inj hs
    split_ifs
    · exact huser
    · exact h.aside hl ⟨rfl, trivial, huses, htodo⟩
  case sEnd addr todo uses =>
    obtain rfl := some.inj hs
    exact h.aside hl ⟨rfl, ⟨le_rfl, hlow.ge⟩, huses, htodo⟩
  case sScan addr pos ep todo uses =>
    obtain ⟨hpos, hep⟩ := hknows
    split_ifs at hs with hlt hmapped hbyte
    · have hm := h.mapped pos (lt_of_lt_of_le hlt hep)
      simp [hm] at hmapped
    · obtain rfl := some.inj hs
      refine h.aside hl (check_fair htodo fun u hu => (mem_append.1 hu).elim (huses u) fun hu => ?_)
      rw [mem_singleton.1 hu]
      exact ⟨by omega, by rwa [show addr + (pos - addr) = pos by omega]⟩
    · obtain rfl := some.inj hs
      exact h.aside hl ⟨rfl, ⟨by omega, hep⟩, huses, htodo⟩
    · obtain rfl := some.inj hs
      exact huser

omit [DecidableEq T] in
theorem Inv.write (h : Inv s) {addr : ℕ} {b : UInt8} (hok : s.sparesNul addr b) :
    Inv (s.write addr b) := by
  have hlow : (s.write addr b).low = s.low := by
    simp only [State.low, State.write]
  refine ⟨h.sz, h.lock, fun v hv => h.mapped v (hlow ▸ hv), fun t => (h.knows t).congr rfl rfl hlow,
    fun t x hx => ?_, h.todo⟩
  have hfits := h.uses t x hx
  cases x with
  | buf a n => exact (show a + n ≤ _ by rw [hlow]; exact hfits)
  | str a len =>
    refine ⟨by rw [hlow]; exact hfits.1, ?_⟩
    simp only [State.write, update_apply]
    split_ifs with ha
    · by_contra hb
      exact hok hb t _ hx (by rw [Use.nul, ha])
    · exact hfits.2

theorem Inv.next (h : Inv s) {a : Act T} (hok : Steady s a) (hs : s.next a = some s') : Inv s' := by
  have hcall : ∀ {t pc}, s.call t pc = some s' → pc.Fair s → Inv s' := fun {t pc} hc hf => by
    unfold State.call at hc
    split_ifs at hc with huser
    obtain rfl := some.inj hc
    exact h.aside (by rw [huser]; rfl) hf
  cases a with
  | sbrk t n =>
    simp only [State.next] at hs
    split_ifs at hs
    exact hcall hs ⟨rfl, trivial, by simp, by simp⟩
  | sysCall t args =>
    simp only [State.next] at hs
    split_ifs at hs with htyped
    exact hcall hs (check_fair (all_eq_true.1 htyped) (by simp))
  | go t ok =>
    cases hlk : (s.pc t).locked with
    | true => exact h.go_locked hlk hs
    | false =>
      cases hch : (s.pc t).checking with
      | true => exact h.go_checking hch (hok.2 hch) hs
      | false =>
        simp only [State.next, State.go] at hs
        cases hpc : s.pc t <;> simp only [hpc, Pc.locked, Pc.checking, reduceCtorEq] at hlk hch hs
        case gStart n =>
          split_ifs at hs with hfree
          obtain rfl := some.inj hs
          exact h.gStart hpc hfree hok
  | store t addr b =>
    simp only [State.next] at hs
    split_ifs at hs
    obtain rfl := some.inj hs
    exact h.write hok
  | copy t addr b =>
    simp only [State.next] at hs
    split at hs
    · rename_i uses hpc
      split_ifs at hs with hin hmapped
      · obtain rfl := some.inj hs
        exact h.write hok
      · -- the buffer is mapped
        obtain ⟨x, hx, hc⟩ := any_eq_true.1 hin
        have hfits := h.uses t x (by rw [hpc]; exact hx)
        cases x with
        | buf a n =>
          simp only [Use.contains, decide_eq_true_eq] at hc
          exact absurd (h.mapped addr (lt_of_lt_of_le hc.2 hfits)) hmapped
        | str a len => cases hc
    · cases hs
  | finish t =>
    simp only [State.next] at hs
    split at hs
    · rename_i uses hpc
      obtain rfl := some.inj hs
      exact h.aside (by rw [hpc]; rfl) user_fair
    · cases hs

end Steps

theorem inv_init {s : State T} (h : s.Tidy) : Inv s where
  sz := h.sz
  lock t := by simp [h.lock, h.pc t, Pc.locked]
  mapped v hv := h.mapped v (State.low_of_free h.lock ▸ hv)
  knows t := by simp [h.pc t, Pc.Knows]
  uses t := by simp [h.pc t]
  todo t := by simp [h.pc t]

/-! ## Whole runs -/

/-- The memory in use is below `sz` and mapped, and a string has an end below `sz`. -/
def Use.Safe (s : State T) : Use → Prop
  | .buf addr size => ∀ v, addr ≤ v → v < addr + size → v < s.sz ∧ s.mapped (v / PGSIZE)
  | .str addr len => (∀ v, addr ≤ v → v ≤ addr + len → v < s.sz ∧ s.mapped (v / PGSIZE)) ∧
      ∃ v, addr ≤ v ∧ v < s.sz ∧ s.byte v = 0

theorem Inv.low_le {s : State T} (h : Inv s) : s.low ≤ s.sz := by
  cases hl : s.lock with
  | none => exact (State.low_of_free hl).le
  | some t =>
    have hknows := h.knows t
    rw [State.low_of_holder hl]
    cases hpc : s.pc t <;> simp only [hpc, Pc.low, Pc.Knows] at hknows ⊢
    case gFree => exact hknows.2.2.1.le
    case gSet => exact min_le_right _ _
    all_goals exact le_rfl

theorem Use.Fits.safe {s : State T} (h : Inv s) {x : Use} (hx : x.Fits s) : x.Safe s := by
  have hbelow : ∀ v, v < s.low → v < s.sz ∧ s.mapped (v / PGSIZE) := fun v hv =>
    ⟨hv.trans_le h.low_le, h.mapped v hv⟩
  cases x with
  | buf addr size => exact fun v _ hv => hbelow v (hv.trans_le hx)
  | str addr len =>
    exact ⟨fun v _ hv => hbelow v (hv.trans_lt hx.1), addr + len, Nat.le_add_right ..,
      (hbelow _ hx.1).1, hx.2⟩

instance [Fintype T] (s : State T) (addr : ℕ) (b : UInt8) : Decidable (s.sparesNul addr b) :=
  inferInstanceAs (Decidable (b ≠ 0 → ∀ t, ∀ u ∈ (s.pc t).uses, u.nul ≠ some addr))

/-- No step of the run is one of `growproc`, so a check is never disturbed. -/
def quiet (s : State Bool) : Act Bool → Bool
  | .go t _ => decide (∀ u, s.shrinks u = false) && match s.pc t with
    | .gStart _ => false
    | _ => true
  | .store _ addr b | .copy _ addr b => decide (s.sparesNul addr b)
  | _ => true

end Xv6.UserMemory
