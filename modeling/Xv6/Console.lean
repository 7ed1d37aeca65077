import Xv6.Param
import Mathlib.Data.ZMod.Defs
import Mathlib.Data.Nat.Notation
import Xv6.Lib.Fifo
import Xv6.Lib.Machine

/-!
# The console

The input buffer of `console.c`, `consoleintr` and `consoleread`, the latter from the top of its
loop up to the next call of `sleep` or its end.  What `consoleintr` prints is left out.

`Reference` is the line discipline without the buffer.
-/

namespace Xv6.Console

open Fifo Function List Option Nat

def INPUT_BUF : ℕ := 128

instance : NeZero INPUT_BUF := ⟨by decide⟩

/-- `input`.  The indices are of type `uint` and wrap. -/
structure Input where
  buf : Fin INPUT_BUF → UInt8
  r : Fin (2 ^ 32)
  w : Fin (2 ^ 32)
  e : Fin (2 ^ 32)

/-- `C(x)`: control-x. -/
def C (x : Char) : UInt8 := .ofNat (x.toNat - '@'.toNat)

variable (input : Input)

def Input.char : UInt8 := input.buf (Fin.ofNat INPUT_BUF input.r.val)

def Input.byte (j : Fin (2 ^ 32)) : UInt8 := input.buf (Fin.ofNat INPUT_BUF j.val)

/-- The loop of `C('U')` in `consoleintr`. -/
def Input.killLine (input : Input) : Input :=
  if input.e ≠ input.w ∧ input.byte (input.e - 1) ≠ 10 then
    killLine { input with e := input.e - 1 } else input
termination_by (input.e - input.w).val
decreasing_by
  have hne : input.e - input.w ≠ 0 := sub_ne_zero.2 (by tauto)
  have hpos : (input.e - input.w).val ≠ 0 := fun h => hne (Fin.ext h)
  have hval : (input.e - 1 - input.w).val = (input.e - input.w).val - 1 := by
    rw [sub_right_comm, Fin.val_sub_one_of_ne_zero hne]
  show (input.e - 1 - input.w).val < _
  omega

def Input.backspace : Input :=
  if input.e ≠ input.w then { input with e := input.e - 1 } else input

def Input.store (c : UInt8) : Input :=
  { input with buf := update input.buf (Fin.ofNat INPUT_BUF input.e.val) c, e := input.e + 1 }

/-- `consoleintr` for one character that `getc` returns. -/
def consoleintr (c : UInt8) (input : Input) : Input :=
  if c = C 'P' then input
  else if c = C 'U' then input.killLine
  else if c = C 'H' ∨ c = 0x7f then input.backspace
  else if c ≠ 0 ∧ (input.e - input.r).val < INPUT_BUF then
    let c := if c = 13 then 10 else c
    let input := input.store c
    if c = 10 ∨ c = C 'D' ∨ input.e = input.r + Fin.ofNat (2 ^ 32) INPUT_BUF then
      { input with w := input.e }
    else input
  else input

/-- A stretch of `consoleread`: what it returns, or `none` if it ends in `sleep`; then `n`, the
buffer and what has been copied to `dst`. -/
structure Stretch where
  ret : Option ℤ
  n : ℕ
  input : Input
  dst : List UInt8

/-- The loop of `consoleread` with `n` bytes to go; `killed` is `myproc()->killed`. -/
def consoleread (killed : Bool) (target : ℕ) : ℕ → Input → List UInt8 → Stretch
  | 0, input, dst => ⟨some target, 0, input, dst⟩
  | n + 1, input, dst =>
    if input.r = input.w then
      if killed then ⟨some (-1), n + 1, input, dst⟩ else ⟨none, n + 1, input, dst⟩
    else
      let c := input.char
      if c = C 'D' then
        -- end of file: left for the next call if there are bytes to return
        ⟨some (target - (n + 1)), n + 1, if n + 1 < target then input else
          { input with r := input.r + 1 }, dst⟩
      else if c = 10 then ⟨some (target - n), n, { input with r := input.r + 1 }, dst ++ [c]⟩
      else consoleread killed target n { input with r := input.r + 1 } (dst ++ [c])

/-- A read of `n` bytes ends without more input: as many are committed, or an end of file or of a
line is. -/
def Input.Enough (n : ℕ) : Prop :=
  n ≤ (input.w - input.r).val ∨ ∃ j, j - input.r < input.w - input.r ∧
    (input.byte j = C 'D' ∨ input.byte j = 10)

theorem Input.enough_succ {input : Input} {n : ℕ} (hne : input.r ≠ input.w)
    (heof : input.char ≠ C 'D') (hline : input.char ≠ 10) : input.Enough (n + 1) ↔
    { input with r := input.r + 1 }.Enough n := by
  -- one step from `r` on the ring
  have hstep : ∀ j : Fin (2 ^ 32), j ≠ input.r → (j - (input.r + 1)).val + 1 = (j - input.r).val :=
    fun j hj => by
    have hsub : j - input.r ≠ 0 := sub_ne_zero.2 hj
    have hpos : (j - input.r).val ≠ 0 := fun h => hsub (Fin.ext h)
    rw [← sub_sub, Fin.val_sub_one_of_ne_zero hsub]
    omega
  have hw := hstep input.w (Ne.symm hne)
  refine or_congr (by dsimp only; omega) (exists_congr fun j => and_congr_left fun hj => ?_)
  have hjr : j ≠ input.r := by
    rintro rfl
    exact hj.elim heof hline
  have := hstep j hjr
  rw [Fin.lt_def, Fin.lt_def]
  dsimp only
  omega

theorem consoleread_isSome (killed : Bool) (target n : ℕ) (input : Input) (dst : List UInt8) :
    (consoleread killed target n input dst).ret.isSome ↔ killed ∨ input.Enough n := by
  induction n generalizing input dst with
  | zero => exact iff_of_true rfl (.inr (.inl (zero_le _)))
  | succ n ih =>
    rw [consoleread]
    by_cases hempty : input.r = input.w
    · cases killed <;> simp [hempty, Input.Enough]
    have hmem : input.char = C 'D' ∨ input.char = 10 → input.Enough (n + 1) := fun h =>
      .inr ⟨input.r, by rw [sub_self, Fin.pos_iff_ne_zero, sub_ne_zero]; exact Ne.symm hempty, h⟩
    rw [if_neg hempty]
    dsimp only
    by_cases heof : input.char = C 'D'
    · rw [if_pos heof]
      exact iff_of_true rfl (.inr (hmem (.inl heof)))
    rw [if_neg heof]
    by_cases hline : input.char = 10
    · rw [if_pos hline]
      exact iff_of_true rfl (.inr (hmem (.inr hline)))
    · rw [if_neg hline, ih, Input.enough_succ hempty heof hline]

/-! ## The line discipline -/

/-- The bytes committed so far, and the line after the last committed position. -/
structure Reference where
  stream : List UInt8
  line : List UInt8

namespace Reference

/-- The bytes typed that have not been read, if `taken` have been. -/
def held (ref : Reference) (taken : ℕ) : ℕ := ref.stream.length + ref.line.length - taken

def add (ref : Reference) (taken : ℕ) (c : UInt8) : Reference :=
  let ref := { ref with line := ref.line ++ [c] }
  if c = 10 ∨ c = C 'D' ∨ ref.held taken = INPUT_BUF then ⟨ref.stream ++ ref.line, []⟩ else ref

/-- A character is typed when `taken` bytes have been read. -/
def type (ref : Reference) (taken : ℕ) (c : UInt8) : Reference :=
  if c = 0 ∨ c = C 'P' then ref
  else if c = C 'U' then { ref with line := [] }
  else if c = C 'H' ∨ c = 0x7f then { ref with line := ref.line.dropLast }
  else if ref.held taken = INPUT_BUF then ref
  else ref.add taken (if c = 13 then 10 else c)

end Reference

/-- How a stretch of a read ends that has delivered `new`, after `got` bytes in earlier stretches,
with the value that `consoleread` returns. -/
inductive Ends (killed : Bool) (got n : ℕ) (pending new : List UInt8) : Option ℤ → Prop where
  | all (h : new.length = n) : Ends killed got n pending new (some (got + new.length))
  | newline (h : new.getLast? = some 10) : Ends killed got n pending new (some (got + new.length))
  | eof (h : new ++ [C 'D'] <+: pending) : Ends killed got n pending new (some (got + new.length))
  | killed (hkilled : killed) (h : new = pending) (hlt : new.length < n) :
      Ends killed got n pending new (some (-1))
  | sleep (h : new = pending) (hlt : new.length < n) : Ends killed got n pending new none

/-- What a read of `n` more bytes delivers of the bytes that have been committed and not read. -/
structure Reads (killed : Bool) (got n : ℕ) (pending new : List UInt8) (ret : Option ℤ) : Prop where
  first : new <+: pending
  length : new.length ≤ n
  newline : 10 ∉ new.dropLast
  eof : C 'D' ∉ new
  ends : Ends killed got n pending new ret

/-! ## Threads -/

/-- A call of `consoleread` that has not returned. -/
structure Call where
  target : ℕ
  n : ℕ
  dst : List UInt8

structure State (T : Type) where
  input : Input
  call : T → Option Call
  ref : Reference
  /-- The bytes that reads have taken from the buffer: those delivered, and each `^D` for which a
  read returned 0. -/
  taken : List UInt8
  delivered : List UInt8

/-- A character for `consoleintr`, a call of `consoleread`, and its next stretch. -/
inductive Act (T : Type) where
  | intr (c : UInt8)
  | read (t : T) (n : ℕ)
  | go (t : T) (killed : Bool)

section

variable {T : Type} [DecidableEq T]

def State.go (s : State T) (t : T) (killed : Bool) (call : Call) : State T :=
  let out := consoleread killed call.target call.n s.input call.dst
  let new := out.dst.drop call.dst.length
  { s with
    input := out.input
    call := update s.call t (if out.ret.isSome then none else some ⟨call.target, out.n, out.dst⟩)
    taken := s.taken ++ if out.ret = some 0 then [C 'D'] else new
    delivered := s.delivered ++ new }

def State.next (s : State T) : Act T → Option (State T)
  | .intr c => some { s with input := consoleintr c s.input, ref := s.ref.type s.taken.length c }
  | .read t n =>
    if s.call t = none ∧ 0 < n then some { s with call := update s.call t (some ⟨n, n, []⟩) } else
      none
  | .go t killed => (s.call t).map (s.go t killed)

/-- `input` is in the data segment: all zero. -/
structure State.Start (s : State T) : Prop where
  input : s.input = ⟨fun _ => 0, 0, 0, 0⟩
  call : ∀ t, s.call t = none
  ref : s.ref = ⟨[], []⟩
  taken : s.taken = []
  delivered : s.delivered = []

def console (T : Type) [DecidableEq T] : Machine.Sys (State T) (Act T) where
  init := State.Start
  next := State.next

end

/-! ## The buffer holds the end of the reference -/

def Input.ring : Buffer INPUT_BUF (2 ^ 32) UInt8 := ⟨input.buf, input.r, input.e⟩

/-- The bytes between `r` and `w` and those between `w` and `e`. -/
structure Holds (input : Input) (pending line : List UInt8) : Prop where
  contents : input.ring.contents = pending ++ line
  committed : (input.w - input.r).val = pending.length
  size : input.ring.size ≤ INPUT_BUF
  newline : 10 ∉ line

section

variable {input : Input} {pending line : List UInt8} {c : UInt8}

theorem Holds.size_eq (h : Holds input pending line) :
    input.ring.size = pending.length + line.length := by
  rw [← Buffer.length_contents, h.contents, length_append]

theorem Holds.edit_iff (h : Holds input pending line) : input.e = input.w ↔ line = [] := by
  have hsize : (input.e - input.r).val = pending.length + line.length := h.size_eq
  have hcommitted := h.committed
  rw [← length_eq_zero_iff, ← sub_left_inj (a := input.r), Fin.ext_iff]
  omega

theorem Holds.read_iff (h : Holds input pending line) : input.r = input.w ↔ pending = [] := by
  rw [← length_eq_zero_iff, ← h.committed, eq_comm, ← sub_eq_zero, Fin.ext_iff]
  rfl

/-- `input.e--`. -/
theorem Holds.erase {x : UInt8} (h : Holds input pending (line ++ [x])) :
    Holds { input with e := input.e - 1 } pending line ∧ input.byte (input.e - 1) = x := by
  have hsize : input.ring.size = pending.length +
    (line.length + 1) := by rw [h.size_eq, length_append]; rfl
  have hpos : 0 < input.ring.size := by omega
  have hcontents := h.contents
  rw [Buffer.contents_retract _ (by decide) hpos, ← append_assoc] at hcontents
  obtain ⟨hcontents, hlast⟩ := append_inj' hcontents rfl
  have hretract := input.ring.size_retract hpos
  have hle := h.size
  refine ⟨⟨hcontents, h.committed, ?_, ?_⟩, singleton_inj.1 hlast⟩
  · show input.ring.retract.size ≤ INPUT_BUF
    omega
  · exact fun hmem => h.newline (mem_append_left _ hmem)

theorem Holds.backspace (h : Holds input pending line) :
    Holds input.backspace pending line.dropLast := by
  unfold Input.backspace
  rcases eq_nil_or_concat line with rfl | ⟨line, x, rfl⟩
  · rw [if_neg (not_not.2 (h.edit_iff.2 rfl))]
    exact h
  · rw [concat_eq_append] at h ⊢
    rw [if_pos (mt h.edit_iff.1 (by simp)), dropLast_concat]
    exact h.erase.1

/-- No newline stops the loop of `C('U')`, since the line that is edited has none. -/
theorem Holds.killLine (h : Holds input pending line) : Holds input.killLine pending [] := by
  induction line using reverseRecOn generalizing input with
  | nil =>
    rw [Input.killLine, if_neg fun ⟨hne, _⟩ => hne (h.edit_iff.2 rfl)]
    exact h
  | append_singleton line x ih =>
    have hx : x ≠ 10 := fun hx => h.newline (by simp [hx])
    have hedit : input.e ≠ input.w := mt h.edit_iff.1 (by simp)
    rw [Input.killLine, if_pos ⟨hedit, by rwa [h.erase.2]⟩]
    exact ih h.erase.1

theorem Input.killLine_buf : input.killLine.buf = input.buf := by
  induction input using Input.killLine.induct with
  | case1 input htest ih => rw [Input.killLine, if_pos htest, ih]
  | case2 input htest => rw [Input.killLine, if_neg htest]

theorem Holds.store (h : Holds input pending line) (hroom : input.ring.size < INPUT_BUF) :
    Holds { input.store c with w := input.e + 1 } (pending ++ (line ++ [c])) [] ∧
      (c ≠ 10 → Holds (input.store c) pending (line ++ [c])) := by
  have hcontents : (input.store c).ring.contents = pending ++ (line ++ [c]) := by
    rw [← append_assoc, ← h.contents]
    exact Buffer.contents_push _ c (by decide) hroom (by decide)
  have hsize : (input.store c).ring.size ≤ INPUT_BUF := by
    rw [show (input.store c).ring = input.ring.push c from rfl,
      Buffer.size_push _ c hroom (by decide)]
    exact hroom
  refine ⟨⟨?_, ?_, hsize, not_mem_nil⟩, fun hc => ⟨hcontents, h.committed, hsize, ?_⟩⟩
  · rw [append_nil]
    exact hcontents
  · rw [← hcontents, Buffer.length_contents]
    rfl
  · rw [mem_append, mem_singleton]
    rintro (hmem | hmem)
    · exact h.newline hmem
    · exact hc hmem.symm

/-- A character has the same effect on the buffer and on the reference. -/
theorem Holds.type (h : Holds input pending line) (taken : List UInt8) (c : UInt8) :
    ∃ pending' line', Reference.type ⟨taken ++ pending, line⟩ taken.length c = ⟨taken ++ pending',
      line'⟩ ∧ Holds (consoleintr c input) pending' line' := by
  unfold Reference.type consoleintr
  by_cases hP : c = C 'P'
  · rw [if_pos (.inr hP), if_pos hP]
    exact ⟨_, _, rfl, h⟩
  rw [if_neg hP]
  by_cases h0 : c = 0
  · subst h0
    rw [if_pos (.inl rfl), if_neg (by decide), if_neg (by decide), if_neg (by simp)]
    exact ⟨_, _, rfl, h⟩
  rw [if_neg (by tauto)]
  by_cases hU : c = C 'U'
  · rw [if_pos hU, if_pos hU]
    exact ⟨_, _, rfl, h.killLine⟩
  rw [if_neg hU, if_neg hU]
  by_cases hH : c = C 'H' ∨ c = 0x7f
  · rw [if_pos hH, if_pos hH]
    exact ⟨_, _, rfl, h.backspace⟩
  rw [if_neg hH, if_neg hH]
  have hheld : Reference.held ⟨taken ++ pending, line⟩ taken.length = input.ring.size := by
    rw [Reference.held, length_append, h.size_eq]
    dsimp only
    omega
  rw [hheld]
  by_cases hfull : input.ring.size = INPUT_BUF
  · rw [if_pos hfull, if_neg fun ⟨_, hlt⟩ => hlt.ne hfull]
    exact ⟨_, _, rfl, h⟩
  have hroom : input.ring.size < INPUT_BUF := lt_of_le_of_ne h.size hfull
  have hkey : c ≠ 0 ∧ (input.e - input.r).val < INPUT_BUF := ⟨h0, hroom⟩
  rw [if_neg hfull, if_pos hkey]
  generalize (if c = 13 then 10 else c) = c
  obtain ⟨hcommit, hedit⟩ := h.store (c := c) hroom
  have hheld : Reference.held ⟨taken ++ pending, line ++ [c]⟩ taken.length =
    (input.store c).ring.size := by
    rw [show (input.store c).ring = input.ring.push c from rfl,
      Buffer.size_push _ c hroom (by decide), ← hheld]
    simp only [Reference.held, length_append, length_singleton]
    omega
  have htest : (c = 10 ∨ c = C 'D' ∨ Reference.held ⟨taken ++ pending, line ++ [c]⟩ taken.length =
    INPUT_BUF) ↔
      (c = 10 ∨ c = C 'D' ∨ (input.store c).e = (input.store c).r + Fin.ofNat (2 ^ 32)
        INPUT_BUF) := by
    rw [hheld, (input.store c).ring.size_eq_iff (by decide)]
    rfl
  dsimp only [Reference.add]
  by_cases hends : c = 10 ∨ c = C 'D' ∨
    Reference.held ⟨taken ++ pending, line ++ [c]⟩ taken.length = INPUT_BUF
  · rw [if_pos hends, if_pos (htest.1 hends)]
    exact ⟨_, _, by rw [append_assoc], hcommit⟩
  · rw [if_neg hends, if_neg (mt htest.2 hends)]
    exact ⟨_, _, rfl, hedit fun hc => hends (.inl hc)⟩

/-- `consoleintr` writes to no cell between `r` and `w`. -/
theorem Holds.byte_consoleintr (h : Holds input pending line) {j : Fin (2 ^ 32)}
    (hj : (j - input.r).val < (input.w - input.r).val) :
    (consoleintr c input).byte j = input.byte j := by
  have hstore (hroom : input.ring.size < INPUT_BUF) (c : UInt8) :
    (input.store c).byte j = input.byte j := by
    have hlt : (j - input.r).val < input.ring.size := by
      rw [h.size_eq, ← h.committed]
      omega
    have hne := input.ring.slot_ne (by decide) hlt hroom
    rw [Buffer.slot_size _ (by decide)] at hne
    have hslot : input.ring.slot (j - input.r).val = Fin.ofNat INPUT_BUF j.val := by
      rw [Buffer.slot, Fin.ofNat_val_eq_self]
      exact congrArg (Fin.ofNat INPUT_BUF ·.val) (add_sub_cancel input.r j)
    rw [hslot] at hne
    exact update_of_ne hne _ _
  unfold consoleintr
  split
  · rfl
  split
  · rw [Input.byte, Input.killLine_buf]
    rfl
  split
  · unfold Input.backspace
    split <;> rfl
  split
  case isTrue hkey =>
    generalize (if c = 13 then 10 else c) = c
    dsimp only
    split <;> exact hstore hkey.2 c
  case isFalse => rfl

/-! ## Reading -/

theorem Holds.next (h : Holds input (c :: pending) line) :
    input.char = c ∧ Holds { input with r := input.r + 1 } pending line := by
  have hsize : input.ring.size = pending.length + 1 + line.length := h.size_eq
  have hpos : 0 < input.ring.size := by omega
  have hcontents := h.contents
  rw [Buffer.contents_pop _ hpos, cons_append, cons.injEq] at hcontents
  have hpop := input.ring.size_pop hpos
  have hle := h.size
  refine ⟨hcontents.1, hcontents.2, ?_, ?_, h.newline⟩
  · have hval := h.committed
    have hne : input.w - input.r ≠ 0 := fun heq => by simp [heq] at hval
    show (input.w - (input.r + 1)).val = _
    rw [← sub_sub, Fin.val_sub_one_of_ne_zero hne, hval]
    rfl
  · show input.ring.pop.size ≤ INPUT_BUF
    omega

section

variable {killed : Bool} {got n : ℕ}

section

variable {pending new : List UInt8} {ret : Option ℤ} (h : Ends killed got n pending new ret)

include h

theorem Ends.ret_ne_zero (hgot : 0 < got + new.length) : ret ≠ some 0 := by
  cases h with
  | all _ | newline _ | eof _ =>
    rw [Ne, some_inj]
    omega
  | killed _ _ _ | sleep _ _ => simp

theorem Ends.length_lt (hret : ret.isSome = false) : new.length < n := by
  cases h with
  | sleep _ hlt => exact hlt
  | all _ | newline _ | eof _ | killed _ _ _ => cases hret

end

/-- A read that begins at a `^D` delivers nothing. -/
theorem Reads.ret_of_eof {new : List UInt8} {ret : Option ℤ}
    (h : Reads killed got n pending new ret) (hn : 0 < n) (heof : [C 'D'] <+: pending) :
    ret = some (got : ℤ) := by
  obtain ⟨rest, rfl⟩ := heof
  have hnil : new = [] := by
    cases new with
    | nil => rfl
    | cons x new =>
      have hx : x = C 'D' := (cons_prefix_cons.1 h.first).1
      exact absurd (hx ▸ mem_cons_self) h.eof
  subst hnil
  cases h.ends with
  | all hlength => exact absurd hlength hn.ne
  | newline hlast => cases hlast
  | eof _ => simp
  | killed _ hall _ | sleep hall _ => cases hall

theorem Reads.cons {new : List UInt8} {ret : Option ℤ}
    (h : Reads killed (got + 1) n pending new ret) (hnewline : c ≠ 10) (heof : c ≠ C 'D') :
    Reads killed got (n + 1) (c :: pending) (c :: new) ret := by
  have hlength : ((got : ℤ) + (c :: new).length) = ((got + 1 : ℕ) : ℤ) + new.length := by
    rw [length_cons]
    omega
  refine ⟨cons_prefix_cons.2 ⟨rfl, h.first⟩, succ_le_succ h.length, ?_, ?_, ?_⟩
  · cases new with
    | nil => exact not_mem_nil
    | cons x new =>
      rw [dropLast_cons_cons, mem_cons]
      rintro (heq | hmem)
      · exact hnewline heq.symm
      · exact h.newline hmem
  · rw [mem_cons]
    rintro (heq | hmem)
    · exact heof heq.symm
    · exact h.eof hmem
  · cases h.ends with
    | all hall => exact hlength ▸ .all (congrArg (· + 1) hall)
    | newline hlast =>
      refine hlength ▸ .newline ?_
      rw [getLast?_cons, hlast]
      rfl
    | eof hpre => exact hlength ▸ .eof (cons_prefix_cons.2 ⟨rfl, hpre⟩)
    | killed hkilled heq hlt => exact .killed hkilled (congrArg _ heq) (succ_lt_succ hlt)
    | sleep heq hlt => exact .sleep (congrArg _ heq) (succ_lt_succ hlt)

theorem Reads.nil {ret : Option ℤ} (h : Ends killed got n pending [] ret) :
    Reads killed got n pending [] ret :=
  ⟨ nil_prefix, zero_le _, not_mem_nil, not_mem_nil, h⟩

end

/-- A stretch of a read with `n` bytes to go, by induction on `n`. -/
theorem Holds.consoleread (killed : Bool) {target n : ℕ} {dst : List UInt8}
    (h : Holds input pending line) (htarget : dst.length + n = target) (hpos : 0 < target) :
    ∃ new rest, (consoleread killed target n input dst).dst = dst ++ new ∧
      (consoleread killed target n input dst).n + new.length = n ∧
      (consoleread killed target n input dst).input.buf = input.buf ∧
      Reads killed dst.length n pending new (consoleread killed target n input dst).ret ∧
      pending = (if (consoleread killed target n input dst).ret = some 0 then [C 'D'] else new) ++
      rest ∧ Holds (consoleread killed target n input dst).input rest line := by
  induction n generalizing input dst pending with
  | zero =>
    have hret : (target : ℤ) = dst.length + ([] : List UInt8).length := by simp [← htarget]
    rw [Console.consoleread, hret]
    refine ⟨[], pending, (append_nil _).symm, rfl, rfl, .nil (.all rfl), ?_, h⟩
    rw [if_neg (by rw [some_inj]; omega), nil_append]
  | succ n ih =>
    cases pending with
    | nil =>
      rw [Console.consoleread, if_pos (h.read_iff.2 rfl)]
      cases killed with
      | true =>
        exact ⟨[], [], (append_nil _).symm, rfl, rfl, .nil (.killed rfl rfl n.succ_pos), rfl, h⟩
      | false => exact ⟨[], [], (append_nil _).symm, rfl, rfl, .nil (.sleep rfl n.succ_pos), rfl, h⟩
    | cons c pending =>
      obtain ⟨hchar, hnext⟩ := h.next
      rw [Console.consoleread, if_neg (mt h.read_iff.1 (by simp)), hchar]
      dsimp only
      by_cases heof : c = C 'D'
      · have hret : (target : ℤ) - (n + 1) = dst.length + ([] : List UInt8).length := by
          rw [length_nil]
          omega
        have hends : Ends killed dst.length (n + 1) (c :: pending) []
          (some (dst.length + ([] : List UInt8).length)) :=
          .eof (cons_prefix_cons.2 ⟨heof.symm, nil_prefix⟩)
        rw [if_pos heof, hret]
        by_cases hsome : n + 1 < target
        · rw [if_pos hsome]
          refine ⟨[], c :: pending, (append_nil _).symm, rfl, rfl, .nil hends, ?_, h⟩
          rw [if_neg (by rw [some_inj, length_nil]; omega), nil_append]
        · rw [if_neg hsome]
          refine ⟨[], pending, (append_nil _).symm, rfl, rfl, .nil hends, ?_, hnext⟩
          rw [if_pos (by rw [some_inj, length_nil]; omega), heof, singleton_append]
      rw [if_neg heof]
      by_cases hline : c = 10
      · have hret : (target : ℤ) - n = dst.length + [c].length := by
          rw [length_singleton]
          omega
        rw [if_pos hline, hret]
        refine ⟨[c], pending, rfl, rfl, rfl,
          ⟨cons_prefix_cons.2 ⟨rfl, nil_prefix⟩, ?_, not_mem_nil, ?_,
            .newline (congrArg some hline)⟩, ?_, hnext⟩
        · exact succ_le_succ (zero_le n)
        · exact fun hmem => heof (mem_singleton.1 hmem).symm
        · rw [if_neg (by rw [some_inj, length_singleton]; omega), singleton_append]
      · rw [if_neg hline]
        have hlength : (dst ++ [c]).length = dst.length + 1 := length_append
        obtain ⟨new, rest, hdst, hn, hbuf, hreads, hrest, hholds⟩ :=
          ih hnext (show (dst ++ [c]).length + n = target by omega)
        rw [if_neg (hreads.ends.ret_ne_zero (by omega))] at hrest
        rw [hlength] at hreads
        refine ⟨c :: new, rest, ?_, ?_, hbuf, hreads.cons hline heof, ?_, hholds⟩
        · rw [hdst, append_assoc, singleton_append]
        · rw [length_cons]
          omega
        · rw [if_neg (hreads.ends.ret_ne_zero (by omega)), hrest, cons_append]

end

/-! ## Runs -/

section

variable {T : Type} {s : State T} {pending : List UInt8}

def Call.Ok (call : Call) : Prop := 0 < call.n ∧ call.dst.length + call.n = call.target

/-- The buffer holds the bytes of the reference that have not been taken. -/
structure Inv (s : State T) (pending : List UInt8) : Prop where
  stream : s.ref.stream = s.taken ++ pending
  holds : Holds s.input pending s.ref.line
  delivered : s.delivered = s.taken.filter (· ≠ C 'D')
  call : ∀ t, ∀ call ∈ s.call t, call.Ok

theorem Inv.start (h : s.Start) : Inv s [] := by
  refine ⟨by rw [h.ref, h.taken]; rfl, ?_, by rw [h.delivered, h.taken]; rfl, fun t call ht => ?_⟩
  · rw [h.input, h.ref]
    exact ⟨rfl, rfl, zero_le _, not_mem_nil⟩
  · rw [h.call t] at ht
    cases ht

theorem Inv.intr (inv : Inv s pending) (c : UInt8) :
    ∃ pending', Inv { s with input := consoleintr c s.input, ref := s.ref.type s.taken.length c }
    pending' := by
  have href : s.ref = ⟨s.taken ++ pending, s.ref.line⟩ := by rw [← inv.stream]
  obtain ⟨pending', line', htype, hholds⟩ := inv.holds.type s.taken c
  rw [← href] at htype
  exact ⟨pending', congrArg _ htype, by rw [htype]; exact hholds, inv.delivered, inv.call⟩

theorem Inv.dist (inv : Inv s pending) : (s.input.w - s.input.r).val ≤ (s.input.e - s.input.r).val ∧
      (s.input.e - s.input.r).val ≤ INPUT_BUF := by
  have hsize : (s.input.e - s.input.r).val = pending.length + s.ref.line.length := inv.holds.size_eq
  refine ⟨?_, inv.holds.size⟩
  rw [hsize, inv.holds.committed]
  exact le_add_right _ _

variable [DecidableEq T]

/-- The bytes taken are those delivered, or the `^D` for which a read returns 0. -/
theorem Inv.go {t : T} {call : Call} (inv : Inv s pending) (killed : Bool)
    (hcall : s.call t = some call) : (∃ rest, Inv (s.go t killed call) rest) ∧
    (s.go t killed call).input.buf = s.input.buf ∧ Reads killed call.dst.length call.n pending
        ((consoleread killed call.target call.n s.input call.dst).dst.drop call.dst.length)
        (consoleread killed call.target call.n s.input call.dst).ret := by
  obtain ⟨hn, htarget⟩ := inv.call t call hcall
  obtain ⟨new, rest, hdst, hto, hbuf, hreads, hrest, hholds⟩ :=
    inv.holds.consoleread killed htarget (by omega)
  unfold State.go
  generalize consoleread killed call.target call.n s.input call.dst = out at *
  have hnew : out.dst.drop call.dst.length = new := by rw [hdst, drop_left]
  refine ⟨⟨rest, ?_, hholds, ?_, ?_⟩, hbuf, hnew ▸ hreads⟩
  · dsimp only
    rw [hnew, append_assoc, ← hrest, inv.stream]
  · dsimp only
    rw [hnew, filter_append, ← inv.delivered]
    congr 1
    by_cases hzero : out.ret = some 0
    · have hnil : new.length = 0 := by
        by_contra hlength
        exact hreads.ends.ret_ne_zero (by omega) hzero
      rw [if_pos hzero, length_eq_zero_iff.1 hnil]
      decide
    · rw [if_neg hzero, eq_comm, filter_eq_self]
      intro x hx
      exact decide_eq_true fun heq => hreads.eof (heq ▸ hx)
  · refine (forall_update_iff s.call fun _ c => ∀ call ∈ c, call.Ok).2 ⟨fun call' hcall' => ?_,
      fun t' _ => inv.call t'⟩
    split_ifs at hcall' with hret
    · cases hcall'
    · cases hcall'
      have hlt := hreads.ends.length_lt (Bool.eq_false_iff.2 hret)
      rw [Call.Ok, hdst, length_append]
      dsimp only
      omega

theorem Inv.next {s' : State T} {i : Act T} (inv : Inv s pending) (h : s.next i = some s') :
    (∃ pending', Inv s' pending') ∧ ∀ j, (j - s.input.r).val < (s.input.w - s.input.r).val →
      s'.input.byte j = s.input.byte j := by
  cases i with
  | intr c =>
    cases h
    exact ⟨inv.intr c, fun j hj => inv.holds.byte_consoleintr hj⟩
  | read t n =>
    simp only [State.next] at h
    split_ifs at h with hread
    cases h
    refine ⟨⟨pending, inv.stream, inv.holds, inv.delivered, ?_⟩, fun _ _ => rfl⟩
    refine (forall_update_iff s.call fun _ c => ∀ call ∈ c, call.Ok).2 ⟨fun call' hcall' => ?_,
      fun t' _ => inv.call t'⟩
    cases hcall'
    exact ⟨hread.2, zero_add n⟩
  | go t killed =>
    obtain ⟨call, hcall, rfl⟩ := map_eq_some_iff.1 h
    obtain ⟨hinv, hbuf, -⟩ := inv.go killed hcall
    exact ⟨hinv, fun j _ => congrFun hbuf _⟩

/-- The line discipline, in every state that is reached.  The bytes between `r` and `w` stay as they
are, and each stretch of a read is one that the bytes of the reference allow. -/
theorem line_discipline (hs : (console T).Reachable s) :
    (s.input.w - s.input.r).val ≤ (s.input.e - s.input.r).val ∧
      (s.input.e - s.input.r).val ≤ INPUT_BUF ∧ (∀ i s', s.next i = some s' →
        ∀ j, (j - s.input.r).val < (s.input.w - s.input.r).val → s'.input.byte j = s.input.byte j) ∧
      s.taken <+: s.ref.stream ∧ s.delivered = s.taken.filter (· ≠ C 'D') ∧
      ∀ t killed call, s.call t = some call →
        let out := consoleread killed call.target call.n s.input call.dst
        let pending := s.ref.stream.drop s.taken.length
        Reads killed call.dst.length call.n pending (out.dst.drop call.dst.length) out.ret ∧
          (call.dst = [] → [C 'D'] <+: pending →
            out.ret = some 0 ∧ (s.go t killed call).taken = s.taken ++ [C 'D']) := by
  have hinv : ∃ pending, Inv s pending := by
    refine Machine.Sys.Reachable.invariant (I := fun s => ∃ pending, Inv s pending) ?_ ?_ hs
    · intro s hstart
      exact ⟨[], .start hstart⟩
    · intro s i s' ⟨pending, inv⟩ hnext
      exact (inv.next hnext).1
  obtain ⟨pending, inv⟩ := hinv
  refine ⟨inv.dist.1, inv.dist.2, fun i s' hnext => (inv.next hnext).2, ⟨pending, inv.stream.symm⟩,
    inv.delivered, fun t killed call hcall => ?_⟩
  dsimp only
  rw [inv.stream, drop_left]
  obtain ⟨-, -, hreads⟩ := inv.go killed hcall
  refine ⟨hreads, fun hdst heof => ?_⟩
  have hret : (consoleread killed call.target call.n s.input call.dst).ret = some 0 := by
    rw [hreads.ret_of_eof (inv.call t call hcall).1 heof, hdst]
    rfl
  refine ⟨hret, ?_⟩
  simp only [State.go]
  rw [if_pos hret]

end

/-- The input after `^D`, with a thread that reads. -/
def atEof : State Unit where
  input := ⟨update (fun _ => 0) 0 (C 'D'), 0, 1, 1⟩
  call := update (fun _ => none) () (some ⟨5, 5, []⟩)
  ref := ⟨[C 'D'], []⟩
  taken := []
  delivered := []

theorem line_discipline_atEof :
    (console Unit).Reachable atEof ∧ (consoleread false 5 5 atEof.input []).ret = some 0 := by
  have hs : (console Unit).Reachable atEof := by
    refine Machine.Sys.reachable_of_run (l := [.intr (C 'D'), .read () 5])
      (.init (s := ⟨⟨fun _ => 0, 0, 0, 0⟩, fun _ => none, ⟨[], []⟩, [], []⟩) ⟨rfl, fun _ => rfl,
        rfl, rfl, rfl⟩) ?_
    rfl
  obtain ⟨-, -, -, -, -, hreads⟩ := line_discipline hs
  exact ⟨hs, ((hreads () false ⟨5, 5, []⟩ rfl).2 rfl prefix_rfl).1⟩

end Xv6.Console
