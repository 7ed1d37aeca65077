import Xv6.Fs.LogCount
import Xv6.Lib.Tally

/-!
# Writers that share a file

Threads call `filewrite` on one open file.  A call releases the lock of the inode between two
chunks, so that the chunks of different calls are in any order; the offset is read and moved under
the lock.  `pieces` records the chunks in the order in which they are written, and no step reads it.

`Inv` is what holds of every state: the bytes written so far are the pieces, one after the other,
from the first offset on, and the pieces of a thread with what is left of its buffer are its chunks.
-/

namespace Xv6.FS.SharedWrite

open Fallible Overwrite Tally Function List State Dev Finset Nat Prod

variable {P T : Type}

/-! ## The machine -/

inductive Pc where
  | start
  /-- At `while(i < n)`. -/
  | head
  /-- After `begin_op`. -/
  | op
  /-- After `ilock`. -/
  | locked
  /-- After `writei`, which returned `r`. -/
  | written (r : Option ℕ)
  /-- After `f->off += r`. -/
  | moved (r : Option ℕ)
  /-- After `iunlock`. -/
  | unlocked (r : Option ℕ)
  /-- The call has returned. -/
  | done (r : ℤ)
  deriving DecidableEq

/-- A call, with what is left of its buffer. -/
structure Call where
  pc : Pc
  left : List UInt8
  deriving DecidableEq

structure Shared (P T : Type) where
  st : State P
  call : T → Call
  panic : Option Panic
  pieces : List (T × List UInt8)

section machine

variable [DecidableEq T]

def Shared.goto (s : Shared P T) (t : T) (pc : Pc) : Shared P T :=
  { s with call := update s.call t { s.call t with pc := pc } }

/-- A thread runs a part of the kernel; after a panic nothing runs. -/
def Shared.exec {α : Type} (s : Shared P T) (m : M P α) (k : Shared P T → α → Shared P T) :
    Option (Shared P T) :=
  match m s.st with
  | (.ok a, st) => some (k { s with st := st } a)
  | (.error e, st) => some { s with st := st, panic := some e }

end machine

/-- `begin_op` does not wait: the log has room for one more operation. -/
def admits (s : State P) : Prop := s.dev.logged.toFinset.card + (s.outstanding + 1) * MAXOPBLOCKS ≤
    LOGSIZE

instance (s : State P) : Decidable (admits s) := inferInstanceAs (Decidable (_ ≤ _))

section machine

variable [DecidableEq T]

/-- The next step of thread `t`, which writes `src t` to the file `f`.  Of the types of files,
`FD_INODE` is modelled. -/
def next (src : T → List UInt8) (f : Fin NFILE) (s : Shared P T) (t : T) : Option (Shared P T) :=
  let x := s.st.ftable f
  let left := (s.call t).left
  if s.panic.isSome then none
  else match (s.call t).pc with
    | .start =>
      if x.writable = false then some (s.goto t (.done (-1)))
      else if x.type = .inode then some (s.goto t .head) else none
    | .head =>
      if left = [] then some (s.goto t (.done (src t).length))
      else if admits s.st then s.exec beginOp fun s _ => s.goto t .op else none
    | .op =>
      if (s.st.icache x.ip).locked then none else s.exec (ilock x.ip) fun s _ => s.goto t .locked
    | .locked => s.exec (writeInode x.ip (left.take CHUNK) x.off) fun s r =>
      { s.goto t (.written r) with
        pieces := if r.isSome then s.pieces ++ [(t, left.take CHUNK)] else s.pieces }
    | .written r =>
      some { s.goto t (.moved r) with st := s.st.setFile f { x with off := (x.off + r.getD 0) % 2 ^ 32 } }
    | .moved r => s.exec (iunlock x.ip) fun s _ => s.goto t (.unlocked r)
    | .unlocked r => s.exec endOp fun s _ =>
      match r with
      | none => s.goto t (.done (-1))
      | some r =>
        if r = (left.take CHUNK).length then
          { s with call := update s.call t ⟨.head, left.drop r⟩ }
        else { s with panic := some .shortFilewrite }
    | .done _ => none

def sys (src : T → List UInt8) (f : Fin NFILE) (s₀ : State P) : Machine.Sys (Shared P T) T where
  init s := s = ⟨s₀, fun t => ⟨.start, src t⟩, none, []⟩
  next := next src f

end machine

def chunks (src : List UInt8) : List (List UInt8) :=
  if src = [] then [] else src.take CHUNK :: chunks (src.drop CHUNK)
termination_by src.length
decreasing_by
  have hpos : 0 < src.length := length_pos_iff.2 (by assumption)
  have hc : 0 < CHUNK := by decide
  rw [length_drop]
  omega

/-- The file `f` is a regular file of a sound file system, open for writing and not in use, and
there is room for `n` more bytes from its offset on. -/
structure Ready (f : Fin NFILE) (n : ℕ) (s : State P) : Prop where
  type : (s.ftable f).type = .inode
  writable : (s.ftable f).writable
  ref : 1 ≤ (s.icache (s.ftable f).ip).ref
  unlocked : (s.icache (s.ftable f).ip).locked = false
  cached : (s.icache (s.ftable f).ip).valid →
    (s.icache (s.ftable f).ip).d = s.dev.live (s.icache (s.ftable f).ip).inum
  sound : s.dev.Sound
  file : (s.dev.live (s.icache (s.ftable f).ip).inum).type = T_FILE
  off : (s.ftable f).off ≤ (s.dev.live (s.icache (s.ftable f).ip).inum).size
  max : (s.ftable f).off + n ≤ MAXFILE * BSIZE
  free : (s.dev.live (s.icache (s.ftable f).ip).inum).needs s.dev.disk ((s.ftable f).off / BSIZE)
    (endBlock (s.ftable f).off n) ≤ s.dev.freeBlocks
  outstanding : s.outstanding = 0
  logged : s.dev.logged = []

/-! ## The invariant -/

def Call.rest (c : Call) : List UInt8 :=
  match c.pc with
  | .start | .head | .op | .locked => c.left
  | .written _ | .moved _ | .unlocked _ => c.left.drop CHUNK
  | .done _ => []

def Call.owed (c : Call) : ℕ :=
  match c.pc with
  | .written r => r.getD 0
  | _ => 0

def Call.holds (c : Call) : Bool :=
  match c.pc with
  | .locked | .written _ | .moved _ => true
  | _ => false

/-- The call is between `begin_op` and `end_op`. -/
def Call.inOp (c : Call) : Bool :=
  match c.pc with
  | .op | .locked | .written _ | .moved _ | .unlocked _ => true
  | _ => false

/-- The call is in an operation that has not logged a block. -/
def Call.fresh (c : Call) : Bool :=
  match c.pc with
  | .op | .locked => true
  | _ => false

/-- The call is in its loop and writes a chunk, and it returns what it should. -/
def Call.Ok (src : List UInt8) (c : Call) : Prop :=
  match c.pc with
  | .start | .head => True
  | .op | .locked => c.left ≠ []
  | .written r | .moved r | .unlocked r => c.left ≠ [] ∧ r = some (c.left.take CHUNK).length
  | .done r => r = src.length

def Shared.bytes (s : Shared P T) : List UInt8 := s.pieces.flatMap snd

/-- The chunks that `t` has written. -/
def Shared.written [DecidableEq T] (s : Shared P T) (t : T) : List (List UInt8) :=
  (s.pieces.filter fun p => p.1 = t).map snd

section inv

variable [DecidableEq T] [Fintype T] (src : T → List UInt8) (f : Fin NFILE) (s₀ : State P)

/-- Who is where: locks, operations and the log. -/
structure Control (s : Shared P T) : Prop where
  noPanic : s.panic = none
  ok : ∀ t, (s.call t).Ok (src t)
  written : ∀ t, s.written t ++ chunks (s.call t).rest = chunks (src t)
  total : s.bytes.length + ∑ t, (s.call t).rest.length = ∑ t, (src t).length
  holders : tally Call.holds s.call ≤ 1
  outstanding : s.st.outstanding = tally Call.inOp s.call
  committed : s.st.outstanding = 0 → s.st.dev.logged = []
  room : s.st.dev.logged.toFinset.card + MAXOPBLOCKS * tally Call.fresh s.call ≤ LOGSIZE

/-- The file, the entry of its inode in the cache, and the disk, after the bytes `l`. -/
structure Data (owed : ℕ) (held : Bool) (l : List UInt8) (n : ℕ) (s : State P) : Prop where
  file : ∃ off, s.ftable f = { s₀.ftable f with off := off } ∧
    off + owed = (s₀.ftable f).off + l.length
  inum : (s.icache (s₀.ftable f).ip).inum = (s₀.icache (s₀.ftable f).ip).inum
  ref : 1 ≤ (s.icache (s₀.ftable f).ip).ref
  locked : (s.icache (s₀.ftable f).ip).locked = held
  valid : held → (s.icache (s₀.ftable f).ip).valid
  cached : (s.icache (s₀.ftable f).ip).valid →
    (s.icache (s₀.ftable f).ip).d = s.dev.live (s₀.icache (s₀.ftable f).ip).inum
  sound : s.dev.Sound
  inode : s.dev.inode = update s₀.dev.inode (s₀.icache (s₀.ftable f).ip).inum
    { s₀.dev.inode (s₀.icache (s₀.ftable f).ip).inum with
      data := overwrite (s₀.dev.inode (s₀.icache (s₀.ftable f).ip).inum).data (s₀.ftable f).off l }
  free : (s.dev.live (s₀.icache (s₀.ftable f).ip).inum).needs s.dev.disk
    (((s₀.ftable f).off + l.length) / BSIZE)
    (endBlock ((s₀.ftable f).off + l.length) n) ≤ s.dev.freeBlocks

structure Inv (s : Shared P T) : Prop where
  control : Control src s
  data : Data f s₀ (∑ t, (s.call t).owed) (decide (0 < tally Call.holds s.call)) s.bytes
    (∑ t, (s.call t).rest.length) s.st

end inv

/-! ## What each part of the loop does to the file -/

section data

variable {f : Fin NFILE} {s₀ s : State P} {owed n : ℕ} {held : Bool} {l : List UInt8}

theorem Ready.data (h : Ready f n s₀) : Data f s₀ 0 false [] n s₀ where
  file := ⟨(s₀.ftable f).off, rfl, rfl⟩
  inum := rfl
  ref := h.ref
  locked := h.unlocked
  valid hc := absurd hc (by decide)
  cached := h.cached
  sound := h.sound
  inode := by rw [overwrite_nil, update_eq_self]
  free := h.free

theorem Data.type (h : Data f s₀ owed held l n s)
    (h₀ : (s₀.dev.live (s₀.icache (s₀.ftable f).ip).inum).type = T_FILE) :
    (s.dev.live (s₀.icache (s₀.ftable f).ip).inum).type = T_FILE := by
  have := congrFun h.inode (s₀.icache (s₀.ftable f).ip).inum
  rw [update_self] at this
  exact (congrArg Node.type this).trans h₀

theorem Data.ip (h : Data f s₀ owed held l n s) : (s.ftable f).ip = (s₀.ftable f).ip := by
  obtain ⟨off, hoff, -⟩ := h.file
  rw [hoff]

theorem Data.congr {s' : State P} (h : Data f s₀ owed held l n s) (hfile : s'.ftable = s.ftable)
    (hcache : s'.icache = s.icache) (hdisk : s'.dev.disk = s.dev.disk)
    (hsb : s'.dev.sb = s.dev.sb) : Data f s₀ owed held l n s' := by
  obtain ⟨⟨disk, sb, logged⟩, out, cache, ftable, pipes, ofile, cwd⟩ := s
  obtain ⟨⟨disk', sb', logged'⟩, out', cache', ftable', pipes', ofile', cwd'⟩ := s'
  simp only at hfile hcache hdisk hsb
  subst hfile hcache hdisk hsb
  exact ⟨h.file, h.inum, h.ref, h.locked, h.valid, h.cached,
    ⟨⟨h.sound.owned.layout, h.sound.owned.super, h.sound.owned.exact, h.sound.owned.free⟩,
      h.sound.mapped⟩, h.inode, h.free⟩

theorem Data.setInode {x : Inode} {held' : Bool} (h : Data f s₀ owed held l n s)
    (hinum : x.inum = (s₀.icache (s₀.ftable f).ip).inum) (href : 1 ≤ x.ref)
    (hlocked : x.locked = held') (hvalid : held' → x.valid)
    (hcached : x.valid → x.d = s.dev.live (s₀.icache (s₀.ftable f).ip).inum) :
    Data f s₀ owed held' l n (s.setInode (s₀.ftable f).ip x) := by
  have hself : (s.setInode (s₀.ftable f).ip x).icache (s₀.ftable f).ip = x := update_self ..
  refine ⟨h.file, ?_, ?_, ?_, ?_, ?_, h.sound, h.inode, h.free⟩
  all_goals rw [hself]
  exacts [hinum, href, hlocked, hvalid, hcached]

theorem Data.ilock (h : Data f s₀ owed false l n s)
    (h₀ : (s₀.dev.live (s₀.icache (s₀.ftable f).ip).inum).type = T_FILE) :
    ∃ s', ilock (s₀.ftable f).ip s = (.ok (), s') ∧ Data f s₀ owed true l n s' ∧
      s'.outstanding = s.outstanding ∧ s'.dev = s.dev := by
  have htype := h.type h₀
  have hlive := (live_eq (w := s.dev) (by rw [htype]; decide : (s.dev.live _).type ≠ 0)).2
  refine ⟨s.setInode (s₀.ftable f).ip { s.icache (s₀.ftable f).ip with
    locked := true, valid := true, d := s.dev.live (s₀.icache (s₀.ftable f).ip).inum }, ?_,
    h.setInode h.inum h.ref rfl (fun _ => rfl) (fun _ => rfl), rfl, rfl⟩
  have href := h.ref
  unfold FS.ilock
  dsimp only
  rw [if_neg (by omega), h.locked, if_neg (by decide), h.inum]
  split_ifs with hv ht
  · rw [← h.cached hv, hv]
  · rw [← dinode, ← hlive, htype] at ht
    exact absurd ht (by decide)
  · rw [← dinode, ← hlive]

theorem Data.iunlock (h : Data f s₀ owed true l n s) :
    ∃ s', iunlock (s₀.ftable f).ip s = (.ok (), s') ∧ Data f s₀ owed false l n s' ∧
      s'.outstanding = s.outstanding ∧ s'.dev = s.dev := by
  refine ⟨s.setInode (s₀.ftable f).ip { s.icache (s₀.ftable f).ip with locked := false }, ?_,
    h.setInode h.inum h.ref rfl (fun hc => absurd hc (by decide)) h.cached, rfl, rfl⟩
  have href := h.ref
  unfold FS.iunlock
  dsimp only
  rw [h.locked, if_neg (by simp; omega)]

theorem Data.write {c : List UInt8} (h : Data f s₀ 0 true l (c.length + n) s)
    (hc : c.length ≤ CHUNK) (h₀ : Ready f (l.length + (c.length + n)) s₀) :
    ∃ s', writeInode (s₀.ftable f).ip c (s.ftable f).off s = (.ok (some c.length), s') ∧
      Data f s₀ c.length true (l ++ c) n s' ∧ s'.outstanding = s.outstanding ∧
      ∃ m, s'.dev.logged = m ++ s.dev.logged ∧ m.toFinset.card ≤ MAXOPBLOCKS := by
  obtain ⟨i, hi⟩ : ∃ i, i = (s₀.icache (s₀.ftable f).ip).inum := ⟨_, rfl⟩
  obtain ⟨off, hoff, hlen⟩ := h.file
  have hmax := h₀.max
  have htype : (s.dev.live i).type = T_FILE := hi ▸ h.type h₀.file
  have hd : (s.icache (s₀.ftable f).ip).d = s.dev.live i := hi ▸ h.cached (h.valid rfl)
  have hinum : (s.icache (s₀.ftable f).ip).inum = i := hi ▸ h.inum
  have hinode := h.inode
  have hfree := h.free
  have h₀off := h₀.off
  rw [← hi] at hinode hfree h₀off
  rw [← length_data] at h₀off
  -- the offset is not behind the end of the file
  have hle : off ≤ (s.dev.live i).size := by
    rw [← length_data, hinode, update_self, length_overwrite _ h₀off]
    omega
  obtain rfl : off = (s₀.ftable f).off + l.length := by omega
  have hspec : Sat (fun _ _ => False) _
    (writei i (s.dev.live i) c ((s₀.ftable f).off + l.length) s.dev) :=
    (h.sound.writei_spec (by rw [htype]; decide) (by rw [htype]; decide) hle (by omega)).weaken
    fun e _ he => by
      have hneeds := needs_mono s.dev.disk (s.dev.live i)
        (b := ((s₀.ftable f).off + l.length) / BSIZE)
        (endBlock_mono ((s₀.ftable f).off + l.length) (le_add_right c.length n))
      have := he.2
      omega
  obtain ⟨r, w', hrun, rfl, hsound, -, hinode', hcount, hneeds⟩ := hspec.exists_ok
  have hlog := h.sound.writei_logged (i := i) (by rw [htype]; decide) hle hc
  rw [hrun] at hlog
  refine ⟨setD { s with dev := w' } (s₀.ftable f).ip (w'.live i), ?_, ?_, rfl, hlog⟩
  · rw [hoff]
    simp only [writeInode, run_get_bind]
    refine withInode_ok ?_
    rw [hinum, hd]
    exact hrun
  · have hself : (setD { s with dev := w' } (s₀.ftable f).ip (w'.live i)).icache (s₀.ftable f).ip =
        { s.icache (s₀.ftable f).ip with d := w'.live i } := update_self ..
    refine ⟨⟨(s₀.ftable f).off + l.length, hoff, ?_⟩, ?_, ?_, ?_, fun _ => ?_, fun _ => ?_, hsound,
      ?_, ?_⟩
    · rw [length_append]
      omega
    · rw [hself]
      exact h.inum
    · rw [hself]
      exact h.ref
    · rw [hself]
      exact h.locked
    · rw [hself]
      exact h.valid rfl
    · rw [hself, ← hi]
      rfl
    · rw [← hi]
      show w'.inode = _
      rw [hinode', hinode, update_idem, update_self, ← overwrite_append _ _ h₀off]
    · rw [← hi, length_append]
      show (w'.live i).needs w'.disk _ _ ≤ w'.freeBlocks
      have := hneeds n
      rw [← add_assoc]
      omega

theorem Data.endOp (h : Data f s₀ owed held l n s) : ∃ s', endOp s = (.ok (), s') ∧
    Data f s₀ owed held l n s' ∧ s'.outstanding = s.outstanding - 1 ∧
      (s'.outstanding = 0 → s'.dev.logged = []) ∧
      s'.dev.logged.toFinset.card ≤ s.dev.logged.toFinset.card := by
  refine ⟨_, rfl, h.congr rfl rfl ?_ ?_, rfl, fun hz => ?_, ?_⟩
  · dsimp only
    split_ifs <;> rfl
  · dsimp only
    split_ifs <;> rfl
  · exact congrArg logged (if_pos hz)
  · dsimp only
    split_ifs
    · exact zero_le _
    · exact le_rfl

theorem Data.move {r : ℕ} (h : Data f s₀ r held l n s) (h₀ : Ready f (l.length + n) s₀) :
    Data f s₀ 0 held l n
      (s.setFile f { s.ftable f with off := ((s.ftable f).off + r) % 2 ^ 32 }) := by
  obtain ⟨off, hoff, hr⟩ := h.file
  have hM : MAXFILE * BSIZE < 2 ^ 32 := by decide
  have hmax := h₀.max
  refine ⟨⟨off + r, ?_, by omega⟩, h.inum, h.ref, h.locked, h.valid, h.cached, h.sound, h.inode,
    h.free⟩
  rw [hoff]
  show update s.ftable f _ f = _
  rw [update_self, mod_eq_of_lt (by show off + r < _; omega)]

end data

/-! ## Steps -/

section step

variable [DecidableEq T] [Fintype T] {src : T → List UInt8} {f : Fin NFILE} {s₀ : State P}
    {s s' : Shared P T} {t : T}
  {c₀ c : Call}

omit [DecidableEq T] [Fintype T] in
theorem exec_ok {α : Type} {m : M P α} {k : Shared P T → α → Shared P T} {a : α} {st : State P}
    (h : m s.st = (.ok a, st)) : s.exec m k = some (k { s with st := st } a) := by
  rw [Shared.exec, h]

theorem drop_length_take (l : List UInt8) : l.drop (l.take CHUNK).length = l.drop CHUNK := by
  rw [length_take]
  rcases le_total CHUNK l.length with hle | hle
  · rw [min_eq_left hle]
  · rw [min_eq_right hle, drop_length, drop_eq_nil_of_le hle]

theorem chunks_of_ne {l : List UInt8} (h : l ≠ []) :
    chunks l = l.take CHUNK :: chunks (l.drop CHUNK) := by
  rw [chunks, if_neg h]

/-- Thread `t` moves from `c₀` to `c`, and the others stay where they are. -/
structure Moves (s s' : Shared P T) (t : T) (c₀ c : Call) : Prop where
  before : s.call t = c₀
  call : s'.call = update s.call t c
  panic : s'.panic = none

omit [Fintype T] in
theorem Moves.goto {pc : Pc} {left : List UInt8} (h : s.call t = ⟨pc, left⟩) (hp : s.panic = none)
    (st : State P) (pc' : Pc) :
    Moves s (Shared.goto { s with st := st } t pc') t ⟨pc, left⟩ ⟨pc', left⟩ :=
  ⟨h, by simp only [Shared.goto, h], hp⟩

def Call.weight (c : Call) : ℕ :=
  match c.pc with
  | .start => 7 * (chunks c.left).length + 2
  | .head => 7 * (chunks c.left).length + 1
  | .op => 7 * (chunks c.left).length
  | .locked => 7 * (chunks c.left).length - 1
  | .written _ => 7 * (chunks c.left).length - 2
  | .moved _ => 7 * (chunks c.left).length - 3
  | .unlocked _ => 7 * (chunks c.left).length - 4
  | .done _ => 0

theorem length_chunks_pos {l : List UInt8} (h : l ≠ []) : 0 < (chunks l).length := by
  rw [chunks_of_ne h]
  exact succ_pos _

/-- What a move does to the counts: of operations, of blocks in the log, of holders of the lock and
of owed bytes. -/
structure Accounts (s s' : Shared P T) (c₀ c : Call) (o : ℕ) (b : Bool) : Prop where
  out : s'.st.outstanding + c₀.inOp.toNat = s.st.outstanding + c.inOp.toNat
  commit : s'.st.outstanding = 0 → s'.st.dev.logged = []
  room : s'.st.dev.logged.toFinset.card + MAXOPBLOCKS * (tally Call.fresh s.call + c.fresh.toNat) ≤
    LOGSIZE + MAXOPBLOCKS * c₀.fresh.toNat
  held : b.toNat + c₀.holds.toNat = (decide (0 < tally Call.holds s.call)).toNat + c.holds.toNat
  owed : o + c₀.owed = ∑ u, (s.call u).owed + c.owed
  weight : c.weight < c₀.weight

theorem Inv.step {o : ℕ} {b : Bool} (w : List (List UInt8)) (h : Inv src f s₀ s)
    (hm : Moves s s' t c₀ c) (hp : s'.pieces = s.pieces ++ w.map fun p => (t, p))
    (hrest : chunks c₀.rest = w ++ chunks c.rest)
    (hlen : c₀.rest.length = w.flatten.length + c.rest.length) (hok : c.Ok (src t))
    (ha : Accounts s s' c₀ c o b) (hdata : ∀ n, ∑ u, (s.call u).rest.length = w.flatten.length + n →
    Data f s₀ o b (s.bytes ++ w.flatten) n s'.st) : Inv src f s₀ s' ∧ ∑ u, (s'.call u).weight < ∑ u,
    (s.call u).weight := by
  obtain rfl := hm.before
  obtain ⟨hout, hcommit, hroom, hheld, howed, hlt⟩ := ha
  have hctl := h.control
  have hbytes : s'.bytes = s.bytes ++ w.flatten := by
    simp [Shared.bytes, hp, flatMap_def]
  have hsum : ∑ u, (s.call u).rest.length = w.flatten.length + ∑ u, (s'.call u).rest.length := by
    have := sum_update (fun c => c.rest.length) s.call t c
    rw [hm.call]
    omega
  have hold : ∑ u, (s'.call u).owed = o := by
    have := sum_update Call.owed s.call t c
    rw [hm.call]
    omega
  have hholds : tally Call.holds s'.call = b.toNat := by
    have hupd := tally_update Call.holds s.call t c
    have hone : (decide (0 < tally Call.holds s.call)).toNat = tally Call.holds s.call := by
      have := hctl.holders
      rcases Nat.eq_zero_or_pos (tally Call.holds s.call) with hz | hz
      · rw [hz]
        rfl
      · rw [decide_eq_true hz]
        exact (le_antisymm this hz).symm
    rw [hm.call]
    omega
  have hfresh : MAXOPBLOCKS * tally Call.fresh s'.call + MAXOPBLOCKS * (s.call t).fresh.toNat =
      MAXOPBLOCKS * (tally Call.fresh s.call + c.fresh.toNat) := by
    rw [← mul_add, hm.call, tally_update Call.fresh s.call t c]
  refine ⟨⟨⟨hm.panic, fun u => ?_, fun u => ?_, ?_, ?_, ?_, hcommit, by omega⟩, ?_⟩, ?_⟩
  · rw [hm.call]
    by_cases hu : u = t
    · subst hu
      rwa [update_self]
    · rw [update_of_ne hu]
      exact hctl.ok u
  · have hw := hctl.written u
    rw [hm.call]
    by_cases hu : u = t
    · subst hu
      rw [hrest, ← append_assoc] at hw
      rw [update_self, ← hw]
      simp [Shared.written, hp, filter_map, comp_def]
    · rw [update_of_ne hu, ← hw]
      simp [Shared.written, hp, filter_map, comp_def, Ne.symm hu]
  · have := hctl.total
    rw [hbytes, length_append]
    omega
  · rw [hholds]
    exact Bool.toNat_le b
  · have := tally_update Call.inOp s.call t c
    have hs := hctl.outstanding
    rw [hm.call]
    omega
  · have hb : decide (0 < tally Call.holds s'.call) = b := by
      rw [hholds]
      cases b <;> rfl
    rw [hb, hbytes, hold]
    exact hdata _ hsum
  · have := sum_update Call.weight s.call t c
    rw [hm.call]
    omega

/-- A thread moves without writing. -/
theorem Inv.move {o : ℕ} {b : Bool} (h : Inv src f s₀ s) (hm : Moves s s' t c₀ c)
    (hp : s'.pieces = s.pieces) (hrest : c.rest = c₀.rest) (hok : c.Ok (src t))
    (ha : Accounts s s' c₀ c o b)
    (hdata : Data f s₀ o b s.bytes (∑ u, (s.call u).rest.length) s'.st) : Inv src f s₀ s' ∧
    ∑ u, (s'.call u).weight < ∑ u, (s.call u).weight := by
  refine h.step [] hm (by simpa using hp) (by rw [hrest]; rfl) (by simp [hrest]) hok ha fun n hn =>
    ?_
  rw [flatten_nil, length_nil, zero_add] at hn
  rwa [flatten_nil, append_nil, ← hn]

theorem Control.owed (h : Control src s) (hpc : (s.call t).holds) :
    ∑ u, (s.call u).owed = (s.call t).owed := by
  refine sum_eq_single t (fun u _ hu => ?_) fun hc => absurd (mem_univ t) hc
  by_contra hne
  have hu' : (s.call u).holds := by
    unfold Call.owed at hne
    unfold Call.holds
    split at hne
    · next he => rw [he]
    · exact absurd rfl hne
  have htwo : 1 < tally Call.holds s.call :=
    one_lt_card.2 ⟨u, by simpa using hu', t, by simpa using hpc, hu⟩
  have := h.holders
  omega

omit [DecidableEq T] in
theorem fresh_le_inOp (call : T → Call) : tally Call.fresh call ≤ tally Call.inOp call := by
  refine Finset.card_le_card fun t ht => ?_
  simp only [Finset.mem_filter, Finset.mem_univ, true_and] at ht ⊢
  unfold Call.fresh at ht
  unfold Call.inOp
  split at ht
  · next he => rw [he]
  · next he => rw [he]
  · cases ht

theorem Inv.next (h₀ : Ready f (∑ u, (src u).length) s₀) (h : Inv src f s₀ s) (hs : next src f s t = some s') :
    Inv src f s₀ s' ∧ ∑ u, (s'.call u).weight < ∑ u, (s.call u).weight := by
  have hctl := h.control
  have hok := hctl.ok t
  have hroom := hctl.room
  have hdata := h.data
  unfold SharedWrite.next at hs
  simp only [hctl.noPanic, Option.isSome_none, Bool.false_eq_true, if_false] at hs
  obtain ⟨off, hfile, -⟩ := h.data.file
  have hip := h.data.ip
  rcases hcall : s.call t with ⟨pc, left⟩
  rw [hcall] at hs hok
  have hpos := length_chunks_pos (l := left)
  have hmoves := Moves.goto hcall hctl.noPanic
  have howed : (⟨pc, left⟩ : Call).holds → ∑ u, (s.call u).owed = (⟨pc, left⟩ : Call).owed := fun hpc => by
    rw [hctl.owed (t := t) (by rw [hcall]; exact hpc), hcall]
  have hheld : (⟨pc, left⟩ : Call).holds → decide (0 < tally Call.holds s.call) := fun hpc =>
    decide_eq_true (tally_pos (t := t) (by rw [hcall]; exact hpc))
  cases pc with
  | start =>
    have htype : (s.st.ftable f).type = .inode := by rw [hfile]; exact h₀.type
    have hwrite : (s.st.ftable f).writable := by rw [hfile]; exact h₀.writable
    simp only [htype, hwrite, Bool.true_eq_false, if_false, if_true, Option.some.injEq] at hs
    subst hs
    refine h.move (hmoves s.st .head) rfl rfl trivial ⟨rfl, hctl.committed, hroom, rfl, rfl, ?_⟩ hdata
    simp only [Call.weight]
    omega
  | head =>
    by_cases hz : left = []
    · simp only [hz, if_true, Option.some.injEq] at hs
      subst hs
      refine h.move (hmoves s.st (.done (src t).length)) rfl hz.symm rfl ⟨rfl, hctl.committed, hroom, rfl, rfl, ?_⟩ hdata
      simp only [Call.weight]
      omega
    · by_cases hadm : admits s.st
      swap
      · simp only [hz, hadm, if_false] at hs
        cases hs
      simp only [hz, hadm, if_false, if_true] at hs
      obtain rfl := Option.some.inj hs
      refine h.move (hmoves _ .op) rfl rfl hz ⟨rfl, fun hc => absurd hc (Nat.succ_ne_zero _), ?_, rfl, rfl, ?_⟩
        (hdata.congr rfl rfl rfl rfl)
      · have hle : tally Call.fresh s.call ≤ s.st.outstanding := by
          rw [hctl.outstanding]
          exact fresh_le_inOp s.call
        have hadm' : s.st.dev.logged.toFinset.card + (s.st.outstanding + 1) * MAXOPBLOCKS ≤ LOGSIZE := hadm
        have hM : MAXOPBLOCKS = 10 := rfl
        show s.st.dev.logged.toFinset.card + MAXOPBLOCKS * (tally Call.fresh s.call + 1) ≤ LOGSIZE + MAXOPBLOCKS * 0
        rw [hM] at hadm' ⊢
        omega
      · simp only [Call.weight]
        omega
  | op =>
    rw [hip] at hs
    by_cases hlocked : (s.st.icache (s₀.ftable f).ip).locked
    · simp only [hlocked, if_true] at hs
      cases hs
    have hfree : decide (0 < tally Call.holds s.call) = false := by
      rw [← h.data.locked]
      simpa using hlocked
    rw [hfree] at hdata
    obtain ⟨st, hst, hdata', hout, hdev⟩ := hdata.ilock h₀.file
    simp only [hlocked, exec_ok hst] at hs
    obtain rfl := Option.some.inj hs
    refine h.move (hmoves st .locked) rfl rfl hok
      ⟨by show st.outstanding + 1 = _; rw [hout]; rfl, ?_, ?_, by rw [hfree]; rfl, rfl, ?_⟩ hdata'
    · show st.outstanding = 0 → st.dev.logged = []
      rw [hout, hdev]
      exact hctl.committed
    · show st.dev.logged.toFinset.card + _ ≤ _
      rw [hdev]
      exact Nat.add_le_add_right hroom MAXOPBLOCKS
    · have := hpos hok
      simp only [Call.weight]
      omega
  | locked =>
    have hne : left ≠ [] := hok
    have hlen : left.length = (left.take CHUNK).length + (left.drop CHUNK).length := by
      rw [← length_append, take_append_drop]
    -- what is left of the other calls and of this one fits behind the chunk
    obtain ⟨n, hn⟩ : ∃ n, ∑ u, (s.call u).rest.length = (left.take CHUNK).length + n := by
      refine ⟨∑ u, (s.call u).rest.length - (left.take CHUNK).length, (Nat.add_sub_cancel' ?_).symm⟩
      have hle : left.length ≤ ∑ u, (s.call u).rest.length := by
        refine le_trans (le_of_eq ?_) (single_le_sum (fun u _ => Nat.zero_le _) (mem_univ t))
        rw [hcall]
        rfl
      omega
    have htotal := hctl.total
    rw [howed rfl, hheld rfl, hn] at hdata
    rw [hn] at htotal
    obtain ⟨st, hst, hdata', hout, m, hlog, hcard⟩ := Data.write hdata (length_take_le ..) (htotal.symm ▸ h₀)
    rw [hip] at hs
    simp only [exec_ok hst] at hs
    obtain rfl := Option.some.inj hs
    refine h.step (c := ⟨.written (some (left.take CHUNK).length), left⟩) [left.take CHUNK]
      ⟨hcall, by simp only [Shared.goto, hcall], hctl.noPanic⟩ rfl (chunks_of_ne hne)
      (by rw [flatten_singleton]; exact hlen) ⟨hne, rfl⟩ ⟨by show st.outstanding + 1 = _; rw [hout]; rfl,
      fun hz => ?_, ?_, by rw [hheld rfl]; rfl, by rw [howed rfl]; exact Nat.add_comm .., ?_⟩ fun n' hn' => ?_
    · replace hz : st.outstanding = 0 := hz
      rw [hout, hctl.outstanding] at hz
      have := eq_of_tally_eq_zero hz t
      rw [hcall] at this
      cases this
    · have hle : st.dev.logged.toFinset.card ≤ m.toFinset.card + s.st.dev.logged.toFinset.card := by
        rw [hlog, toFinset_append]
        exact card_union_le ..
      have hM : MAXOPBLOCKS = 10 := rfl
      show st.dev.logged.toFinset.card + MAXOPBLOCKS * (tally Call.fresh s.call + 0) ≤ LOGSIZE + MAXOPBLOCKS * 1
      rw [hM] at hroom hcard ⊢
      omega
    · have := hpos hne
      simp only [Call.weight]
      omega
    · simp only [flatten_cons, flatten_nil, append_nil] at hn' ⊢
      obtain rfl : n' = n := by omega
      exact hdata'
  | written r =>
    obtain rfl := Option.some.inj hs
    rw [howed rfl] at hdata
    refine h.move (hmoves _ (.moved r)) rfl rfl hok
      ⟨rfl, hctl.committed, hroom, rfl, by rw [howed rfl]; exact Nat.add_comm .., ?_⟩ (hdata.move (hctl.total.symm ▸ h₀))
    have := hpos hok.1
    simp only [Call.weight]
    omega
  | moved r =>
    rw [hip] at hs
    rw [hheld rfl] at hdata
    obtain ⟨st, hst, hdata', hout, hdev⟩ := hdata.iunlock
    simp only [exec_ok hst] at hs
    obtain rfl := Option.some.inj hs
    refine h.move (hmoves st (.unlocked r)) rfl rfl hok
      ⟨by show st.outstanding + 1 = _; rw [hout]; rfl, ?_, ?_, by rw [hheld rfl]; rfl, rfl, ?_⟩ hdata'
    · show st.outstanding = 0 → st.dev.logged = []
      rw [hout, hdev]
      exact hctl.committed
    · show st.dev.logged.toFinset.card + _ ≤ _
      rw [hdev]
      exact hroom
    · have := hpos hok.1
      simp only [Call.weight]
      omega
  | unlocked r =>
    obtain ⟨hne, rfl⟩ : left ≠ [] ∧ r = some (left.take CHUNK).length := hok
    have hpos' : 0 < s.st.outstanding := by
      rw [hctl.outstanding]
      exact tally_pos (t := t) (by rw [hcall]; rfl)
    obtain ⟨st, hend, hdata', hout, hcommit, hle⟩ := hdata.endOp
    simp only [exec_ok hend, if_true, drop_length_take] at hs
    obtain rfl := Option.some.inj hs
    have hm : Moves s { s with st := st, call := update s.call t ⟨.head, left.drop CHUNK⟩ } t
        ⟨.unlocked (some (left.take CHUNK).length), left⟩ ⟨.head, left.drop CHUNK⟩ := ⟨hcall, rfl, hctl.noPanic⟩
    refine h.move hm rfl rfl trivial
      ⟨?_, hcommit, (Nat.add_le_add_right hle _).trans hroom, rfl, rfl, ?_⟩ hdata'
    · show st.outstanding + 1 = s.st.outstanding
      omega
    · have := hpos hne
      have hk : (chunks left).length = (chunks (left.drop CHUNK)).length + 1 := by
        rw [chunks_of_ne hne, length_cons]
      simp only [Call.weight]
      omega
  | done r => cases hs

theorem Inv.init (h₀ : Ready f (∑ u, (src u).length) s₀) :
    Inv src f s₀ (⟨s₀, fun t => ⟨.start, src t⟩, none, []⟩ : Shared P T) := by
  have htally : ∀ p : Call → Bool, (∀ l, p ⟨.start, l⟩ = false) →
    tally p (fun t => (⟨.start, src t⟩ : Call)) = 0 := by
    intro p hp
    rw [tally_eq_sum]
    exact sum_eq_zero fun t _ => by rw [hp]; rfl
  have hholds := htally Call.holds fun _ => rfl
  have hinOp := htally Call.inOp fun _ => rfl
  have hfresh := htally Call.fresh fun _ => rfl
  have howed : ∑ t, (⟨.start, src t⟩ : Call).owed = 0 := sum_eq_zero fun _ _ => rfl
  refine ⟨⟨rfl, fun _ => trivial, fun _ => rfl, zero_add _, ?_, ?_, fun _ => h₀.logged, ?_⟩, ?_⟩
  · exact hholds.le.trans (zero_le 1)
  · exact h₀.outstanding.trans hinOp.symm
  · show s₀.dev.logged.toFinset.card + MAXOPBLOCKS * tally Call.fresh
      (fun t => (⟨.start, src t⟩ : Call)) ≤ LOGSIZE
    rw [hfresh, h₀.logged]
    decide
  · show Data f s₀ (∑ t, (⟨.start, src t⟩ : Call).owed)
      (decide (0 < tally Call.holds fun t => (⟨.start, src t⟩ : Call))) [] (∑ u, (src u).length) s₀
    rw [howed, hholds]
    exact h₀.data

omit [DecidableEq T] [Fintype T] in
theorem exec_ne_none {α : Type} (m : M P α) (k : Shared P T → α → Shared P T) :
    s.exec m k ≠ none := by
  unfold Shared.exec
  split <;> simp

section

variable (h₀ : Ready f (∑ u, (src u).length) s₀)

include h₀

theorem Inv.stuck (h : Inv src f s₀ s) (hs : ∀ t, SharedWrite.next src f s t = none)
    (t : T) : (s.call t).pc = .done (src t).length := by
  have hctl := h.control
  obtain ⟨off, hfile, -⟩ := h.data.file
  -- a call that is not at a place where it may wait can go on
  have hwait : ∀ t, ((s.call t).pc = .head ∧ (s.call t).left ≠ [] ∧ ¬ admits s.st) ∨
      ((s.call t).pc = .op ∧ 0 < tally Call.holds s.call) ∨ (s.call t).pc = .done (src t).length := by
    intro t
    have hok := hctl.ok t
    have hstuck := hs t
    unfold SharedWrite.next at hstuck
    simp only [hctl.noPanic, Option.isSome_none, Bool.false_eq_true, if_false] at hstuck
    rcases hcall : s.call t with ⟨pc, left⟩
    rw [hcall] at hstuck hok
    cases pc with
    | start =>
      have htype : (s.st.ftable f).type = .inode := by rw [hfile]; exact h₀.type
      have hwrite : (s.st.ftable f).writable := by rw [hfile]; exact h₀.writable
      simp [htype, hwrite] at hstuck
    | head =>
      by_cases hz : left = []
      · simp [hz] at hstuck
      · by_cases hadm : admits s.st
        · simp only [hz, hadm, if_false, if_true] at hstuck
          exact (exec_ne_none _ _ hstuck).elim
        · exact .inl ⟨rfl, hz, hadm⟩
    | op =>
      by_cases hlocked : (s.st.icache (s.st.ftable f).ip).locked
      · rw [h.data.ip, h.data.locked] at hlocked
        exact .inr (.inl ⟨rfl, of_decide_eq_true hlocked⟩)
      · simp only [hlocked, Bool.false_eq_true, if_false] at hstuck
        exact (exec_ne_none _ _ hstuck).elim
    | locked | moved => exact (exec_ne_none _ _ hstuck).elim
    | written | unlocked => cases hstuck
    | done r =>
      have hr : r = (src t).length := hok
      exact .inr (.inr (by rw [hr]))
  have hnobody : tally Call.holds s.call = 0 := by
    by_contra hne
    obtain ⟨u, hu⟩ := card_pos.1 (pos_of_ne_zero hne)
    have hu' : (s.call u).holds := (mem_filter.1 hu).2
    unfold Call.holds at hu'
    rcases hwait u with ⟨hpc, -⟩ | ⟨hpc, -⟩ | hpc <;> rw [hpc] at hu' <;> cases hu'
  have hout : s.st.outstanding = 0 := by
    rw [hctl.outstanding, tally_eq_sum]
    refine sum_eq_zero fun u _ => ?_
    unfold Call.inOp
    rcases hwait u with ⟨hpc, -⟩ | ⟨-, hpos⟩ | hpc
    · rw [hpc]
      rfl
    · omega
    · rw [hpc]
      rfl
  rcases hwait t with ⟨-, -, hadm⟩ | ⟨-, hpos⟩ | hpc
  · exfalso
    apply hadm
    unfold admits
    rw [hctl.committed hout, hout]
    decide
  · omega
  · exact hpc

theorem Inv.of_reachable (hs : (sys src f s₀).Reachable s) : Inv src f s₀ s := by
  refine Machine.Sys.Reachable.invariant (I := Inv src f s₀) (fun s hs => ?_)
    (fun s t s' h hs => (h.next h₀ hs).1) hs
  obtain rfl : s = ⟨s₀, fun t => ⟨.start, src t⟩, none, []⟩ := hs
  exact .init h₀

theorem Inv.length_run (h : Inv src f s₀ s) {l : List T}
    (hrun : (sys src f s₀).run s l = some s') : l.length + ∑ u, (s'.call u).weight ≤ ∑ u,
    (s.call u).weight := by
  induction l generalizing s with
  | nil =>
    obtain rfl := Option.some.inj hrun
    exact (zero_add _).le
  | cons t l ih =>
    obtain ⟨s₁, h₁, h₂⟩ := Option.bind_eq_some_iff.1 hrun
    obtain ⟨hinv, hlt⟩ := h.next h₀ h₁
    have := ih hinv h₂
    rw [length_cons]
    omega

end

end step

/-! ## A call that runs alone -/

section alone

variable {f : Fin NFILE} {s₀ s : State P} {n : ℕ} {l : List UInt8}

theorem Data.ftable {owed : ℕ} {held : Bool} (h : Data f s₀ owed held l n s) :
    s.ftable f = { s₀.ftable f with off := (s₀.ftable f).off + l.length - owed } := by
  obtain ⟨off, hoff, hlen⟩ := h.file
  rw [hoff, ← hlen, Nat.add_sub_cancel]

section

variable {c : List UInt8} (h : Data f s₀ 0 false l (c.length + n) s) (hc : c.length ≤ CHUNK)
  (h₀ : Ready f (l.length + (c.length + n)) s₀)

include h hc h₀

theorem filewriteOp_alone :
    ∃ s', filewriteOp f c s = (.ok (some c.length), s') ∧ Data f s₀ 0 false (l ++ c) n s' := by
  obtain ⟨s₁, hlock, h₁, -, -⟩ := h.ilock h₀.file
  obtain ⟨s₂, hwrite, h₂, -, -⟩ := h₁.write hc h₀
  have hf : s.ftable f = s₂.ftable f := by
    have hoff : (s₀.ftable f).off + (l ++ c).length - c.length = (s₀.ftable f).off + l.length -
      0 := by
      rw [length_append]
      omega
    rw [h.ftable, h₂.ftable, hoff]
  have hf₁ : s₁.ftable f = s₂.ftable f := by rw [← hf, h.ftable, h₁.ftable]
  have h₃ := h₂.move (by rw [length_append, add_assoc]; exact h₀)
  obtain ⟨s₄, hunlock, h₄, -, -⟩ := h₃.iunlock
  refine ⟨s₄, ?_, h₄⟩
  rw [hf₁] at hwrite
  rw [← h₂.ip] at hlock hwrite hunlock
  unfold filewriteOp
  simp only [run_get_bind, hf]
  rw [bind_ok hlock, bind_ok hwrite]
  simp only [run_modify_bind, Option.getD_some]
  rw [bind_ok hunlock]
  rfl

theorem filewriteChunk_alone :
    ∃ s', filewriteChunk f c s = (.ok true, s') ∧ Data f s₀ 0 false (l ++ c) n s' := by
  obtain ⟨s₁, hrun, h₁⟩ := filewriteOp_alone (s := { s with outstanding := s.outstanding + 1 })
    (h.congr rfl rfl rfl rfl) hc h₀
  obtain ⟨s₂, hend, h₂, -⟩ := h₁.endOp
  refine ⟨s₂, ?_, h₂⟩
  have hbegin : beginOp s = (.ok (), { s with outstanding := s.outstanding + 1 }) := rfl
  rw [filewriteChunk, bind_ok hbegin, bind_ok hrun, bind_ok hend]
  simp only [if_true, run_pure]

end

theorem filewriteLoop_alone {src : List UInt8} (h : Data f s₀ 0 false l src.length s)
    (h₀ : Ready f (l.length + src.length) s₀) :
    ∃ s', filewriteLoop f src s = (.ok true, s') ∧ Data f s₀ 0 false (l ++ src) 0 s' := by
  induction hn : src.length using Nat.strong_induction_on generalizing s l src with
  | _ k ih =>
    subst hn
    rw [filewriteLoop]
    by_cases hz : src = []
    · subst hz
      rw [if_pos rfl, append_nil]
      exact ⟨s, rfl, h⟩
    · have hpos : 0 < src.length := length_pos_iff.2 hz
      have hlen : src.length = (src.take CHUNK).length + (src.drop CHUNK).length := by
        rw [← length_append, take_append_drop]
      have hlt : 0 < (src.take CHUNK).length := by
        rw [length_take]
        exact Nat.lt_min.2 ⟨by decide, hpos⟩
      rw [hlen] at h h₀
      obtain ⟨s₁, hrun, h₁⟩ := filewriteChunk_alone h (length_take_le ..) h₀
      rw [if_neg hz, bind_ok hrun]
      obtain ⟨s₂, hrun₂, h₂⟩ := ih (src.drop CHUNK).length (by omega) h₁
        (by rw [length_append, add_assoc]; exact h₀) rfl
      rw [append_assoc, take_append_drop] at h₂
      exact ⟨s₂, hrun₂, h₂⟩

/-- The file after a call that runs alone is the file after one `writei`. -/
theorem filewrite_alone {src : List UInt8} (h₀ : Ready f src.length s₀) (ext : ℤ) :
    ∃ s' w', filewrite f src ext s₀ = (.ok (src.length : ℤ), s') ∧
      (s'.ftable f).off = (s₀.ftable f).off + src.length ∧
      writei (s₀.icache (s₀.ftable f).ip).inum (s₀.dev.live (s₀.icache (s₀.ftable f).ip).inum) src
      (s₀.ftable f).off s₀.dev = (.ok (some src.length, w'.live (s₀.icache (s₀.ftable f).ip).inum),
      w') ∧ s'.dev.inode = w'.inode := by
  obtain ⟨s', hrun, h⟩ := filewriteLoop_alone h₀.data (by simpa using h₀)
  have hfree := h₀.free
  have hspec : Sat (fun _ _ => False) _ (writei (s₀.icache (s₀.ftable f).ip).inum
      (s₀.dev.live (s₀.icache (s₀.ftable f).ip).inum) src (s₀.ftable f).off s₀.dev) :=
    (h₀.sound.writei_spec (by rw [h₀.file]; decide) (by rw [h₀.file]; decide) h₀.off h₀.max).weaken
    fun e _ he => by
      have := he.2
      omega
  obtain ⟨r, w', hwrite, rfl, -, -, hinode, -⟩ := hspec.exists_ok
  refine ⟨s', w', ?_, by rw [h.ftable]; rfl, hwrite, h.inode.trans hinode.symm⟩
  unfold filewrite
  simp only [run_get_bind, h₀.writable, h₀.type, Bool.true_eq_false, if_false]
  rw [bind_ok hrun]
  rfl

end alone

/-! ## Results -/

section results

variable [DecidableEq T] [Fintype T] {src : T → List UInt8} {f : Fin NFILE} {s₀ : State P}

/-- Writers of one file, in any interleaving: no run goes on for ever, and when no call can go on
each has returned the length of its buffer.  The file then has the chunks of all calls behind each
other, each call's in order. -/
theorem shared_filewrite (h₀ : Ready f (∑ t, (src t).length) s₀) :
    (∀ l s, (sys src f s₀).run ⟨s₀, fun t => ⟨.start, src t⟩, none, []⟩ l = some s →
      l.length ≤ ∑ t, (7 * (chunks (src t)).length + 2)) ∧
    (∀ s, (sys src f s₀).Reachable s →
      s.panic = none ∧ (∀ t r, (s.call t).pc = .done r → r = (src t).length) ∧
      s.st.dev.logged.toFinset.card ≤ LOGSIZE ∧
      ((∀ t, next src f s t = none) →
        (∀ t, (s.call t).pc = .done (src t).length) ∧
        (s.st.ftable f).off = (s₀.ftable f).off + ∑ t, (src t).length ∧
        s.st.dev.inode = update s₀.dev.inode (s₀.icache (s₀.ftable f).ip).inum
          { s₀.dev.inode (s₀.icache (s₀.ftable f).ip).inum with
            data := overwrite (s₀.dev.inode (s₀.icache (s₀.ftable f).ip).inum).data (s₀.ftable f).off
              (s.pieces.flatMap snd) } ∧
        ∀ t, (s.pieces.filter fun p => p.1 = t).map snd = chunks (src t))) ∧
    ∀ (l : List UInt8) (ext : ℤ), Ready f l.length s₀ →
      ∃ s' w', filewrite f l ext s₀ = (.ok (l.length : ℤ), s') ∧
        (s'.ftable f).off = (s₀.ftable f).off + l.length ∧
        writei (s₀.icache (s₀.ftable f).ip).inum (s₀.dev.live (s₀.icache (s₀.ftable f).ip).inum) l (s₀.ftable f).off
          s₀.dev = (.ok (some l.length, w'.live (s₀.icache (s₀.ftable f).ip).inum), w') ∧
        s'.dev.inode = w'.inode := by
  refine ⟨fun l s hrun => ?_, fun s hs => ?_, fun l ext h => filewrite_alone h ext⟩
  · exact le_trans (Nat.le_add_right ..) ((Inv.init h₀).length_run h₀ hrun)
  · have h := Inv.of_reachable h₀ hs
    refine ⟨h.control.noPanic, fun t r hr => ?_, le_trans (Nat.le_add_right ..) h.control.room, fun hstuck => ?_⟩
    · have := h.control.ok t
      unfold Call.Ok at this
      rwa [hr] at this
    · have hdone := h.stuck h₀ hstuck
      have hrest : ∀ t, (s.call t).rest = [] := by
        intro t
        rw [Call.rest, hdone t]
      have howed : ∑ t, (s.call t).owed = 0 := sum_eq_zero fun t _ => by rw [Call.owed, hdone t]
      have htotal := h.control.total
      have hzero : ∑ t, (s.call t).rest.length = 0 := sum_eq_zero fun t _ => by rw [hrest t]; rfl
      refine ⟨hdone, ?_, h.data.inode, fun t => ?_⟩
      · rw [h.data.ftable, howed]
        show (s₀.ftable f).off + s.bytes.length - 0 = _
        omega
      · have := h.control.written t
        rw [hrest t, chunks, if_pos rfl, append_nil] at this
        exact this

end results

/-! ## An empty file, open for writing -/

/-- The file 0 is the empty file of a file system with `n` blocks of data. -/
def emptyOpen (n : ℕ) : State Unit :=
  setFile (setInode { boot (emptyFile n metadataBits).disk with dev := emptyFile n metadataBits }
    ⟨0, NINODE_pos⟩
    ⟨1, 1, false, false, Dinode.zero⟩) ⟨0, by decide⟩ ⟨.inode, 1, false, true, 0, ⟨0, NINODE_pos⟩,
      0⟩

theorem emptyOpen_inode (n : ℕ) :
    ((emptyOpen n).icache ⟨0, by decide⟩) = ⟨1, 1, false, false, Dinode.zero⟩ := by
  simp only [emptyOpen, setFile, setInode, update_self]

theorem emptyOpen_file (n : ℕ) :
    ((emptyOpen n).ftable ⟨0, by decide⟩) = ⟨.inode, 1, false, true, 0, ⟨0, by decide⟩, 0⟩ := by
  simp only [emptyOpen, setFile, update_self]

theorem emptyOpen_ready {n : ℕ} (hn : n < 59) (m : ℕ) (hm : m ≤ MAXFILE * BSIZE)
    (hfree : ((emptyFile n metadataBits).live 1).needs (emptyFile n metadataBits).disk 0
    (endBlock 0 m) ≤ (emptyFile n metadataBits).freeBlocks) : Ready ⟨0, by decide⟩ m (emptyOpen n)
    where
  type := by rw [emptyOpen_file]
  writable := by rw [emptyOpen_file]
  ref := by rw [emptyOpen_file, emptyOpen_inode]
  unlocked := by rw [emptyOpen_file, emptyOpen_inode]
  cached h := by
    rw [emptyOpen_file, emptyOpen_inode] at h
    cases h
  sound := emptyFile_sound hn
  file := by
    simp only [emptyOpen_file, emptyOpen_inode]
    exact emptyFile_type
  off := by
    rw [emptyOpen_file]
    exact zero_le _
  max := by
    simp only [emptyOpen_file, zero_add]
    exact hm
  free := by
    simp only [emptyOpen_file, emptyOpen_inode]
    exact hfree
  outstanding := rfl
  logged := rfl

def twoBuffers (t : Bool) : List UInt8 := replicate 2000 (if t then 1 else 2)

/-- Two writers of 2000 bytes, whose chunks alternate. -/
theorem shared_filewrite_two : ∃ s : Shared Unit Bool, (sys twoBuffers ⟨0, by decide⟩ (emptyOpen 40)).Reachable s ∧
    s.pieces.map fst = [true, false, true, false] ∧ (∀ t, (s.call t).pc = .done 2000) ∧
    (s.st.ftable ⟨0, by decide⟩).off = 4000 ∧ (s.st.dev.inode 1).data = s.pieces.flatMap snd ∧
    ∀ t, (s.pieces.filter fun p => p.1 = t).map snd = chunks (twoBuffers t) := by
  have hlen : ∀ t, (twoBuffers t).length = 2000 := fun _ => length_replicate
  have hsum : ∑ t, (twoBuffers t).length = 4000 := by simp only [hlen]; rfl
  have hready : Ready ⟨0, by decide⟩ (∑ t, (twoBuffers t).length) (emptyOpen 40) := by
    rw [hsum]
    exact emptyOpen_ready (by decide) 4000 (by decide) (by decide +kernel)
  obtain ⟨s, hreach, htrue, hfalse, hpieces⟩ : ∃ s, (sys twoBuffers ⟨0, by decide⟩ (emptyOpen 40)).Reachable s ∧
      (s.call true).pc = .done 2000 ∧ (s.call false).pc = .done 2000 ∧
      s.pieces.map fst = [true, false, true, false] :=
    Machine.Sys.exists_reachable ([true, true, false, false] ++ replicate 5 true ++ replicate 5 false ++
      [true, false] ++ replicate 5 true ++ replicate 5 false ++ [true, false])
      (M := sys twoBuffers ⟨0, by decide⟩ (emptyOpen 40)) rfl (by decide +kernel)
  have hstuck : ∀ t, next twoBuffers ⟨0, by decide⟩ s t = none := by
    intro t
    cases t <;> simp [next, htrue, hfalse]
  obtain ⟨-, -, -, hend⟩ := (shared_filewrite hready).2.1 s hreach
  obtain ⟨hdone, hoff, hinode, hchunks⟩ := hend hstuck
  have hempty : ((emptyOpen 40).dev.inode 1).data = [] := emptyFile_data 40
  refine ⟨s, hreach, hpieces, fun t => (hdone t).trans (by rw [hlen]; rfl), ?_, ?_, hchunks⟩
  · rw [hoff, hsum, emptyOpen_file]
  · have := congrArg Node.data (congrFun hinode 1)
    rwa [emptyOpen_file, emptyOpen_inode, update_self, hempty, overwrite, take_nil, drop_nil, append_nil,
      nil_append] at this

/-- Without a free block the kernel panics and the call does not return. -/
theorem shared_filewrite_full : (emptyOpen 0).dev.Sound ∧
    ((emptyOpen 0).dev.live 1).type = T_FILE ∧ ((emptyOpen 0).ftable ⟨0, by decide⟩).writable ∧
    ∃ s : Shared Unit Unit, (sys (fun _ => [7]) ⟨0, by decide⟩ (emptyOpen 0)).Reachable s ∧
      (∀ t, next (fun _ => [7]) ⟨0, by decide⟩ s t = none) ∧ ∀ t r, (s.call t).pc ≠ .done r := by
  refine ⟨emptyFile_sound (by decide), emptyFile_type, by rw [emptyOpen_file], ?_⟩
  obtain ⟨s, hreach, hpanic, hpc⟩ : ∃ s : Shared Unit Unit, (sys (fun _ => [7]) ⟨0, by decide⟩ (emptyOpen 0)).Reachable s ∧
      s.panic = some .balloc ∧ (s.call ()).pc = .locked :=
    Machine.Sys.exists_reachable [(), (), (), ()] (M := sys (fun _ => [7]) ⟨0, by decide⟩ (emptyOpen 0)) rfl
      (by decide +kernel)
  refine ⟨s, hreach, fun t => ?_, fun t r hr => ?_⟩
  · simp [next, hpanic]
  · rw [hpc] at hr
    cases hr

end Xv6.FS.SharedWrite
