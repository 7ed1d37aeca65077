import Xv6.Param
import Xv6.Lib.Machine
import Xv6.Lib.Ring
import Xv6.Lib.Tally

/-!
# The buffer cache

`binit`, `bget`, `bread`, `bwrite` and `brelse` of `bio.c`, `log_write` as far as it touches the
buffer, and `iderw` on a disk whose reads return the last block written.  The steps are the sections
under `bcache.lock`, `acquiresleep`, `releasesleep`, and each transfer of `iderw`; a panic is a step
that does not exist.

Ghost fields: `contents x`, what the last holder of block `x` that called `log_write` or `bwrite`
left there; `unsaved i`, buffer `i` was modified after that.
-/

namespace Xv6.Bio

open LinkedRing Function

/-- `data[BSIZE]`. -/
abbrev Data := Fin BSIZE → UInt8

/-- A device number, one of the two disks, and a block number. -/
abbrev BlockId := Fin 2 × UInt32

/-- `struct buf` without the list pointers. -/
structure Buf (T : Type) where
  valid : Bool
  dirty : Bool
  dev : Fin 2
  blockno : UInt32
  /-- The sleep lock: the thread that holds it. -/
  lock : Option T
  refcnt : ℕ
  data : Data

def Buf.id {T : Type} (b : Buf T) : BlockId := (b.dev, b.blockno)

inductive CachePc where
  /-- Outside the calls of the cache, with the buffers it holds. -/
  | ready
  /-- In `bget` for a block, past the section that chose the buffer, at `acquiresleep`. -/
  | bget (i : Fin NBUF) (x : BlockId)
  /-- In `bread` for a block, holding the buffer `bget` returned. -/
  | bread (i : Fin NBUF) (x : BlockId)
  /-- In `bwrite`, before the transfer. -/
  | bwrite (i : Fin NBUF)
  /-- In `brelse`, past `releasesleep`. -/
  | brelse (i : Fin NBUF)
  deriving DecidableEq

/-- The cache, the disks and the threads. -/
structure Cache (T : Type) where
  buf : Fin NBUF → Buf T
  links : Links (Fin NBUF)
  disk : BlockId → Data
  havedisk1 : Bool
  pc : T → CachePc
  /-- Ghost: the contents a reader of the block is to see. -/
  contents : BlockId → Data
  /-- Ghost: the buffers modified since the last `log_write` or `bwrite` on them. -/
  unsaved : Fin NBUF → Bool

inductive CacheAct where
  | bread (x : BlockId)
  /-- Store into the data of a held buffer. -/
  | modify (i : Fin NBUF) (d : Data)
  | logWrite (i : Fin NBUF)
  | bwrite (i : Fin NBUF)
  | brelse (i : Fin NBUF)
  /-- Go on in the call the thread is in. -/
  | run

variable {T : Type}

namespace Cache

def setBuf (s : Cache T) (i : Fin NBUF) (b : Buf T) : Cache T :=
  { s with buf := update s.buf i b }

@[simp] theorem setBuf_buf (s : Cache T) (i : Fin NBUF) (b : Buf T) :
    (s.setBuf i b).buf = update s.buf i b := rfl

variable [DecidableEq T]

variable (s : Cache T) (i : Fin NBUF)

def goto (t : T) (p : CachePc) : Cache T := { s with pc := update s.pc t p }

@[simp] theorem goto_buf (t : T) (p : CachePc) : (s.goto t p).buf = s.buf := rfl

@[simp] theorem goto_pc (t : T) (p : CachePc) : (s.goto t p).pc = update s.pc t p := rfl

/-- The section of `bget`: the buffer chosen, and its new fields.  `none` is the panic
`bget: no buffers`. -/
def bget (x : BlockId) : Option (Fin NBUF × Buf T) :=
  match walk s.links.next (fun i => (s.buf i).id == x) NBUF (s.links.next none) with
  | some i => some (i, { s.buf i with refcnt := (s.buf i).refcnt + 1 })
  | none =>
    -- not cached: recycle an unused buffer, from the other end of the list
    match walk s.links.prev (fun i => (s.buf i).refcnt == 0 && !(s.buf i).dirty) NBUF
        (s.links.prev none) with
    | some i =>
      some (i, { s.buf i with dev := x.1, blockno := x.2, valid := false, dirty := false, refcnt :=
        1 })
    | none => none

/-- `iderw`: write the buffer if it is dirty, else read it. -/
def iderw : Option (Cache T) :=
  let b := s.buf i
  if b.valid && !b.dirty then none  -- panic: nothing to do
  else if b.dev != 0 && !s.havedisk1 then none  -- panic: ide disk 1 not present
  else if b.blockno.toNat ≥ FSSIZE then none  -- panic: incorrect blockno
  else if b.dirty then
    some { s.setBuf i { b with valid := true, dirty := false } with
      disk := update s.disk b.id b.data }
  else some (s.setBuf i { b with valid := true, data := s.disk b.id })

/-- `b->flags |= B_DIRTY`, in `log_write` and `bwrite`: the holder leaves the buffer's data as the
contents of its block. -/
def setDirty : Cache T :=
  { s.setBuf i { s.buf i with dirty := true } with
    contents := update s.contents (s.buf i).id (s.buf i).data
    unsaved := update s.unsaved i false }

def release : Cache T :=
  let s := s.setBuf i { s.buf i with refcnt := (s.buf i).refcnt - 1 }
  if (s.buf i).refcnt = 0 then { s with links := (s.links.unlink i).pushFront i } else s

def next (t : T) : CacheAct → Option (Cache T)
  | .bread x =>
    if s.pc t = .ready then (s.bget x).map fun r => (s.setBuf r.1 r.2).goto t (.bget r.1 x) else
      none
  | .modify i d =>
    if s.pc t = .ready ∧ (s.buf i).lock = some t then
      some { s.setBuf i { s.buf i with data := d } with unsaved := update s.unsaved i true }
    else none
  | .logWrite i => if s.pc t = .ready ∧ (s.buf i).lock = some t then some (s.setDirty i) else none
  | .bwrite i =>
    if s.pc t = .ready ∧ (s.buf i).lock = some t then some ((s.setDirty i).goto t (.bwrite i)) else
      none
  | .brelse i =>
    if s.pc t = .ready ∧ (s.buf i).lock = some t then
      some ((s.setBuf i { s.buf i with lock := none }).goto t (.brelse i))
    else none
  | .run =>
    match s.pc t with
    | .ready => none
    | .bget i x =>
      if (s.buf i).lock = none then
        some ((s.setBuf i { s.buf i with lock := some t }).goto t (.bread i x))
      else none
    | .bread i _ =>
      if (s.buf i).valid then some (s.goto t .ready) else (s.iderw i).map fun s => s.goto t .ready
    | .bwrite i => (s.iderw i).map fun s => s.goto t .ready
    | .brelse i => some ((s.release i).goto t .ready)

end Cache

/-- The list `binit` builds. -/
def binit : Links (Fin NBUF) :=
  (List.finRange NBUF).foldl Links.pushFront ⟨fun _ => none, fun _ => none⟩

/-- The state after `binit`: all buffers zero, the given disks. -/
def Cache.boot (T : Type) (disk : BlockId → Data) (havedisk1 : Bool) : Cache T where
  buf _ := ⟨false, false, 0, 0, none, 0, fun _ => 0⟩
  links := binit
  disk := disk
  havedisk1 := havedisk1
  pc _ := .ready
  contents := disk
  unsaved _ := false

def cacheSys (T : Type) [DecidableEq T] : Machine.Sys (Cache T) (T × CacheAct) where
  init s := ∃ disk havedisk1, s = .boot T disk havedisk1
  next s i := s.next i.1 i.2

/-- A modification is followed by `log_write` or `bwrite` before the buffer is released. -/
def Saved (s : Cache T) (a : T × CacheAct) : Prop := ∀ i, a.2 = .brelse i → s.unsaved i = false

end Xv6.Bio
