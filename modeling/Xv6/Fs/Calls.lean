import Xv6.Fs.Inodes
import Xv6.Lib.Machine

/-!
# Writing to a file

`filewrite` of `file.c` as a program over the file system, which runs alone.  `pipewrite` changes
the buffer of a pipe only; what it returns is given, as `ext`.
-/

namespace Xv6.FS

variable {P : Type}

/-! ## Transactions -/

def beginOp : M P Unit := modify fun s => { s with outstanding := s.outstanding + 1 }

def endOp : M P Unit := modify fun s =>
  { s with
    outstanding := s.outstanding - 1
    dev := if s.outstanding - 1 = 0 then { s.dev with logged := [] } else s.dev }

/-! ## Files -/

def State.setFile (s : State P) (f : Fin NFILE) (x : File) : State P :=
  { s with ftable := Function.update s.ftable f x }

def CHUNK : ℕ := (MAXOPBLOCKS - 1 - 1 - 2) / 2 * 512

variable (f : Fin NFILE) (src : List UInt8)

/-- What one round of the loop of `filewrite` does between `begin_op` and `end_op`. -/
def filewriteOp : M P (Option ℕ) := do
  let s ← get
  let x := s.ftable f
  ilock x.ip
  let r ← writeInode x.ip src x.off
  modify fun s => s.setFile f { x with off := (x.off + r.getD 0) % 2 ^ 32 }
  iunlock x.ip
  return r

/-- One round of the loop of `filewrite`; false if `writei` returns -1. -/
def filewriteChunk : M P Bool := do
  beginOp
  let r ← filewriteOp f src
  endOp
  match r with
  | none => return false
  | some r => if r = src.length then return true else throw .shortFilewrite

/-- The loop of `filewrite` over what is left; true if all is written. -/
def filewriteLoop (f : Fin NFILE) (src : List UInt8) : M P Bool :=
  if src = [] then return true
  else do
    let ok ← filewriteChunk f (src.take CHUNK)
    if ok then filewriteLoop f (src.drop CHUNK) else return false
termination_by src.length
decreasing_by
  have hpos : 0 < src.length := List.length_pos_iff.2 (by assumption)
  have hc : 0 < CHUNK := by decide
  rw [List.length_drop]
  omega

def filewrite (ext : ℤ) : M P ℤ := do
  let s ← get
  let x := s.ftable f
  if x.writable = false then return -1
  else
    match x.type with
    | .none => throw .filewrite
    | .pipe => return ext
    | .inode => do
      let ok ← filewriteLoop f src
      return if ok then src.length else -1

end Xv6.FS
