import Mathlib.Algebra.GroupWithZero.Nat

/-!
# Kernel constants

The constants of `param.h`, `fs.h`, `proc.h`, `mmu.h`, `memlayout.h` and `kthread.h` that the
modelled code reads.
-/

namespace Xv6

def NPROC : ℕ := 64

def NTHREADS : ℕ := 16

def MAXOPBLOCKS : ℕ := 10

def LOGSIZE : ℕ := MAXOPBLOCKS * 3

def NBUF : ℕ := MAXOPBLOCKS * 3

def FSSIZE : ℕ := 1000

def BSIZE : ℕ := 512

def NINODE : ℕ := 50

def NFILE : ℕ := 100

def NOFILE : ℕ := 16

def ROOTINO : ℕ := 1

def NDIRECT : ℕ := 12

def NINDIRECT : ℕ := BSIZE / 4

def MAXFILE : ℕ := NDIRECT + NINDIRECT

theorem sub_ndirect_lt {k : ℕ} (hk : k < MAXFILE) : k - NDIRECT < NINDIRECT := by
  simp only [MAXFILE, NDIRECT, NINDIRECT, BSIZE] at *
  omega

def DIRSIZ : ℕ := 14

def PGSIZE : ℕ := 4096

def KERNBASE : ℕ := 2 ^ 31

def MAX_MUTEXES : ℕ := 64

theorem NPROC_pos : 0 < NPROC := by decide

theorem NINODE_pos : 0 < NINODE := by decide

/-- Numerals of `Fin 2`, the CPUs or threads of concrete runs. -/
instance neZero_two : NeZero 2 := ⟨by decide⟩

/-- Numerals of `Fin (2 ^ 32)`, the values of type `uint`. -/
instance neZero_uint : NeZero (2 ^ 32) := ⟨by decide⟩

end Xv6
