import Xv6.Lib.Bytes
import Xv6.Lib.Fallible
import Xv6.Lib.Pool
import Xv6.Vm.UserMemory

/-!
# Page directories

The functions of `kalloc.c` and `vm.c` on physical memory.  A page is its bytes, and a pointer to a
page is the number of the physical page: `P2V` and `V2P` go from one to the other.  `kmem.freelist`
is a list of pages.  An entry of a page directory or of a page table is the four bytes of the page
that hold it.

`kalloc` fails when the list is empty; that other processes have emptied it for a while is `refuse`:
the calls of `kalloc` that find it empty.

A loop of the source has as many rounds as `fuel`, and `diverges` beyond that.
-/

namespace Xv6.Vm

open LittleEndian
open UserMemory (pgroundup)

/-! ## Layout -/

def EXTMEM : ℕ := 0x100000

def PHYSTOP : ℕ := 0xE000000

def DEVSPACE : ℕ := 0xFE000000

def KERNLINK : ℕ := KERNBASE + EXTMEM

def PTE_P : ℕ := 1

def PTE_W : ℕ := 2

def PTE_U : ℕ := 4

def NPDENTRIES : ℕ := 1024

/-- Pages of the address space: no loop over pages makes more rounds. -/
def fuel : ℕ := 2 ^ 20

/-- The addresses `data` and `end` of the linker script. -/
structure Link where
  data : ℕ
  «end» : ℕ
  data_page : data % PGSIZE = 0
  link_lt : KERNLINK < data
  data_lt : data < «end»
  end_le : «end» ≤ KERNBASE + PHYSTOP

def v2p (a : ℕ) : ℕ := (a + 2 ^ 32 - KERNBASE) % 2 ^ 32

def p2v (a : ℕ) : ℕ := (a + KERNBASE) % 2 ^ 32

def pgrounddown (a : ℕ) : ℕ := a / PGSIZE * PGSIZE

def pdx (va : ℕ) : ℕ := va / 2 ^ 22 % 1024

def ptx (va : ℕ) : ℕ := va / 2 ^ 12 % 1024

def pgaddr (d t o : ℕ) : ℕ := (d * 2 ^ 22 ||| t * 2 ^ 12 ||| o) % 2 ^ 32

/-- `PTE_ADDR`, as the number of the page. -/
def pteAddr (e : ℕ) : ℕ := e / PGSIZE

def pteFlags (e : ℕ) : ℕ := e % PGSIZE

/-- `e & PTE_P`. -/
def present (e : ℕ) : Bool := e.testBit 0

/-- `e & PTE_U`. -/
def user (e : ℕ) : Bool := e.testBit 2

/-! ## Memory -/

abbrev Page := Buf PGSIZE

def entry (p : Page) (i : ℕ) : ℕ := getLE p (4 * i) 4

def setEntry (p : Page) (i v : ℕ) : Page := setLE p (4 * i) 4 v

/-- Physical memory with `kmem.freelist`, the calls of `kalloc` that find the list empty, and the
page directory in use. -/
structure Phys extends Heap Page where
  refuse : List Bool
  cr3 : ℕ

inductive Panic where
  | remap
  | kfree
  | phystop
  | freevm
  | copyuvmPte
  | copyuvmPresent
  | clearpteu
  | loaduvmAligned
  | loaduvmExist
  | fault
  /-- More rounds of a loop than `fuel`. -/
  | diverges
  deriving DecidableEq

abbrev M := ExceptT Panic (StateM Phys)

def Phys.setPage (s : Phys) (pg : ℕ) (p : Page) :
    Phys := { s with mem := Function.update s.mem pg p }

def load (pg i : ℕ) : M ℕ := do
  let s ← get
  return entry (s.mem pg) i

def store (pg i v : ℕ) : M PUnit := modify fun s => s.setPage pg (setEntry (s.mem pg) i v)

def memset (pg : ℕ) (v : UInt8) : M PUnit := modify fun s => s.setPage pg fun _ => v

def memmove (dst src : ℕ) : M PUnit := modify fun s => s.setPage dst (s.mem src)

/-- `memmove` of the `n` bytes `f` to offset `o` of a page. -/
def memmoveTo (pg o n : ℕ) (f : ℕ → UInt8) :
    M PUnit := modify fun s => s.setPage pg (blit (s.mem pg) o n f)

/-! ## Allocation of pages -/

def kalloc : M (Option ℕ) := fun s =>
  if s.refuse.headD false then (.ok none, { s with refuse := s.refuse.tail })
  else match s.freelist with
    | [] => (.ok none, { s with refuse := s.refuse.tail })
    | r :: next => (.ok (some r), { s with freelist := next, refuse := s.refuse.tail })

variable (K : Link)

def kfree (v : ℕ) : M PUnit :=
  if p2v (v * PGSIZE) < K.end ∨ PHYSTOP ≤ v * PGSIZE then throw .kfree
  else do
    memset v 1
    modify fun s => { s with freelist := v :: s.freelist }

/-- The loop of `freerange`, from the address `p` on. -/
def freerangeFrom (K : Link) (vend : ℕ) : ℕ → ℕ → M PUnit
  | 0, _ => throw .diverges
  | n + 1, p =>
    if p + PGSIZE ≤ vend then do
      kfree K (v2p p / PGSIZE)
      freerangeFrom K vend n (p + PGSIZE)
    else pure ⟨⟩

def freerange (vstart vend : ℕ) : M PUnit := freerangeFrom K vend fuel (pgroundup vstart)

/-- `kinit1(end, P2V(4*1024*1024))`. -/
def kinit1 : M PUnit := freerange K K.end (p2v (4 * 1024 * 1024))

/-- `kinit2(P2V(4*1024*1024), P2V(PHYSTOP))`. -/
def kinit2 : M PUnit := freerange K (p2v (4 * 1024 * 1024)) (p2v PHYSTOP)

/-! ## Entries -/

/-- The entry of a page table for `va`: the page of the table and the number of the entry, or
null. -/
def walkpgdir (pgdir va : ℕ) (alloc : Bool) : M (Option (ℕ × ℕ)) := do
  let pde ← load pgdir (pdx va)
  if present pde then return some (pteAddr pde, ptx va)
  else if alloc then do
    match ← kalloc with
    | none => return none
    | some pgtab => do
      memset pgtab 0
      store pgdir (pdx va) (pgtab * PGSIZE ||| PTE_P ||| PTE_W ||| PTE_U)
      return some (pgtab, ptx va)
  else return none

/-- The loop of `mappages`. -/
def mappagesFrom (pgdir last perm : ℕ) : ℕ → ℕ → ℕ → M ℤ
  | 0, _, _ => throw .diverges
  | n + 1, a, pa => do
    match ← walkpgdir pgdir a true with
    | none => return -1
    | some pte => do
      let e ← load pte.1 pte.2
      if present e then throw .remap
      else do
        store pte.1 pte.2 (pa ||| perm ||| PTE_P)
        if a = last then return 0
        else mappagesFrom pgdir last perm n ((a + PGSIZE) % 2 ^ 32) ((pa + PGSIZE) % 2 ^ 32)

def mappages (pgdir va size pa perm : ℕ) : M ℤ :=
  mappagesFrom pgdir (pgrounddown ((va + size + 2 ^ 32 - 1) % 2 ^ 32)) perm fuel (pgrounddown va) pa

/-! ## Freeing -/

/-- `kfree` of the page of an entry that is present. -/
def unmap (pte : ℕ × ℕ) : M PUnit := do
  let e ← load pte.1 pte.2
  if present e then
    if pteAddr e = 0 then throw .kfree
    else do
      kfree K (pteAddr e)
      store pte.1 pte.2 0
  else return ⟨⟩

/-- The loop of `deallocuvm`. -/
def deallocFrom (K : Link) (pgdir oldsz : ℕ) : ℕ → ℕ → M PUnit
  | 0, _ => throw .diverges
  | n + 1, a =>
    if a < oldsz then do
      match ← walkpgdir pgdir a false with
      | none =>
        -- `a = PGADDR(PDX(a) + 1, 0, 0) - PGSIZE`, and then `a += PGSIZE`
        deallocFrom K pgdir oldsz n (pgaddr (pdx a + 1) 0 0)
      | some pte => do
        unmap K pte
        deallocFrom K pgdir oldsz n ((a + PGSIZE) % 2 ^ 32)
    else return ⟨⟩

def deallocuvm (pgdir oldsz newsz : ℕ) : M ℕ :=
  if oldsz ≤ newsz then return oldsz
  else do
    deallocFrom K pgdir oldsz fuel (pgroundup newsz)
    return newsz

/-- The loop of `freevm` over the entries of the directory. -/
def freeTables (K : Link) (pgdir : ℕ) : ℕ → ℕ → M PUnit
  | 0, _ => return ⟨⟩
  | n + 1, i => do
    let pde ← load pgdir i
    if present pde then do
      kfree K (pteAddr pde)
      freeTables K pgdir n (i + 1)
    else freeTables K pgdir n (i + 1)

def freevm (pgdir : ℕ) : M PUnit :=
  if pgdir = 0 then throw .freevm
  else do
    let _ ← deallocuvm K pgdir KERNBASE 0
    freeTables K pgdir NPDENTRIES 0
    kfree K pgdir

/-! ## The kernel part -/

structure Kmap where
  virt : ℕ
  physStart : ℕ
  physEnd : ℕ
  perm : ℕ

/-- The kernel's mappings, which are present in every process's page table. -/
def kmap : List Kmap :=
  [⟨KERNBASE, 0, EXTMEM, PTE_W⟩,                -- I/O space
   ⟨KERNLINK, v2p KERNLINK, v2p K.data, 0⟩,     -- kernel text and read-only data
   ⟨K.data, v2p K.data, PHYSTOP, PTE_W⟩,        -- kernel data and memory
   ⟨DEVSPACE, DEVSPACE, 0, PTE_W⟩]              -- more devices

/-- `k->phys_end - k->phys_start`. -/
def Kmap.size (k : Kmap) : ℕ := (k.physEnd + 2 ^ 32 - k.physStart) % 2 ^ 32

/-- The loop of `setupkvm`; whether all of it was mapped. -/
def mapKernel (pgdir : ℕ) : List Kmap → M Bool
  | [] => return true
  | k :: ks => do
    let r ← mappages pgdir k.virt k.size k.physStart k.perm
    if r < 0 then return false else mapKernel pgdir ks

def setupkvm : M (Option ℕ) := do
  match ← kalloc with
  | none => return none
  | some pgdir => do
    memset pgdir 0
    if DEVSPACE < p2v PHYSTOP then throw .phystop
    else do
      let mapped ← mapKernel pgdir (kmap K)
      if mapped then return some pgdir
      else do
        freevm K pgdir
        return none

/-! ## The user part -/

/-- The loop of `allocuvm`. -/
def allocFrom (K : Link) (pgdir oldsz newsz : ℕ) : ℕ → ℕ → M ℕ
  | 0, _ => throw .diverges
  | n + 1, a =>
    if a < newsz then do
      match ← kalloc with
      | none => do
        let _ ← deallocuvm K pgdir newsz oldsz
        return 0
      | some mem => do
        memset mem 0
        let r ← mappages pgdir a PGSIZE (mem * PGSIZE) (PTE_W ||| PTE_U)
        if r < 0 then do
          let _ ← deallocuvm K pgdir newsz oldsz
          kfree K mem
          return 0
        else allocFrom K pgdir oldsz newsz n ((a + PGSIZE) % 2 ^ 32)
    else return newsz

def allocuvm (pgdir oldsz newsz : ℕ) : M ℕ :=
  if KERNBASE ≤ newsz then return 0
  else if newsz < oldsz then return oldsz
  else allocFrom K pgdir oldsz newsz fuel (pgroundup oldsz)

def clearpteu (pgdir uva : ℕ) : M PUnit := do
  match ← walkpgdir pgdir uva false with
  | none => throw .clearpteu
  | some pte => do
    let e ← load pte.1 pte.2
    store pte.1 pte.2 (e &&& (2 ^ 32 - 1 - PTE_U))

/-- The loop of `copyuvm`; whether all pages were copied. -/
def copyFrom (K : Link) (pgdir d sz : ℕ) : ℕ → ℕ → M Bool
  | 0, _ => throw .diverges
  | n + 1, i =>
    if i < sz then do
      match ← walkpgdir pgdir i false with
      | none => throw .copyuvmPte
      | some pte => do
        let e ← load pte.1 pte.2
        if present e then do
          match ← kalloc with
          | none => return false
          | some mem => do
            memmove mem (pteAddr e)
            let r ← mappages d i PGSIZE (mem * PGSIZE) (pteFlags e)
            if r < 0 then do
              kfree K mem
              return false
            else copyFrom K pgdir d sz n ((i + PGSIZE) % 2 ^ 32)
        else throw .copyuvmPresent
    else return true

def copyuvm (pgdir sz : ℕ) : M (Option ℕ) := do
  match ← setupkvm K with
  | none => return none
  | some d => do
    let copied ← copyFrom K pgdir d sz fuel 0
    if copied then return some d
    else do
      freevm K d
      return none

/-! ## Copying out -/

/-- The word that the kernel reads at virtual address 0, in the address space in use. -/
def loadNull : M ℕ := do
  let s ← get
  let pde := entry (s.mem s.cr3) 0
  let pte := entry (s.mem (pteAddr pde)) 0
  if present pde && present pte then return entry (s.mem (pteAddr pte)) 0
  else throw .fault

/-- The page that `uva` is on, or null.  The result of `walkpgdir` is read also when it is null:
`null` is this read. -/
def uva2ka (null : M ℕ) (pgdir uva : ℕ) : M (Option ℕ) := do
  let e ← match ← walkpgdir pgdir uva false with
    | none => null
    | some pte => load pte.1 pte.2
  if present e && user e then return some (pteAddr e) else return none

def kernelWritable (pg : ℕ) : Bool :=
  decide (pg * PGSIZE < EXTMEM ∨ v2p K.data ≤ pg * PGSIZE ∧ pg * PGSIZE < PHYSTOP)

/-- The loop of `copyout`; `buf` is what is still to be copied. -/
def copyoutFrom (null : M ℕ) (K : Link) (pgdir : ℕ) : ℕ → ℕ → List UInt8 → M ℤ
  | _, _, [] => return 0
  | 0, _, _ :: _ => throw .diverges
  | k + 1, va, b :: bs => do
    let va0 := pgrounddown va
    match ← uva2ka null pgdir va0 with
    | none => return -1
    | some pa0 =>
      let n := min (PGSIZE - (va - va0)) (b :: bs).length
      if p2v (pa0 * PGSIZE) = 0 then return -1
      else if kernelWritable K pa0 then do
        memmoveTo pa0 (va - va0) n fun i => (b :: bs).getD i 0
        copyoutFrom null K pgdir k ((va0 + PGSIZE) % 2 ^ 32) ((b :: bs).drop n)
      else throw .fault

/-- `copyout` with the read `null` through a null pointer. -/
def copyoutWith (null : M ℕ) (K : Link) (pgdir va : ℕ) (p : List UInt8) : M ℤ :=
  copyoutFrom null K pgdir (fuel + 1) va p

def copyout (pgdir va : ℕ) (p : List UInt8) : M ℤ := copyoutWith loadNull K pgdir va p

end Xv6.Vm
