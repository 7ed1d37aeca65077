import Xv6.Vm.Copy

/-!
# `exec`

`exec` of `exec.c` and `loaduvm` of `vm.c` over the physical memory of `Vm`, and `sys_exec` of
`sysfile.c`.  The first part of `exec`, which ends the other threads of the process, is not here
(see `Ptable`): `exec` begins at `begin_op`.

A file is its bytes, and `Files` says which inode a path names.  Of the inode layer and the log
there are the references of each inode and `log.outstanding`, of the process and the thread the
fields that `exec` sets.
-/

namespace Xv6.Exec

open LittleEndian Vm
open UserMemory (pgroundup)

/-! ## The executable -/

def ELF_MAGIC : ℕ := 0x464C457F

def ELF_PROG_LOAD : ℕ := 1

def MAXARG : ℕ := 32

/-- The `k`-byte field at offset `o` of a structure. -/
def field (bs : List UInt8) (o k : ℕ) : ℕ := getLE bs.get o k

/-- The fields of `struct elfhdr` that are used. -/
structure Elfhdr where
  magic : ℕ
  entry : ℕ
  phoff : ℕ
  phnum : ℕ

def elfhdrSize : ℕ := 52

def elfhdr (bs : List UInt8) : Elfhdr := ⟨field bs 0 4, field bs 24 4, field bs 28 4, field bs 44 2⟩

/-- The fields of `struct proghdr` that are used. -/
structure Proghdr where
  type : ℕ
  off : ℕ
  vaddr : ℕ
  filesz : ℕ
  memsz : ℕ

def proghdrSize : ℕ := 32

def proghdr (bs : List UInt8) :
    Proghdr := ⟨field bs 0 4, field bs 4 4, field bs 8 4, field bs 16 4, field bs 20 4⟩

/-- `readi` of a file with the bytes `c`: what it copies; its result is the number of these bytes,
or -1. -/
def readi (c : List UInt8) (off n : ℕ) : Option (List UInt8) :=
  if c.length < off ∨ 2 ^ 32 ≤ off + n then none else some ((c.drop off).take n)

/-- `readi(..., n) == n`, and then the bytes. -/
def readAll (c : List UInt8) (off n : ℕ) : Option (List UInt8) := (readi c off n).filter fun bs =>
    bs.length == n

/-! ## Loading -/

/-- The loop of `loaduvm`. -/
def loadFrom (K : Link) (pgdir addr : ℕ) (c : List UInt8) (offset sz : ℕ) : ℕ → ℕ → M ℤ
  | 0, _ => throw .diverges
  | k + 1, i =>
    if i < sz then do
      match ← walkpgdir pgdir ((addr + i) % 2 ^ 32) false with
      | none => throw .loaduvmExist
      | some pte => do
        let e ← load pte.1 pte.2
        let n := min (sz - i) PGSIZE
        match readi c ((offset + i) % 2 ^ 32) n with
        | none => return -1
        | some bs =>
          if bs.isEmpty || kernelWritable K (pteAddr e) then do
            memmoveTo (pteAddr e) 0 bs.length fun j => bs.getD j 0
            if bs.length = n then loadFrom K pgdir addr c offset sz k ((i + PGSIZE) % 2 ^ 32)
            else return -1
          else throw .fault
    else return 0

variable (K : Link) (path : List UInt8)

def loaduvm (pgdir addr : ℕ) (c : List UInt8) (offset sz : ℕ) : M ℤ :=
  if addr % PGSIZE ≠ 0 then throw .loaduvmAligned else
    loadFrom K pgdir addr c offset sz (fuel + 1) 0

/-- The loop over the program headers, with `n` to go and the next one at `off`: the size, or `goto
bad`. -/
def segments (K : Link) (pgdir : ℕ) (c : List UInt8) : ℕ → ℕ → ℕ → M (Option ℕ)
  | 0, _, sz => return some sz
  | n + 1, off, sz =>
    match readAll c off proghdrSize with
    | none => return none
    | some bs =>
      let ph := proghdr bs
      let next := (off + proghdrSize) % 2 ^ 32
      if ph.type ≠ ELF_PROG_LOAD then segments K pgdir c n next sz
      else if ph.memsz < ph.filesz then return none
      else if (ph.vaddr + ph.memsz) % 2 ^ 32 < ph.vaddr then return none
      else do
        let sz ← allocuvm K pgdir sz ((ph.vaddr + ph.memsz) % 2 ^ 32)
        if sz = 0 then return none
        else if ph.vaddr % PGSIZE ≠ 0 then return none
        else do
          let r ← loaduvm K pgdir ph.vaddr c ph.off ph.filesz
          if r < 0 then return none else segments K pgdir c n next sz

/-! ## The stack -/

/-- `a - b` of `uint`s. -/
def sub32 (a b : ℕ) : ℕ := (a + (2 ^ 32 - b % 2 ^ 32)) % 2 ^ 32

/-- `(sp - n) & ~3`. -/
def pushed (sp n : ℕ) : ℕ := sub32 sp n / 4 * 4

/-- The loop over the arguments, from the `argc`th on: the stack pointer and the addresses of the
strings, or `goto bad`. -/
def pushArgs (K : Link) (pgdir : ℕ) : List (List UInt8) → ℕ → ℕ → M (Option (ℕ × List ℕ))
  | [], _, sp => return some (sp, [])
  | arg :: argv, argc, sp =>
    if MAXARG ≤ argc then return none
    else do
      let sp := pushed sp (arg.length + 1)
      let r ← copyout K pgdir sp (arg ++ [0])
      if r < 0 then return none
      else do
        match ← pushArgs K pgdir argv (argc + 1) sp with
        | none => return none
        | some (sp', ptrs) => return some (sp', sp :: ptrs)

/-- The bytes of an array of `uint`s. -/
def wordBytes (ws : List ℕ) : List UInt8 :=
  ws.flatMap fun w => [byteOf w 0, byteOf w 1, byteOf w 2, byteOf w 3]

/-- `ustack`, when the strings are at `ptrs` and the stack pointer is `sp`. -/
def ustack (sp : ℕ) (ptrs : List ℕ) : List ℕ :=
  [0xffffffff, ptrs.length, sub32 sp ((ptrs.length + 1) * 4)] ++ ptrs ++ [0]

/-- The arguments and `ustack` below `sz`: the stack pointer, or `goto bad`. -/
def pushStack (pgdir sz : ℕ) (argv : List (List UInt8)) : M (Option ℕ) := do
  match ← pushArgs K pgdir argv 0 sz with
  | none => return none
  | some (sp, ptrs) => do
    let sp' := sub32 sp ((3 + ptrs.length + 1) * 4)
    let r ← copyout K pgdir sp' (wordBytes (ustack sp ptrs))
    if r < 0 then return none else return some sp'

/-- Two pages for the stack, and what is on it: the size and the stack pointer, or `goto bad`. -/
def buildStack (pgdir sz : ℕ) (argv : List (List UInt8)) : M (Option (ℕ × ℕ)) := do
  let sz ← allocuvm K pgdir (pgroundup sz) ((pgroundup sz + 2 * PGSIZE) % 2 ^ 32)
  if sz = 0 then return none
  else do
    clearpteu pgdir (sub32 sz (2 * PGSIZE))
    match ← pushStack K pgdir sz argv with
    | none => return none
    | some sp => return some (sz, sp)

/-! ## The call -/

/-- The inode that a path names, and its bytes. -/
structure Files where
  namei : List UInt8 → Option ℕ
  contents : ℕ → List UInt8

/-- What `exec` sets of the process and of the trap frame. -/
structure Task where
  pgdir : ℕ
  sz : ℕ
  /-- `char name[16]`. -/
  name : List UInt8
  eip : ℕ
  esp : ℕ

structure Kern where
  phys : Phys
  task : Task
  /-- `ip->ref` of each inode. -/
  ref : ℕ → ℕ
  outstanding : ℕ

abbrev X := ExceptT Panic (StateM Kern)

/-- A function of `vm.c`. -/
def vm {α : Type} (m : M α) : X α := fun s => ((m s.phys).1, { s with phys := (m s.phys).2 })

def beginOp : X PUnit := modify fun s => { s with outstanding := s.outstanding + 1 }

def endOp : X PUnit := modify fun s => { s with outstanding := s.outstanding - 1 }

def namei (E : Files) (path : List UInt8) : X (Option ℕ) :=
  match E.namei path with
  | none => return none
  | some ip => do
    modify fun s => { s with ref := Function.update s.ref ip (s.ref ip + 1) }
    return some ip

def iunlockput (ip : ℕ) :
    X PUnit := modify fun s => { s with ref := Function.update s.ref ip (s.ref ip - 1) }

/-- The bytes of `dst` after `safestrcpy(dst, t, n)`. -/
def safestrcpy (dst t : List UInt8) (n : ℕ) : List UInt8 :=
  let bs := (t.take (n - 1) ++ [0, 0]).take n
  bs ++ dst.drop bs.length

def lastElem (path : List UInt8) : List UInt8 := (path.reverse.takeWhile fun b => b ≠ 47).reverse

/-- The label `bad`. -/
def bad (pgdir ip : Option ℕ) : X ℤ := do
  match pgdir with
  | none => pure ⟨⟩
  | some d => vm (freevm K d)
  match ip with
  | none => pure ⟨⟩
  | some ip => do
    iunlockput ip
    endOp
  return -1

/-- Commit to the user image; `switchuvm` loads the directory. -/
def commit (pgdir sz entry sp : ℕ) : X ℤ := do
  let s ← get
  let oldpgdir := s.task.pgdir
  modify fun s => { s with task := ⟨pgdir, sz, safestrcpy s.task.name (lastElem path) 16, entry, sp⟩
    }
  modify fun s => { s with phys := { s.phys with cr3 := pgdir } }
  vm (freevm K oldpgdir)
  return 0

/-- `exec` from the stack on. -/
def execStack (argv : List (List UInt8)) (pgdir sz entry : ℕ) : X ℤ := do
  match ← vm (buildStack K pgdir sz argv) with
  | none => bad K (some pgdir) none
  | some (sz, sp) => commit K path pgdir sz entry sp

/-- `exec` from `setupkvm` on. -/
def execLoad (argv : List (List UInt8)) (ip : ℕ) (c : List UInt8) (elf : Elfhdr) : X ℤ := do
  match ← vm (setupkvm K) with
  | none => bad K none (some ip)
  | some pgdir => do
    match ← vm (segments K pgdir c elf.phnum elf.phoff 0) with
    | none => bad K (some pgdir) (some ip)
    | some sz => do
      iunlockput ip
      endOp
      execStack K path argv pgdir sz elf.entry

/-- `exec` with the file open. -/
def execFile (argv : List (List UInt8)) (ip : ℕ) (c : List UInt8) : X ℤ :=
  match readAll c 0 elfhdrSize with
  | none => bad K none (some ip)
  | some bs =>
    if (elfhdr bs).magic ≠ ELF_MAGIC then bad K none (some ip) else
      execLoad K path argv ip c (elfhdr bs)

def exec (E : Files) (path : List UInt8) (argv : List (List UInt8)) : X ℤ := do
  beginOp
  match ← namei E path with
  | none => do
    endOp
    return -1
  | some ip => execFile K path argv ip (E.contents ip)

/-! ## `sys_exec` -/

def userByte (s : Kern) (a : ℕ) : UInt8 := (byteAt s.phys s.task.pgdir a).getD 0

/-- The loop of `fetchstr`: the bytes from `p` to a NUL, of which there are at most `n`. -/
def scan (s : Kern) : ℕ → ℕ → Option (List UInt8)
  | 0, _ => none
  | n + 1, p => if userByte s p = 0 then some [] else (scan s n (p + 1)).map fun bs =>
    userByte s p :: bs

end Xv6.Exec
