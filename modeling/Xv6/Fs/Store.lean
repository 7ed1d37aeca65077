import Xv6.Fs.Freeing
import Xv6.Lib.Machine

/-!
# The inodes as a store

Calls of `ialloc`, `readi`, `writei`, `iupdate` and `ifree` on one disk, one after the other, each
for an inode that is allocated.  `Call.Spec` is what they are for: a map from numbers to inodes with
their bytes.
-/

namespace Xv6.FS

open Fallible Overwrite Dev

/-- `ialloc`, without the entry of the inode cache. -/
def ialloc (type : ℕ) : DevM ℕ := do
  let w ← get
  match (List.range w.sb.ninodes).find? fun i => i ≠ 0 ∧ (w.dinode i).type = 0 with
  | some i =>
    iupdate i { Dinode.zero with type := type }
    return i
  | none => throw .ialloc

inductive Call where
  | alloc (type : ℕ)
  | read (i off n : ℕ)
  | write (i : ℕ) (src : List UInt8) (off : ℕ)
  | update (i major minor nlink : ℕ)
  | free (i : ℕ)

inductive Reply where
  | inum (i : ℕ)
  | bytes (l : Option (List UInt8))
  | count (n : Option ℕ)
  | done

/-- A call on the inode that `ilock` has read. -/
def Call.run : Call → DevM Reply
  | .alloc type => do
    let i ← ialloc type
    return .inum i
  | .read i off n => do
    let w ← get
    let (l, _) ← readi (w.live i) off n
    return .bytes l
  | .write i src off => do
    let w ← get
    let (n, _) ← writei i (w.live i) src off
    return .count n
  | .update i major minor nlink => do
    let w ← get
    iupdate i { w.live i with major := major, minor := minor, nlink := nlink }
    return .done
  | .free i => do
    let w ← get
    let _ ← ifree i (w.live i)
    return .done

/-- The arguments are those of C, and the inode is allocated; reads and writes of a device do not
concern the disk. -/
def Call.Ok (N : ℕ → Node) : Call → Prop
  | .alloc type => type ≠ 0 ∧ type < 2 ^ 16
  | .read i off n => (N i).type ≠ 0 ∧ (N i).type ≠ T_DEV ∧ off < 2 ^ 32 ∧ n < 2 ^ 32
  | .write i src off => (N i).type ≠ 0 ∧ (N i).type ≠ T_DEV ∧ off < 2 ^ 32 ∧ src.length < 2 ^ 32
  | .update i major minor nlink => (N i).type ≠ 0 ∧ major < 2 ^ 16 ∧ minor < 2 ^ 16 ∧ nlink < 2 ^ 16
  | .free i => (N i).type ≠ 0

instance decidableOk (N : ℕ → Node) : ∀ c : Call, Decidable (c.Ok N)
  | .alloc _ | .read .. | .write .. | .update .. => inferInstanceAs (Decidable (_ ∧ _))
  | .free _ => inferInstanceAs (Decidable (_ ≠ _))

/-- The reply to a call, and the inodes after it. -/
def Call.Spec (N : ℕ → Node) : Call → Reply → (ℕ → Node) → Prop
  | .alloc type, r, N' => ∃ i, r = .inum i ∧ 0 < i ∧ N i = .free ∧
    (∀ j, 0 < j → j < i → N j ≠ .free) ∧
      N' = Function.update N i { Node.free with type := type }
  | .read i off n, r, N' => N' = N ∧ r = .bytes (if (N i).data.length < off ∨ 2 ^ 32 ≤ off + n then
    none
      else some (((N i).data.drop off).take n))
  | .write i src off, r, N' =>
    if off ≤ (N i).data.length ∧ off + src.length ≤ MAXFILE * BSIZE then
      r = .count (some src.length) ∧
      N' = Function.update N i { N i with data := overwrite (N i).data off src }
    else r = .count none ∧ N' = N
  | .update i major minor nlink, r, N' => r = .done ∧
      N' = Function.update N i { N i with major := major, minor := minor, nlink := nlink }
  | .free i, r, N' => r = .done ∧ N' = Function.update N i .free

/-- The panics: there is no inode left, or not the blocks that the bytes need. -/
def Call.Panics (w : Dev) : Call → Panic → Prop
  | .alloc _, e => e = .ialloc ∧ ∀ j, 0 < j → j < w.sb.ninodes → w.inode j ≠ .free
  | .write i src off, e =>
    e = .balloc ∧ w.freeBlocks < (w.live i).needs w.disk (off / BSIZE) (endBlock off src.length)
  | _, _ => False

/-- The call does what it is for, or there is no room. -/
def Call.Sat (w : Dev) (c : Call) : Prop :=
  Fallible.Sat (fun e _ => c.Panics w e) (fun r w' => w'.Sound ∧ c.Spec w.inode r w'.inode)
    (c.run w)

variable {w w₀ : Dev}

theorem Dev.inode_ne_free {i : ℕ} (hi : i < w.sb.ninodes) (h : (w.dinode i).type ≠ 0) :
    w.inode i ≠ .free := by
  have hlive : w.live i = w.dinode i := if_pos ⟨hi, h⟩
  intro hfree
  rw [inode, hlive] at hfree
  exact h (congrArg Node.type hfree)

theorem Dev.Sound.ialloc_spec {type : ℕ} (h : w.Sound) (ht : type ≠ 0) (hlt : type < 2 ^ 16) :
    Sat (fun e _ => (Call.alloc type).Panics w e)
      (fun i w' => w'.Sound ∧ (Call.alloc type).Spec w.inode (.inum i) w'.inode)
      (ialloc type w) := by
  rw [ialloc, run_get_bind]
  cases hf : (List.range w.sb.ninodes).find? fun i => i ≠ 0 ∧ (w.dinode i).type = 0 with
  | none =>
    refine ⟨rfl, fun j hj hlt => w.inode_ne_free hlt fun h0 => ?_⟩
    exact absurd (List.find?_eq_none.1 hf j (List.mem_range.2 hlt)) (by simp [hj.ne', h0])
  | some i =>
    obtain ⟨hi, hmem, hfirst⟩ := List.find?_range_eq_some.1 hf
    obtain ⟨hpos, htype⟩ := of_decide_eq_true hi
    have hzero : w.live i = Dinode.zero := if_neg fun hl => hl.2 htype
    have hinode : w.inode i = .free := by rw [inode, hzero, Dinode.node_zero]
    have hfits : ({ Dinode.zero with type := type } : Dinode).Fits :=
      { Dinode.fits_zero with type := hlt }
    obtain ⟨hsound, -, hnew, -⟩ := h.iupdate_spec (i := i) (List.mem_range.1 hmem) hfits ht
      (by rw [hzero])
      (by rw [hzero]) fun _ => .inr rfl
    refine ⟨hsound, i, rfl, Nat.pos_of_ne_zero hpos, hinode, fun j hj hlt => ?_, ?_⟩
    · refine w.inode_ne_free (hlt.trans (List.mem_range.1 hmem)) fun h0 => ?_
      exact absurd (hfirst j hlt) (by simp [hj.ne', h0])
    · exact hnew.trans (by rw [hinode]; rfl)

theorem Call.run_spec (h : w.Sound) {c : Call} (hc : c.Ok w.inode) : c.Sat w := by
  unfold Call.Sat
  cases c with
  | alloc type =>
    exact (h.ialloc_spec hc.1 hc.2).bind fun i w' hi => hi
  | read i off n =>
    obtain ⟨-, hdev, hoff, hn⟩ := hc
    rw [Call.run, run_get_bind, bind_ok (h.readi_spec hdev hoff hn)]
    exact ⟨h, rfl, rfl⟩
  | write i src off =>
    obtain ⟨hlive, hdev, hoff, hn⟩ := hc
    rw [Call.run, run_get_bind]
    by_cases hfits : off ≤ (w.inode i).data.length ∧ off + src.length ≤ MAXFILE * BSIZE
    · have hsize : off ≤ (w.live i).size := by rw [← length_data]; exact hfits.1
      refine (h.writei_spec hlive hdev hsize hfits.2).bind fun r w' hr => ?_
      obtain ⟨rfl, hsound, -, hinode, -⟩ := hr
      refine ⟨hsound, ?_⟩
      rw [Call.Spec, if_pos hfits]
      exact ⟨rfl, hinode⟩
    · rw [bind_ok (writei_refused hdev hoff hn (by rwa [length_data] at hfits))]
      refine ⟨h, ?_⟩
      rw [Call.Spec, if_neg hfits]
      exact ⟨rfl, rfl⟩
  | update i major minor nlink =>
    obtain ⟨hlive, hmajor, hminor, hnlink⟩ := hc
    have hfits := w.live_fits i
    obtain ⟨hsound, -, hinode, -⟩ := h.iupdate_spec
      (d := { w.live i with major := major, minor := minor, nlink := nlink }) (live_eq hlive).1
      ⟨hfits.type, hmajor, hminor, hnlink, hfits.size, hfits.addrs⟩ hlive rfl rfl fun ht => .inl ht
    exact ⟨hsound, rfl, hinode⟩
  | free i =>
    obtain ⟨w', hrun, hsound, -, -, hinode, -⟩ := h.ifree_spec hc
    rw [Call.run, run_get_bind, bind_ok hrun]
    exact ⟨hsound, rfl, hinode⟩

/-- Calls one after the other, from the disk `w₀`; a panic ends the run. -/
def storeSys (w₀ : Dev) : Machine.Sys Dev Call where
  init w := w = w₀
  next w c := match c.run w with
    | (.ok _, w') => some w'
    | (.error _, _) => none

theorem Dev.Sound.of_calls (h₀ : w₀.Sound)
    (h : (storeSys w₀).ReachableVia (fun w c => c.Ok w.inode) w) : w.Sound := by
  refine h.invariant (I := Dev.Sound) (fun _ hw => Eq.mpr (congrArg Dev.Sound hw) h₀) fun w c w' hw
    hok hn => ?_
  have hspec := Call.run_spec hw hok
  unfold Call.Sat at hspec
  simp only [storeSys] at hn
  split at hn <;> cases hn
  rename_i hrun
  rw [hrun] at hspec
  exact hspec.1

/-- In every state the blocks are owned, each by one inode; a call does to the inodes what it is
for, or there is no free block or inode. -/
theorem inode_store (h₀ : w₀.Sound) (h : (storeSys w₀).ReachableVia (fun w c => c.Ok w.inode) w) :
    w.Sound ∧ ∀ c : Call, c.Ok w.inode → c.Sat w :=
  ⟨.of_calls h₀ h, fun _ => Call.run_spec (.of_calls h₀ h)⟩

/-- A new file, written over the end of a block and read; then it can be freed. -/
theorem inode_store_emptyFile :
    ∃ w, (storeSys (emptyFile 40 metadataBits)).ReachableVia (fun w c => c.Ok w.inode) w ∧
      (w.inode 2).type = T_FILE ∧ (w.inode 2).data.length = 700 ∧ w.Sound ∧
      (Call.free 2).Sat w := by
  obtain ⟨w, hreach, htype, hsize⟩ : ∃ w, (storeSys (emptyFile 40 metadataBits)).ReachableVia
      (fun w c => c.Ok w.inode) w ∧ (w.inode 2).type = T_FILE ∧ (w.live 2).size = 700 :=
    Machine.Sys.exists_reachableVia [.alloc T_FILE, .write 2 (List.replicate 700 7) 0,
      .read 2 500 100] rfl
      (by decide +kernel)
  obtain ⟨hs, hcall⟩ := inode_store (emptyFile_sound (n := 40) (by decide)) hreach
  exact ⟨w, hreach, htype, (length_data _ _).trans hsize, hs,
    hcall (.free 2) (by rw [Call.Ok, htype]; decide)⟩

end Xv6.FS
