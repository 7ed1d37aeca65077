import Xv6.Fs.Inodes

/-!
# Reading what has blocks

As long as the blocks that they touch are there, `bmap`, `readi` and the loops over directories
change nothing, and return the bytes of the file.
-/

namespace Xv6

open LittleEndian List Nat

variable (disk : Disk) (d : Dinode)

/-- Byte `o` of the contents of an inode. -/
def Dinode.byteAt (o : ℕ) : UInt8 := getByte (disk (d.block disk (o / BSIZE))) (o % BSIZE)

def Dinode.bytes (off n : ℕ) : List UInt8 :=
  (range n).map fun i => d.byteAt disk (off + i)

def Dinode.dirent (j : ℕ) : Dirent := Dirent.ofBytes (d.bytes disk (j * DIRENT) DIRENT)

theorem Dinode.length_bytes (off n : ℕ) : (d.bytes disk off n).length = n := by
  simp [Dinode.bytes]

theorem Dinode.bytes_append (off m n : ℕ) :
    d.bytes disk off m ++ d.bytes disk (off + m) n = d.bytes disk off (m + n) := by
  unfold Dinode.bytes
  rw [range_add, map_append, map_map]
  simp only [Function.comp_def, add_assoc]

namespace FS

open Fallible

variable {w : Dev} {d : Dinode}

theorem bmap_mapped {bn : ℕ} (h : d.block w.disk bn ≠ 0) :
    bmap d bn w = (.ok (d.block w.disk bn, d), w) := by
  unfold bmap
  by_cases hd : bn < NDIRECT
  · rw [Dinode.block_direct hd] at h ⊢
    rw [dif_pos hd, if_neg h]
    rfl
  · have hlt : bn < MAXFILE := by
      by_contra hc
      exact h (Dinode.block_of_le (not_lt.1 hc))
    have hind : d.indirect ≠ 0 := fun hc => h (Dinode.block_of_indirect_eq_zero (not_lt.1 hd) hc)
    rw [Dinode.block_indirect (not_lt.1 hd) hlt hind] at h ⊢
    have hload : loadIndirect d w = (.ok d, w) := by
      rw [loadIndirect, if_neg hind]
      rfl
    have hin := sub_ndirect_lt hlt
    rw [dif_neg hd, if_pos hin, bind_ok hload]
    simp only [run_get_bind, if_neg h, run_pure]

theorem bytesAt_block {disk : Disk} {off m : ℕ} (hm : off % BSIZE + m ≤ BSIZE) :
    bytesAt disk (d.block disk (off / BSIZE)) (off % BSIZE) m = d.bytes disk off m := by
  refine map_congr_left fun i hi => ?_
  have hi' := mem_range.1 hi
  have hB : BSIZE = 512 := rfl
  simp only [hB] at hm
  have hdiv : (off + i) / BSIZE = off / BSIZE := by
    rw [hB]
    omega
  have hmod : (off + i) % BSIZE = off % BSIZE + i := by
    rw [hB]
    omega
  rw [Dinode.byteAt, hdiv, hmod]

theorem readiLoop_mapped {off n : ℕ}
    (h : ∀ o, off ≤ o → o < off + n → d.block w.disk (o / BSIZE) ≠ 0) :
    readiLoop d off n w = (.ok (d.bytes w.disk off n, d), w) := by
  induction hn : n using Nat.strong_induction_on generalizing off n with
  | _ k ih =>
    subst hn
    rw [readiLoop]
    by_cases hz : n = 0
    · rw [if_pos hz, hz]
      rfl
    · have hmod := Nat.mod_lt off (by decide : 0 < BSIZE)
      have hm : 0 < min n (BSIZE - off % BSIZE) := by omega
      have hadd : min n (BSIZE - off % BSIZE) + (n - min n (BSIZE - off % BSIZE)) = n := by omega
      have hrest : readiLoop d (off + min n (BSIZE - off % BSIZE)) (n - min n (BSIZE - off % BSIZE))
        w = _ :=
        ih (n - min n (BSIZE - off % BSIZE)) (by omega) (fun o h₁ h₂ => h o (by omega) (by omega))
        rfl
      rw [if_neg hz, bind_ok (bmap_mapped (h off le_rfl (by omega)))]
      simp only [run_get_bind, bind_ok hrest, run_pure]
      rw [bytesAt_block (by omega), Dinode.bytes_append, hadd]

theorem readi_mapped {off n : ℕ} (ht : d.type ≠ T_DEV) (hoff : off ≤ d.size) (hn : off + n < 2 ^ 32)
    (h : ∀ o, o < off + n → o < d.size → d.block w.disk (o / BSIZE) ≠ 0) :
    readi d off n w = (.ok (some (d.bytes w.disk off (min n (d.size - off))), d), w) := by
  have hmod : (off + n) % 2 ^ 32 = off + n := mod_eq_of_lt hn
  have hmin : (if d.size < off + n then d.size - off else n) = min n (d.size - off) := by
    split_ifs <;> omega
  rw [readi, if_neg ht, hmod, if_neg (by omega), hmin]
  have hloop : readiLoop d off (min n (d.size - off)) w = _ :=
    readiLoop_mapped fun o h₁ h₂ => h o (by omega) (by omega)
  rw [bind_ok hloop]
  rfl

theorem readDirent_mapped (e : Panic) {j : ℕ} (ht : d.type = T_DIR)
    (hle : (j + 1) * DIRENT ≤ d.size) (hsize : d.size < 2 ^ 32)
    (h : ∀ o, o < (j + 1) * DIRENT → d.block w.disk (o / BSIZE) ≠ 0) :
    readDirent e d (j * DIRENT) w = (.ok (d.dirent w.disk j, d), w) := by
  have hj : j * DIRENT + DIRENT ≤ d.size := by rwa [← succ_mul]
  have hmin : min DIRENT (d.size - j * DIRENT) = DIRENT := by omega
  have hr : readi d (j * DIRENT) DIRENT w = _ :=
    readi_mapped (by rw [ht]; decide) (by omega) (by omega)
    fun o ho _ => h o (by rwa [succ_mul])
  rw [hmin] at hr
  rw [readDirent, bind_ok hr]
  simp only [Dinode.length_bytes, if_true, run_pure]
  rfl

theorem dirlookupLoop_found {name : Name} {j n i : ℕ} (ht : d.type = T_DIR)
    (hsize : d.size < 2 ^ 32) (hle : (j + 1) * DIRENT ≤ d.size)
    (hblock : ∀ o, o < (j + 1) * DIRENT → d.block w.disk (o / BSIZE) ≠ 0)
    (hj : (d.dirent w.disk j).inum ≠ 0 ∧ namecmp name (d.dirent w.disk j).name)
    (hfirst : ∀ k < j, ¬ ((d.dirent w.disk k).inum ≠ 0 ∧ namecmp name (d.dirent w.disk k).name))
    (hi : i ≤ j) (hn : j < i + n) :
    dirlookupLoop name n d (i * DIRENT) w = (.ok (some ((d.dirent w.disk j).inum, j * DIRENT), d),
      w) := by
  induction n generalizing i with
  | zero => omega
  | succ n ih =>
    have hij' : (i + 1) * DIRENT ≤ (j + 1) * DIRENT := mul_le_mul_right _ (by omega)
    have hread := readDirent_mapped .dirlookupRead ht (j := i) (hij'.trans hle) hsize fun o ho =>
      hblock o (ho.trans_le hij')
    rw [dirlookupLoop, bind_ok hread]
    by_cases hij : i = j
    · simp only [hij, if_pos hj, run_pure]
    · simp only [if_neg (hfirst i (by omega)), ← succ_mul]
      exact ih (by omega) (by omega)

/-! ## Looking up names -/

theorem iget_new {P : Type} (s : State P) (inum : ℕ)
    (hfind : ∀ ip, 0 < (s.icache ip).ref → (s.icache ip).inum ≠ inum)
    (hfree : ∃ ip, (s.icache ip).ref = 0) : ∃ ip, (s.icache ip).ref = 0 ∧
      iget inum s = (.ok ip, s.setInode ip { s.icache ip with inum := inum, ref := 1, valid :=
  false }) := by
  have hnone : s.find inum = none := by
    refine find?_eq_none.2 fun ip _ hc => ?_
    have hc := of_decide_eq_true hc
    exact hfind ip hc.1 hc.2
  obtain ⟨ip, hip⟩ := hfree
  have hsome : s.empty.isSome := find?_isSome.2 ⟨ip, mem_finRange ip, decide_eq_true hip⟩
  obtain ⟨ip', hip'⟩ := Option.isSome_iff_exists.1 hsome
  have hfound : (finRange NINODE).find? (fun ip => decide ((s.icache ip).ref = 0)) = some ip' :=
    hip'
  have hzero := find?_some hfound
  refine ⟨ip', of_decide_eq_true hzero, ?_⟩
  simp only [iget, hnone, hip']

theorem State.setD_self {P : Type} (s : State P) (ip : Ip) : s.setD ip (s.icache ip).d = s := by
  unfold State.setD State.setInode
  simp only [Function.update_eq_self]

section

variable {P α : Type} {s : State P} {f : Dinode → DevM (α × Dinode)}

theorem onDev_ok {a : α} {w' : Dev} {m : DevM α} (h : m s.dev = (.ok a, w')) :
    onDev m s = (.ok a, { s with dev := w' }) := by
  unfold onDev
  rw [h]

theorem withInode_ok {ip : Ip} {a : α} {d' : Dinode} {w' : Dev}
    (h : f (s.icache ip).d s.dev = (.ok (a, d'), w')) :
    withInode ip f s = (.ok a, State.setD { s with dev := w' } ip d') := by
  have hdev : (onDev (f (s.icache ip).d) : M P (α × Dinode)) s = _ := onDev_ok h
  simp only [withInode, run_get_bind, bind_ok hdev, run_modify_bind, run_pure]

theorem withInode_error {ip : Ip} {e : Panic} {w' : Dev}
    (h : f (s.icache ip).d s.dev = (.error e, w')) :
    withInode ip f s = (.error e, { s with dev := w' }) := by
  have hdev : (onDev (f (s.icache ip).d) : M P (α × Dinode)) s =
    (.error e, { s with dev := w' }) := by
    unfold onDev
    rw [h]
  simp only [withInode, run_get_bind, bind_error hdev]

theorem withInode_same {ip : Ip} {a : α}
    (h : f (s.icache ip).d s.dev = (.ok (a, (s.icache ip).d), s.dev)) :
    withInode ip f s = (.ok a, s) := by
  rw [withInode_ok h]
  exact congrArg _ (State.setD_self s ip)

end

end FS

theorem pathElems_slash {name : Name} (hne : name ≠ []) (hslash : slash ∉ name) :
    pathElems (slash :: name) = [name.take DIRSIZ] := by
  have hall : ∀ c ∈ name, (c != slash) := by
    intro c hc
    have : c ≠ slash := by
      rintro rfl
      exact hslash hc
    simpa using this
  obtain ⟨c, l, rfl⟩ := exists_cons_of_ne_nil hne
  have hc : (c == slash) = false := by
    have := hall c mem_cons_self
    simpa using this
  have hdrop : (slash :: c :: l).dropWhile (· == slash) = c :: l := by
    rw [dropWhile_cons_of_pos (by simp), dropWhile_cons_of_neg (by simp [hc])]
  have htake : (c :: l).takeWhile (· != slash) = c :: l := takeWhile_eq_self_iff.2 hall
  have hrest : (c :: l).dropWhile (· != slash) = [] := dropWhile_eq_nil_iff.2 hall
  have hskip : skipelem (slash :: c :: l) = some ((c :: l).take DIRSIZ, []) := by
    simp only [skipelem, hdrop, htake, hrest, cons_ne_nil, if_false, dropWhile_nil]
  rw [pathElems_eq, hskip]
  rfl

end Xv6
