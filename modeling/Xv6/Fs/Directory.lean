import Xv6.Fs.Contents

/-!
# Directories

The contents of a directory are entries of 16 bytes; an entry with the number 0 is free.  `n.find
name` is the first entry with a name, `n.lookup name` the inode that it names, and `n.setEntry j de`
the directory after entry `j` is written.  If names are distinct (`Node.Distinct`), a directory is a
finite map.
-/

namespace Xv6

open LittleEndian Overwrite List Option Nat

theorem Dirent.ofBytes_bytes {de : Dirent} (hi : de.inum < 2 ^ 16) (hname : (0 : UInt8) ∉ de.name) :
    Dirent.ofBytes de.bytes = ⟨de.inum, de.name.take DIRSIZ⟩ := by
  rcases hof : Dirent.ofBytes de.bytes with ⟨i, l⟩
  have h₁ := Dirent.inum_ofBytes_bytes hi
  have h₂ := Dirent.name_ofBytes_bytes hname
  rw [hof] at h₁ h₂
  subst h₁ h₂
  rfl

namespace Node

variable (n : Node) (name : Name)

def slots : ℕ := n.data.length / DIRENT

def entry (j : ℕ) : Dirent := Dirent.ofBytes ((n.data.drop (j * DIRENT)).take DIRENT)

def has (j : ℕ) : Bool := decide ((n.entry j).inum ≠ 0 ∧ namecmp name (n.entry j).name)

def find : Option ℕ := (range n.slots).find? (n.has name)

def lookup : Option ℕ := (n.find name).map fun j => (n.entry j).inum

/-- The first free entry, or the one behind the last. -/
def freeSlot : ℕ := ((range n.slots).find? fun j => decide ((n.entry j).inum = 0)).getD
    n.slots

def setEntry (j : ℕ) (de : Dirent) :
    Node := { n with data := overwrite n.data (j * DIRENT) de.bytes }

def Whole : Prop := n.data.length = n.slots * DIRENT

def Distinct : Prop :=
  ∀ j < n.slots, ∀ k < n.slots, (n.entry j).inum ≠ 0 → n.has (n.entry j).name k → j = k

instance  : Decidable n.Whole := inferInstanceAs (Decidable (_ = _))

instance  : Decidable n.Distinct :=
  inferInstanceAs (Decidable (∀ j < n.slots, ∀ k < n.slots, _))

variable {n : Node} {name : Name} {i j k : ℕ} {de : Dirent}

theorem has_iff : n.has name j ↔ (n.entry j).inum ≠ 0 ∧
    name.take DIRSIZ = (n.entry j).name.take DIRSIZ := by
  rw [has, decide_eq_true_iff, namecmp_iff]

theorem find_some (h : n.find name = some j) : j < n.slots ∧ n.has name j :=
  ⟨mem_range.1 (mem_of_find?_eq_some h), find?_some h⟩

theorem find_eq_none : n.find name = none ↔ ∀ j < n.slots, n.has name j = false := by
  rw [find, find?_eq_none]
  simp only [mem_range, Bool.not_eq_true]

theorem Distinct.find_eq_some (h : n.Distinct) : n.find name = some j ↔ j < n.slots ∧
    n.has name j := by
  refine ⟨find_some, fun ⟨hj, hhas⟩ => ?_⟩
  rcases hf : n.find name with _ | k
  · rw [find_eq_none.1 hf j hj] at hhas
    cases hhas
  · obtain ⟨hk, hhas'⟩ := find_some hf
    rw [has_iff] at hhas hhas'
    have hkj : n.has (n.entry k).name j := has_iff.2 ⟨hhas.1, hhas'.2.symm.trans hhas.2⟩
    rw [h k hk j hj hhas'.1 hkj]

theorem lookup_eq_some : n.lookup name = some i ↔ ∃ j, n.find name = some j ∧
    (n.entry j).inum = i := by
  simp [lookup]

theorem lookup_eq_none : n.lookup name = none ↔ n.find name = none := by
  simp [lookup]

theorem has_congr {name' : Name} (h : namecmp name' name) : n.has name' = n.has name := by
  funext j
  have := namecmp_iff.1 h
  rw [Bool.eq_iff_iff, has_iff, has_iff, this]

/-! ## Writing an entry -/

theorem entry_of_le (h : n.Whole) (hj : n.slots ≤ j) : (n.entry j).inum = 0 := by
  have hlen : n.data.length ≤ j * DIRENT := by
    rw [h]
    exact mul_le_mul_right _ hj
  rw [entry, drop_eq_nil_of_le hlen]
  rfl

theorem freeSlot_le (n : Node) : n.freeSlot ≤ n.slots := by
  unfold freeSlot
  rcases hf : (range n.slots).find? fun j => decide ((n.entry j).inum = 0) with _ | j
  · exact le_rfl
  · exact (mem_range.1 (mem_of_find?_eq_some hf)).le

theorem freeSlot_lt : n.freeSlot < n.slots ↔ ∃ j < n.slots, (n.entry j).inum = 0 := by
  unfold freeSlot
  rcases hf : (range n.slots).find? fun j => decide ((n.entry j).inum = 0) with _ | j
  · refine ⟨fun hc => absurd hc (lt_irrefl _), fun ⟨j, hj, hz⟩ => ?_⟩
    exact absurd (decide_eq_true hz) (find?_eq_none.1 hf j (mem_range.2 hj))
  · have hlt := mem_range.1 (mem_of_find?_eq_some hf)
    have hz := find?_some hf
    exact ⟨fun _ => ⟨j, hlt, of_decide_eq_true hz⟩, fun _ => hlt⟩

theorem entry_freeSlot (h : n.Whole) : (n.entry n.freeSlot).inum = 0 := by
  unfold freeSlot
  rcases hf : (range n.slots).find? fun j => decide ((n.entry j).inum = 0) with _ | j
  · exact entry_of_le h le_rfl
  · have := find?_some hf
    exact of_decide_eq_true this

theorem Whole.le_length (h : n.Whole) (hj : j ≤ n.slots) : j * DIRENT ≤ n.data.length := by
  rw [h]
  exact mul_le_mul_right _ hj

theorem length_setEntry (h : n.Whole) (hj : j ≤ n.slots) (de : Dirent) :
    (n.setEntry j de).data.length = max n.slots (j + 1) * DIRENT := by
  have hD : DIRENT = 16 := rfl
  show (overwrite n.data (j * DIRENT) de.bytes).length = _
  rw [length_overwrite _ (h.le_length hj), de.length_bytes, h, hD]
  omega

theorem slots_setEntry (h : n.Whole) (hj : j ≤ n.slots) (de : Dirent) :
    (n.setEntry j de).slots = max n.slots (j + 1) := by
  rw [slots, length_setEntry h hj, Nat.mul_div_cancel _ (by decide)]

theorem whole_setEntry (h : n.Whole) (hj : j ≤ n.slots) (de : Dirent) :
    (n.setEntry j de).Whole := by
  rw [Whole, slots_setEntry h hj, length_setEntry h hj]

theorem entry_setEntry (h : n.Whole) (hj : j ≤ n.slots) (de : Dirent) (k : ℕ) :
    (n.setEntry j de).entry k = if k = j then Dirent.ofBytes de.bytes else n.entry k := by
  have hD : DIRENT = 16 := rfl
  have hlen := de.length_bytes
  unfold entry setEntry
  dsimp only
  split_ifs with hk
  · rw [hk, ← hlen, take_drop_overwrite _ (hlen ▸ h.le_length hj)]
  · rw [take_drop_overwrite_of_disjoint _ (h.le_length hj) (by rw [hlen, hD]; omega)]

/-! ## A finite map -/

theorem has_lt (h : n.Whole) (hhas : n.has name j) : j < n.slots := by
  by_contra hc
  exact (has_iff.1 hhas).1 (entry_of_le h (not_lt.1 hc))

theorem Distinct.lookup_eq_some (h : n.Distinct) (hw : n.Whole) :
    n.lookup name = some i ↔ ∃ j, n.has name j ∧ (n.entry j).inum = i := by
  rw [Node.lookup_eq_some]
  refine exists_congr fun j => and_congr_left fun _ => ?_
  rw [h.find_eq_some]
  exact ⟨And.right, fun hj => ⟨has_lt hw hj, hj⟩⟩

theorem lookup_of_entry {n' : Node} {d : Dirent} (hw : n.Whole) (hw' : n'.Whole) (hd : n.Distinct)
    (he : ∀ k, n'.entry k = if k = j then d else n.entry k)
    (hfresh : d.inum ≠ 0 → ∀ k, k ≠ j → n.has d.name k = false) :
    n'.Distinct ∧ ∀ name, n'.lookup name = if d.inum ≠ 0 ∧ namecmp name d.name then some d.inum
      else if n.has name j then none else n.lookup name := by
  have hhas : ∀ name k, n'.has name k =
      if k = j then decide (d.inum ≠ 0 ∧ namecmp name d.name) else n.has name k := by
    intro name k
    rw [has, has, he]
    split_ifs <;> rfl
  -- two entries with one name
  have hinj : ∀ name k l, n'.has name k → n'.has name l → k = l := by
    intro name k l hk hl
    have hold : ∀ k l, k ≠ j → l = j → n'.has name k → n'.has name l → False := by
      intro k l hkj hlj hk hl
      rw [hhas, if_neg hkj] at hk
      rw [hhas, if_pos hlj, decide_eq_true_iff] at hl
      have := hfresh hl.1 k hkj
      rw [← has_congr hl.2, hk] at this
      cases this
    by_cases hkj : k = j <;> by_cases hlj : l = j
    · exact hkj.trans hlj.symm
    · exact (hold l k hlj hkj hl hk).elim
    · exact (hold k l hkj hlj hk hl).elim
    · rw [hhas, if_neg hkj] at hk
      rw [hhas, if_neg hlj] at hl
      have h₁ := (hd.find_eq_some.2 ⟨has_lt hw hk, hk⟩).symm.trans
        (hd.find_eq_some.2 ⟨has_lt hw hl, hl⟩)
      exact some.inj h₁
  have hd' : n'.Distinct := by
    intro k _ l _ hk hl
    exact hinj _ k l (has_iff.2 ⟨hk, rfl⟩) hl
  refine ⟨hd', fun name => ?_⟩
  by_cases hnew : d.inum ≠ 0 ∧ namecmp name d.name
  · rw [if_pos hnew, hd'.lookup_eq_some hw']
    exact ⟨j, by rw [hhas, if_pos rfl]; exact decide_eq_true hnew, by rw [he, if_pos rfl]⟩
  · have hj : n'.has name j = false := by
      rw [hhas, if_pos rfl]
      exact decide_eq_false hnew
    rw [if_neg hnew]
    refine ext fun i => ?_
    rw [hd'.lookup_eq_some hw']
    split_ifs with hold
    · -- the only entry with the name is gone
      simp only [iff_false, not_exists, not_and]
      intro k hk
      have hkj : k ≠ j := by
        rintro rfl
        rw [hj] at hk
        cases hk
      rw [hhas, if_neg hkj] at hk
      have h₁ := (hd.find_eq_some.2 ⟨has_lt hw hk, hk⟩).symm.trans
        (hd.find_eq_some.2 ⟨has_lt hw hold, hold⟩)
      exact absurd (some.inj h₁) hkj
    · rw [hd.lookup_eq_some hw]
      refine exists_congr fun k => ?_
      by_cases hkj : k = j
      · subst hkj
        simp only [hj, hold, Bool.false_eq_true, false_and]
      · rw [hhas, if_neg hkj, he, if_neg hkj]

theorem lookup_link (hw : n.Whole) (hd : n.Distinct) (hi : 0 < i) (hi' : i < 2 ^ 16)
    (hname : (0 : UInt8) ∉ name) (hnone : n.find name = none) (hj : j ≤ n.slots)
    (hfree : (n.entry j).inum = 0) : (n.setEntry j ⟨i, name⟩).Distinct ∧
    ∀ name', (n.setEntry j ⟨i, name⟩).lookup name' = if namecmp name' name then some i else
      n.lookup name' := by
  have hcut : ∀ name', namecmp name' (name.take DIRSIZ) = namecmp name' name := by
    intro name'
    rw [Bool.eq_iff_iff, namecmp_iff, namecmp_iff, take_take, min_self]
  have he : ∀ k, (n.setEntry j ⟨i, name⟩).entry k = if k = j then ⟨i, name.take DIRSIZ⟩ else
    n.entry k := by
    intro k
    rw [entry_setEntry hw hj, Dirent.ofBytes_bytes hi' hname]
  have hnot : ∀ name', n.has name' j = false := by
    intro name'
    rw [has, decide_eq_false_iff_not]
    exact fun hc => hc.1 hfree
  have hfresh : ∀ k, n.has (name.take DIRSIZ) k = false := by
    intro k
    have hsame : n.has (name.take DIRSIZ) = n.has name :=
      has_congr (by rw [namecmp_iff, take_take, min_self])
    rw [hsame]
    by_contra hc
    have hhas : n.has name k := by simpa using hc
    rw [find_eq_none.1 hnone k (has_lt hw hhas)] at hhas
    cases hhas
  obtain ⟨hd', hl⟩ := lookup_of_entry hw (whole_setEntry hw hj _) hd he fun _ k _ => hfresh k
  refine ⟨hd', fun name' => ?_⟩
  have hpos : i ≠ 0 := by omega
  rw [hl, hnot]
  simp only [hcut, ne_eq, hpos, not_false_eq_true, true_and, Bool.false_eq_true, if_false]

theorem lookup_clear (hw : n.Whole) (hd : n.Distinct) (hj : n.find name = some j) :
    (n.setEntry j ⟨0, []⟩).Distinct ∧ ∀ name', (n.setEntry j ⟨0, []⟩).lookup name' =
      if namecmp name' name then none else n.lookup name' := by
  obtain ⟨hlt, hhas⟩ := find_some hj
  have he : ∀ k, (n.setEntry j ⟨0, []⟩).entry k = if k = j then ⟨0, []⟩ else n.entry k := by
    intro k
    rw [entry_setEntry hw hlt.le, Dirent.ofBytes_bytes (by decide) (by simp)]
    rfl
  obtain ⟨hd', hl⟩ := lookup_of_entry hw (whole_setEntry hw hlt.le _) hd he fun hc => absurd rfl hc
  refine ⟨hd', fun name' => ?_⟩
  have hiff : n.has name' j ↔ namecmp name' name := by
    rw [has_iff, namecmp_iff, (has_iff.1 hhas).2]
    exact ⟨And.right, fun h => ⟨(has_iff.1 hhas).1, h⟩⟩
  rw [hl]
  simp only [hiff, ne_eq, not_true, false_and, if_false]

end Node

/-! ## The loops over a directory -/

namespace FS

open Fallible

variable {w : Dev} {i : ℕ}

structure Dev.IsDir (w : Dev) (i : ℕ) : Prop where
  sound : w.Sound
  type : (w.live i).type = T_DIR
  whole : (w.inode i).Whole

section

variable (h : w.IsDir i)

include h

theorem Dev.IsDir.size : (w.live i).size = (w.inode i).slots * DIRENT := by
  rw [← Dev.length_data]
  exact h.whole

theorem Dev.IsDir.rounds (k : ℕ) : rounds (w.live i) (k * DIRENT) = (w.inode i).slots - k := by
  have hD : DIRENT = 16 := rfl
  rw [FS.rounds, h.size, hD]
  omega

theorem Dev.IsDir.readDirent (e : Panic) {j : ℕ} (hj : j < (w.inode i).slots) :
    readDirent e (w.live i) (j * DIRENT) w = (.ok ((w.inode i).entry j, w.live i), w) := by
  have hle : (j + 1) * DIRENT ≤ (w.live i).size := by
    rw [h.size]
    exact mul_le_mul_right _ hj
  have hentry : (w.live i).dirent w.disk j = (w.inode i).entry j := by
    rw [Dinode.dirent, Dinode.bytes_eq_drop_take w.disk (w.live i) (w.live i).size
      (by rw [← succ_mul]; exact hle)]
    rfl
  have hmapped := h.sound.mapped i (by rw [h.type]; decide)
  rw [readDirent_mapped e h.type hle (w.live_fits i).size fun o ho => hmapped o (ho.trans_le hle),
    hentry]

theorem Dev.IsDir.dirlookupLoop (name : Name) {k m : ℕ} (hm : k + m = (w.inode i).slots) :
    dirlookupLoop name m (w.live i) (k * DIRENT) w =
      (.ok (((range' k m).find? ((w.inode i).has name)).map fun j =>
      (((w.inode i).entry j).inum, j * DIRENT), w.live i), w) := by
  induction m generalizing k with
  | zero => rfl
  | succ m ih =>
    rw [FS.dirlookupLoop, bind_ok (h.readDirent .dirlookupRead (j := k) (by omega)), range'_succ,
      find?_cons]
    by_cases hhas : (w.inode i).has name k
    · have hcond := of_decide_eq_true hhas
      simp only [if_pos hcond, hhas, run_pure, map_some]
    · have hcond : ¬ (((w.inode i).entry k).inum ≠ 0 ∧ namecmp name ((w.inode i).entry k).name) :=
        fun hc =>
        hhas (decide_eq_true hc)
      simp only [if_neg hcond, hhas, ← succ_mul]
      exact ih (by omega)

theorem Dev.IsDir.dirlinkLoop {k m : ℕ} (hm : k + m = (w.inode i).slots) :
    dirlinkLoop m (w.live i) (k * DIRENT) w =
      (.ok ((((range' k m).find? fun j => decide (((w.inode i).entry j).inum = 0)).getD
      (w.inode i).slots) * DIRENT, w.live i), w) := by
  induction m generalizing k with
  | zero =>
    rw [FS.dirlinkLoop, ← hm]
    rfl
  | succ m ih =>
    rw [FS.dirlinkLoop, bind_ok (h.readDirent .dirlinkRead (j := k) (by omega)), range'_succ,
      find?_cons]
    by_cases hz : ((w.inode i).entry k).inum = 0
    · simp only [hz, decide_true, if_true, run_pure, getD_some]
    · simp only [hz, decide_false, if_false, ← succ_mul]
      exact ih (by omega)

theorem Dev.IsDir.lookup (name : Name) :
    FS.dirlookupLoop name (FS.rounds (w.live i) 0) (w.live i) 0 w =
      (.ok (((w.inode i).find name).map fun j => (((w.inode i).entry j).inum, j * DIRENT),
      w.live i), w) := by
  have hr := h.rounds 0
  have hl := h.dirlookupLoop name (k := 0) (zero_add _)
  rw [zero_mul] at hr hl
  rw [hr, tsub_zero, hl, Node.find, range_eq_range']

theorem Dev.IsDir.freeSlot : FS.dirlinkLoop (FS.rounds (w.live i) 0) (w.live i) 0 w =
      (.ok ((w.inode i).freeSlot * DIRENT, w.live i), w) := by
  have hr := h.rounds 0
  have hl := h.dirlinkLoop (k := 0) (zero_add _)
  rw [zero_mul] at hr hl
  rw [hr, tsub_zero, hl, Node.freeSlot, range_eq_range']

end

end FS

end Xv6
