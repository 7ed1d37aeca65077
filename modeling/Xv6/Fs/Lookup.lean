import Xv6.Fs.Dirlink
import Xv6.Fs.Store

/-!
# Path resolution

The names of a path are the parts between its slashes that are not empty, cut to `DIRSIZ` bytes
(`pathElems_eq_segments`).  `resolve N i names` looks names up one after the other, from the inode
`i` on, in the inodes `N` of a file system, and `resolveParent` stops before the last name.
-/

namespace Xv6

open Function List Option Prod

/-! ## The names of a path -/

/-- The parts between slashes that are not empty. -/
def segments (path : Name) : List Name := (path.splitOn slash).filter (· ≠ [])

theorem segments_nil : segments [] = [] := rfl

theorem segments_slash (path : Name) : segments (slash :: path) = segments path := by
  have h : (slash :: path).splitOn slash = [] :: path.splitOn slash :=
    splitOnP_append_cons_of_forall_mem (fun c (hc : c ∈ []) => absurd hc not_mem_nil) slash rfl path
  rw [segments, h]
  simp [segments]

theorem segments_dropWhile (path : Name) :
    segments (path.dropWhile (· == slash)) = segments path := by
  induction path with
  | nil => rfl
  | cons c path ih =>
    rw [dropWhile_cons]
    split_ifs with hc
    · obtain rfl : c = slash := by simpa using hc
      rw [ih, segments_slash]
    · rfl

theorem segments_takeWhile {path : Name} (h : path.takeWhile (· != slash) ≠ []) :
    segments path = path.takeWhile (· != slash) :: segments (path.dropWhile (· != slash)) := by
  obtain ⟨a, ha⟩ : ∃ a, a = path.takeWhile (· != slash) := ⟨_, rfl⟩
  obtain ⟨rest, hrest⟩ : ∃ rest, rest = path.dropWhile (· != slash) := ⟨_, rfl⟩
  have hpath : path = a ++ rest := by rw [ha, hrest, takeWhile_append_dropWhile]
  have hmem : ∀ c ∈ a, (c == slash) = false := by
    intro c hc
    have := mem_takeWhile_imp (ha ▸ hc)
    simpa using this
  rw [← ha] at h
  rw [← ha, ← hrest]
  cases rest with
  | nil =>
    have hsplit : a.splitOn slash = [a] := splitOnP_eq_singleton hmem
    rw [hpath, append_nil, segments, hsplit, segments_nil]
    simp [h]
  | cons c rest =>
    obtain rfl : c = slash := by
      have := head_dropWhile_not (· != slash) (hrest ▸ cons_ne_nil c rest)
      simp only [← hrest, head_cons] at this
      simpa using this
    have hsplit : (a ++ slash :: rest).splitOn slash = a :: rest.splitOn slash :=
      splitOnP_append_cons_of_forall_mem hmem slash (by simp) rest
    rw [hpath, segments, hsplit, segments_slash, segments]
    simp [h]

theorem skipelem_segments (path : Name) : (skipelem path = none ∧ segments path = []) ∨
      ∃ a rest, skipelem path = some (a.take DIRSIZ, rest) ∧
      segments path = a :: segments rest := by
  rw [skipelem, ← segments_dropWhile path]
  by_cases hne : path.dropWhile (· == slash) = []
  · refine .inl ⟨if_pos hne, ?_⟩
    rw [hne, segments_nil]
  · refine .inr ⟨_, _, if_neg hne, ?_⟩
    obtain ⟨c, l, hl⟩ := exists_cons_of_ne_nil hne
    have hc : (c != slash) := by
      have := head_dropWhile_not (· == slash) hne
      simpa [hl] using this
    have hfirst : (path.dropWhile (· == slash)).takeWhile (· != slash) ≠ [] := by
      rw [hl, takeWhile_cons_of_pos (p := (· != slash)) hc]
      exact cons_ne_nil _ _
    rw [segments_takeWhile hfirst,
      segments_dropWhile ((path.dropWhile (· == slash)).dropWhile (· != slash))]

theorem pathElems_eq_segments (path : Name) :
    pathElems path = (segments path).map (·.take DIRSIZ) := by
  induction hn : path.length using Nat.strong_induction_on generalizing path with
  | _ n ih =>
    rw [pathElems_eq]
    rcases skipelem_segments path with ⟨h₁, h₂⟩ | ⟨a, rest, h₁, h₂⟩
    · rw [h₁, h₂]
      rfl
    · have hlt := skipelem_length_lt h₁
      rw [h₁, h₂, map_cons]
      simp only
      rw [ih rest.length (hn ▸ hlt) rest rfl]

/-! ## Looking up names -/

/-- The inode reached from `i` by looking up the names one after the other. -/
def resolve (N : ℕ → Node) : ℕ → List Name → Option ℕ
  | i, [] => some i
  | i, name :: rest =>
    if (N i).type = T_DIR then ((N i).lookup name).bind fun j => resolve N j rest else none

/-- The directory reached by all names but the last, and the last. -/
def resolveParent (N : ℕ → Node) (i : ℕ) (names : List Name) : Option (ℕ × Name) :=
  names.getLast?.bind fun name => (resolve N i names.dropLast).bind fun j =>
    if (N j).type = T_DIR then some (j, name) else none

def walk (N : ℕ → Node) (nameiparent : Bool) (i : ℕ) (names : List Name) : Option (ℕ × Name) :=
  if nameiparent then resolveParent N i names else (resolve N i names).map fun j => (j, [])

section walk

variable {N : ℕ → Node} {i j : ℕ} {name : Name} {rest : List Name} {nameiparent : Bool}

theorem walk_of_ne (h : (N i).type ≠ T_DIR) : walk N nameiparent i (name :: rest) = none := by
  cases nameiparent with
  | false => simp [walk, resolve, h]
  | true =>
    cases rest with
    | nil => simp [walk, resolveParent, resolve, h]
    | cons => simp [walk, resolveParent, resolve, h]

theorem walk_last (h : (N i).type = T_DIR) : walk N true i [name] = some (i, name) := by
  simp [walk, resolveParent, resolve, h]

theorem walk_cons (h : (N i).type = T_DIR) (hrest : ¬ (nameiparent ∧ rest = [])) :
    walk N nameiparent i (name :: rest) = ((N i).lookup name).bind fun j =>
      walk N nameiparent j rest := by
  cases nameiparent with
  | false =>
    simp only [walk, resolve, h, if_true, Bool.false_eq_true, if_false]
    cases (N i).lookup name <;> rfl
  | true =>
    cases rest with
    | nil => exact absurd ⟨rfl, rfl⟩ hrest
    | cons n rest =>
      simp only [walk, resolveParent, resolve, h, if_true, dropLast_cons_cons, getLast?_cons_cons]
      cases (N i).lookup name with
      | none => simp
      | some j => rfl

end walk

/-- Directories consist of entries, which name allocated inodes. -/
def Tidy (N : ℕ → Node) : Prop :=
  ∀ i, (N i).type = T_DIR → (N i).Whole ∧ ∀ j < (N i).slots, ((N i).entry j).inum ≠ 0 →
    (N ((N i).entry j).inum).type ≠ 0

theorem Tidy.named {N : ℕ → Node} (h : Tidy N) {i j : ℕ} {name : Name} (hi : (N i).type = T_DIR)
    (hf : (N i).find name = some j) : (N ((N i).entry j).inum).type ≠ 0 :=
  (h i hi).2 j (Node.find_some hf).1 (Node.has_iff.1 (Node.find_some hf).2).1

namespace FS

open Fallible

variable {P : Type} {s : State P} {b : Ip → ℕ} {ip : Ip}

theorem Coherent.dirAt (h : Coherent s) (hl : s.locks ip) {i : ℕ} (hi : (s.icache ip).inum = i)
    (htype : (s.dev.inode i).type = T_DIR) (hwhole : (s.dev.inode i).Whole) : DirAt s ip i := by
  obtain ⟨h₁, -, h₃⟩ := h.copy_of_locked hl
  exact ⟨h₃, hi, hi ▸ h₁, h.sound, htype, hwhole⟩

theorem Coherent.leave {s' : State P} {next : Ip} (hb : s.refs = b + Pi.single ip 1)
    (hheld : Holds b s) (hl : s.locks ip)
    (h' : Becomes s.refs s s' s.dev (s.refs + Pi.single next 1) s.locks) :
    ∃ s'', iunlockput ip s' = (.ok (), s'') ∧ (s''.icache next).inum = (s'.icache next).inum ∧
      Becomes b s s'' s.dev (b + Pi.single next 1) (update s.locks ip false) := by
  have hle : ∀ jp, b jp ≤ s.refs jp := fun jp => by
    rw [hb]
    exact Nat.le_add_right ..
  have hheld' : Holds (b + Pi.single next 1) s' := by
    intro i hi hn
    obtain ⟨jp, hj, he⟩ := (h'.kept.mono hle).holds hheld h'.dev i hi hn
    exact ⟨jp, lt_of_lt_of_le hj (Nat.le_add_right ..), he⟩
  have hrefs : s'.refs = b + Pi.single next 1 + Pi.single ip 1 := by
    rw [h'.refs, hb, add_right_comm]
  obtain ⟨s'', hrun, h''⟩ := h'.coherent.iunlockput_same hrefs hheld' (by rw [h'.locks]; exact hl)
  rw [h'.locks, h'.dev] at h''
  exact ⟨s'', hrun, h''.kept.inum next (by simp),
    (h'.mono hle).trans (h''.mono fun jp => Nat.le_add_right ..)⟩

/-- The loop of `namex`, which holds a reference to `ip` beyond the references `b`. -/
theorem Coherent.namexFrom (h : Coherent s) (htidy : Tidy s.dev.inode)
    (hb : s.refs = b + Pi.single ip 1) (hheld : Holds b s) (hl : s.locks = fun _ => false)
    (nameiparent : Bool) (names : List Name) :
    Sat (fun e _ => e = .iget ∧ ∀ jp kp, b jp = 0 → b kp = 0 → jp = kp)
      (fun r s' => match walk s.dev.inode nameiparent (s.icache ip).inum names with
        | none => r = none ∧ Becomes b s s' s.dev b fun _ => false
        | some (j, name) => ∃ jp, r = some (jp, name) ∧
          Becomes b s s' s.dev (b + Pi.single jp 1) (fun _ => false) ∧ (s'.icache jp).inum = j ∧
          (nameiparent → (s'.icache jp).valid))
      (namexFrom nameiparent ip names s) := by
  induction names generalizing s ip with
  | nil =>
    cases nameiparent with
    | false => exact ⟨ip, rfl, ⟨h, Kept.refl b s, rfl, hb, hl⟩, rfl, nofun⟩
    | true =>
      obtain ⟨s', hrun, h'⟩ := h.iput_same hb hheld (by rw [hl])
      rw [FS.namexFrom, if_pos rfl, bind_ok hrun]
      rw [hl] at h'
      exact ⟨rfl, h'⟩
  | cons name rest ih =>
    have hip : 0 < s.refs ip := by
      rw [hb]
      simp
    have hle : ∀ jp, b jp ≤ s.refs jp := fun jp => by
      rw [hb]
      exact Nat.le_add_right ..
    obtain ⟨s₁, hrun₁, h₁, hcopy⟩ := h.ilock hip (by rw [hl])
    have hinum : (s₁.icache ip).inum = (s.icache ip).inum := h₁.kept.inum ip hip
    have hlock : s₁.locks ip := by rw [h₁.locks, update_self]
    have hunlock : update s₁.locks ip false = fun _ => false := by
      rw [h₁.locks, hl, update_idem]
      exact update_eq_self ..
    have hheld₁ : Holds b s₁ := (h₁.kept.mono hle).holds hheld h₁.dev
    have hrefs₁ : s₁.refs = b + Pi.single ip 1 := h₁.refs.trans hb
    rw [FS.namexFrom, bind_ok hrun₁]
    simp only [run_get_bind, hcopy]
    by_cases htype : (s.dev.inode (s.icache ip).inum).type = T_DIR
    · have hnot : ¬ (s.dev.live (s.icache ip).inum).type ≠ T_DIR := not_not.2 htype
      rw [if_neg hnot]
      by_cases hlast : nameiparent ∧ rest = []
      · obtain ⟨rfl, rfl⟩ := hlast
        obtain ⟨s₂, hrun₂, h₂⟩ := h₁.coherent.iunlock hlock
        rw [walk_last htype, if_pos ⟨rfl, rfl⟩, bind_ok hrun₂]
        have hkept := h₂.kept.inum ip (by rw [h₁.refs]; exact hip)
        have hvalid := h₂.kept.valid ip (by rw [h₁.refs]; exact hip)
          ((h₁.coherent.ok ip).locked hlock).2
        rw [hunlock, h₁.dev, h₁.refs, hb] at h₂
        exact ⟨ip, rfl, (h₁.mono hle).trans (h₂.mono (hb ▸ hle)), hkept.trans hinum,
          fun _ => hvalid⟩
      · have hnode : s₁.dev.inode = s.dev.inode := congrArg Dev.inode h₁.dev
        have hdir : DirAt s₁ ip (s.icache ip).inum :=
          h₁.coherent.dirAt hlock hinum (by rw [hnode]; exact htype)
          (by rw [hnode]; exact (htidy _ htype).1)
        have hlookup := h₁.coherent.dirlookup hdir name fun j hj => by
          rw [hnode] at hj ⊢
          exact (congrArg (fun w => (Dev.live w _).type) h₁.dev).trans_ne (htidy.named htype hj)
        rw [walk_cons htype hlast, if_neg hlast, Node.lookup]
        rw [hnode] at hlookup
        refine (hlookup.weaken fun e s' he => ?_).bind fun r s₂ hr => ?_
        · refine ⟨he.1, fun jp kp hj hk => ?_⟩
          -- all entries are in use, and only `ip` can be one that `b` does not count
          have huse : ∀ jp, b jp = 0 → jp = ip := by
            intro jp hj
            have := he.2 jp
            rw [hrefs₁] at this
            by_contra hc
            simp [hj, hc] at this
          rw [huse jp hj, huse kp hk]
        · rcases hf : (s.dev.inode (s.icache ip).inum).find name with _ | j
          · rw [hf] at hr
            obtain ⟨rfl, rfl⟩ := hr
            obtain ⟨s₃, hrun₃, h₃⟩ := h₁.coherent.iunlockput_same hrefs₁ hheld₁ hlock
            rw [hunlock, h₁.dev] at h₃
            simp only [map_none, bind_none, bind_ok hrun₃]
            exact ⟨rfl, (h₁.mono hle).trans h₃⟩
          · rw [hf] at hr
            obtain ⟨next, rfl, h₂, hnext⟩ := hr
            obtain ⟨s₃, hrun₃, hnext₃, h₃⟩ := Coherent.leave hrefs₁ hheld₁ hlock h₂
            rw [hunlock, h₁.dev] at h₃
            have hall := (h₁.mono hle).trans h₃
            have hdev₃ : s₃.dev.inode = s.dev.inode := congrArg Dev.inode h₃.dev
            have hloop := ih h₃.coherent (by rw [hdev₃]; exact htidy) h₃.refs
              (hall.kept.holds hheld h₃.dev) h₃.locks
            rw [hdev₃, hnext₃, hnext] at hloop
            simp only [map_some, bind_some, bind_ok hrun₃]
            refine hloop.mono fun r s₄ hr => ?_
            rcases hw : walk s.dev.inode nameiparent ((s.dev.inode (s.icache ip).inum).entry j).inum
              rest with
              _ | ⟨k, nm⟩ <;> rw [hw] at hr
            · exact ⟨hr.1, hall.trans (h₃.dev ▸ hr.2)⟩
            · obtain ⟨jp, hr, h₄, hk⟩ := hr
              exact ⟨jp, hr, hall.trans (h₃.dev ▸ h₄), hk⟩
    · have hne : (s.dev.live (s.icache ip).inum).type ≠ T_DIR := htype
      obtain ⟨s₂, hrun₂, h₂⟩ := h₁.coherent.iunlockput_same hrefs₁ hheld₁ hlock
      rw [walk_of_ne htype, if_pos hne, bind_ok hrun₂]
      rw [hunlock, h₁.dev] at h₂
      exact ⟨rfl, (h₁.mono hle).trans h₂⟩

def State.start (s : State P) (p : P) (path : Name) : ℕ :=
  if path.head? = some slash then ROOTINO else ((s.cwd p).map fun c => (s.icache c).inum).getD 0

/-- What a process relies on when it looks up a path: nothing is locked, and it has a current
directory. -/
structure Ready (s : State P) (p : P) : Prop where
  coherent : Coherent s
  tidy : Tidy s.dev.inode
  locks : s.locks = fun _ => false
  root : (s.dev.inode ROOTINO).type ≠ 0
  cwd : ∃ c, s.cwd p = some c ∧ 0 < s.refs c

section ready

variable {p : P} {path : Name}

theorem Ready.namexStart (h : Ready s p) (path : Name) :
    Sat (fun e _ => e = .iget ∧ ∀ ip, 0 < s.refs ip)
      (fun ip s' => Becomes s.refs s s' s.dev (s.refs + Pi.single ip 1) s.locks ∧
        (s'.icache ip).inum = s.start p path) (namexStart p path s) := by
  unfold FS.namexStart State.start
  split_ifs
  · exact h.coherent.iget h.root
  · obtain ⟨c, hc, hpos⟩ := h.cwd
    obtain ⟨s', hrun, h'⟩ := h.coherent.idup hpos
    simp only [run_get_bind, hc, hrun]
    exact ⟨h', h'.kept.inum c hpos⟩

/-- `namex` walks along the path; it panics only if the cache has less than two free entries. -/
theorem Ready.namex (h : Ready s p) (path : Name) (nameiparent : Bool) :
    Sat (fun e _ => e = .iget ∧ ∀ jp kp, s.refs jp = 0 → s.refs kp = 0 → jp = kp)
      (fun r s' => match walk s.dev.inode nameiparent (s.start p path) (pathElems path) with
        | none => r = none ∧ Becomes s.refs s s' s.dev s.refs fun _ => false
        | some (j, name) => ∃ jp, r = some (jp, name) ∧
          Becomes s.refs s s' s.dev (s.refs + Pi.single jp 1) (fun _ => false) ∧
          (s'.icache jp).inum = j ∧
          (nameiparent → (s'.icache jp).valid))
      (namex p path nameiparent s) := by
  refine ((h.namexStart path).weaken fun e _ he => ?_).bind fun ip s₁ hr => ?_
  · refine ⟨he.1, fun jp _ hj => ?_⟩
    have := he.2 jp
    omega
  · obtain ⟨h₁, hstart⟩ := hr
    have hnode : s₁.dev.inode = s.dev.inode := congrArg Dev.inode h₁.dev
    have hloop := h₁.coherent.namexFrom (by rw [hnode]; exact h.tidy) h₁.refs
      (h₁.kept.holds h.coherent.held h₁.dev)
      (h₁.locks.trans h.locks) nameiparent (pathElems path)
    rw [hnode, hstart] at hloop
    refine hloop.mono fun r s₂ hr => ?_
    rcases hw : walk s.dev.inode nameiparent (s.start p path) (pathElems path) with _ | ⟨j,
      name⟩ <;> rw [hw] at hr
    · exact ⟨hr.1, h₁.trans (h₁.dev ▸ hr.2)⟩
    · obtain ⟨jp, hr, h₂, hj⟩ := hr
      exact ⟨jp, hr, h₁.trans (h₁.dev ▸ h₂), hj⟩

/-- The reference to the inode returned. -/
def pin : Option Ip → Ip → ℕ
  | none => 0
  | some ip => Pi.single ip 1

/-- Path resolution, in a cache with two free entries. -/
theorem path_resolution (h : Ready s p) (hfree : ∃ jp kp, jp ≠ kp ∧ s.refs jp = 0 ∧ s.refs kp = 0)
    (path : Name) : pathElems path = (segments path).map (·.take DIRSIZ) ∧
    (∃ r s', namei p path s = (.ok r, s') ∧ Kept s.refs s s' ∧ s'.dev = s.dev ∧
      s'.locks = (fun _ => false) ∧ s'.refs = s.refs + pin r ∧
      r.map (fun ip => (s'.icache ip).inum) = resolve s.dev.inode (s.start p path)
      (pathElems path)) ∧ ∃ r s', nameiparent p path s = (.ok r, s') ∧ Kept s.refs s s' ∧
      s'.dev = s.dev ∧ s'.locks = (fun _ => false) ∧ s'.refs = s.refs + pin (r.map fst) ∧
      r.map (fun q => ((s'.icache q.1).inum, q.2)) = resolveParent s.dev.inode (s.start p path)
      (pathElems path) := by
  have hnamex : ∀ parent, ∃ r s', namex p path parent s = (.ok r, s') ∧ Kept s.refs s s' ∧
    s'.dev = s.dev ∧
      s'.locks = (fun _ => false) ∧ s'.refs = s.refs + pin (r.map fst) ∧
      r.map (fun q => ((s'.icache q.1).inum, q.2)) = walk s.dev.inode parent (s.start p path)
      (pathElems path) := by
    intro parent
    have hspec : Sat (fun _ _ => False) _ (namex p path parent s) :=
      (h.namex path parent).weaken fun e _ he => by
      obtain ⟨jp, kp, hne, hj, hk⟩ := hfree
      exact hne (he.2 jp kp hj hk)
    obtain ⟨r, s', hrun, hr⟩ := hspec.exists_ok
    refine ⟨r, s', hrun, ?_⟩
    rcases hw : walk s.dev.inode parent (s.start p path) (pathElems path) with _ | ⟨j, name⟩ <;>
      rw [hw] at hr
    · obtain ⟨rfl, h'⟩ := hr
      exact ⟨h'.kept, h'.dev, h'.locks, h'.refs, rfl⟩
    · obtain ⟨jp, rfl, h', hj, -⟩ := hr
      exact ⟨h'.kept, h'.dev, h'.locks, h'.refs, by rw [← hj]; rfl⟩
  refine ⟨pathElems_eq_segments path, ?_, ?_⟩
  · obtain ⟨r, s', hrun, h₁, h₂, h₃, h₄, h₅⟩ := hnamex false
    refine ⟨r.map fst, s', ?_, h₁, h₂, h₃, h₄, ?_⟩
    · rw [namei, bind_ok hrun]
      rfl
    · have := congrArg (Option.map fst) h₅
      simp only [walk, Bool.false_eq_true, if_false, Option.map_map] at this
      simpa [comp_def] using this
  · obtain ⟨r, s', hrun, h₁, h₂, h₃, h₄, h₅⟩ := hnamex true
    exact ⟨r, s', hrun, h₁, h₂, h₃, h₄, h₅⟩

end ready

/-! ### A directory in the root directory -/

theorem Dev.tidy_of_lt {w : Dev}
    (h : ∀ i < w.sb.ninodes, (w.inode i).type = T_DIR → (w.inode i).Whole ∧ ∀ j < (w.inode i).slots,
    ((w.inode i).entry j).inum ≠ 0 →
    (w.inode ((w.inode i).entry j).inum).type ≠ 0) : Tidy w.inode := by
  intro i hi
  have hne : (w.live i).type ≠ 0 := by
    show (w.inode i).type ≠ 0
    rw [hi]
    decide
  exact h i (Dev.live_eq hne).1 hi

/-- The entries `.` and `..` of the root directory, and the directory `a` with its entries. -/
def treeCalls : List Call :=
  [.write 1 (Dirent.bytes ⟨1, dot⟩ ++ Dirent.bytes ⟨1, dotdot⟩) 0, .alloc T_DIR, .update 2 0 0 1,
    .write 2 (Dirent.bytes ⟨2, dot⟩ ++ Dirent.bytes ⟨1, dotdot⟩) 0,
      .write 1 (Dirent.bytes ⟨2, [97]⟩) 32]

/-- One process, in the root directory. -/
def inRoot (w : Dev) : State Unit :=
  { (oneEntry w 1 false : State Unit) with cwd := fun _ => some ip₀ }

theorem inRoot_ready {w : Dev} (hw : w.Sound) (h1 : (w.live 1).type ≠ 0)
    (hlink : ∀ j < w.sb.ninodes, (w.live j).type ≠ 0 → (w.live j).nlink ≠ 0)
    (htidy : Tidy w.inode) : Ready (inRoot w) () := by
  have h : Coherent (oneEntry w 1 false : State Unit) := oneEntry_coherent hw h1 fun j _ hj =>
    hlink j (Dev.live_eq hj).1 hj
  refine ⟨⟨⟨h.sound, h.ok, h.inj⟩, h.fresh, h.held⟩, htidy, ?_, h1, ip₀, rfl, one_pos⟩
  funext ip
  show Inode.locked (if ip = ip₀ then _ else _) = false
  split_ifs <;> rfl

/-- The paths `/a/../a` and, for the parent, `a/./b`. -/
theorem path_resolution_tree :
    ∃ (s : State Unit) (ip : Ip) (s' : State Unit) (jp : Ip) (s'' : State Unit), Ready s () ∧
      namei () [47, 97, 47, 46, 46, 47, 97] s = (.ok (some ip), s') ∧
      s'.refs = s.refs + Pi.single ip 1 ∧ (s'.icache ip).inum = 2 ∧
      nameiparent () [97, 47, 46, 47, 98] s = (.ok (some (jp, [98])), s'') ∧
      (s''.icache jp).inum = 2 := by
  obtain ⟨w, hreach, htidy, hlink, h1, hres, hparent⟩ :
      ∃ w, (storeSys (emptyDir 40)).ReachableVia (fun w c => c.Ok w.inode) w ∧
        (∀ i < w.sb.ninodes, (w.inode i).type = T_DIR → (w.inode i).Whole ∧
          ∀ j < (w.inode i).slots, ((w.inode i).entry j).inum ≠ 0 →
          (w.inode ((w.inode i).entry j).inum).type ≠ 0) ∧
        (∀ i < w.sb.ninodes, (w.live i).type ≠ 0 → (w.live i).nlink ≠ 0) ∧ (w.live 1).type ≠ 0 ∧
        resolve w.inode 1 [[97], dotdot, [97]] = some 2 ∧
        resolveParent w.inode 1 [[97], dot, [98]] = some (2, [98]) :=
    Machine.Sys.exists_reachableVia treeCalls rfl (by decide +kernel)
  have hsound : w.Sound := .of_calls (emptyDir_sound (by decide)).1 hreach
  have hready : Ready (inRoot w) () := inRoot_ready hsound h1 hlink (Dev.tidy_of_lt htidy)
  have hfree : ∃ jp kp, jp ≠ kp ∧ (inRoot w).refs jp = 0 ∧ (inRoot w).refs kp = 0 :=
    ⟨⟨1, by decide⟩, ⟨2, by decide⟩, by decide, rfl, rfl⟩
  obtain ⟨-, ⟨r, s', hrun', -, -, -, hrefs, hr⟩, -⟩ :=
    path_resolution hready hfree [47, 97, 47, 46, 46, 47, 97]
  obtain ⟨-, -, r', s'', hrun'', -, -, -, -, hr'⟩ :=
    path_resolution hready hfree [97, 47, 46, 47, 98]
  obtain ⟨ip, rfl, hip⟩ := map_eq_some_iff.1 (hr.trans hres)
  obtain ⟨⟨jp, name⟩, rfl, hjp⟩ := map_eq_some_iff.1 (hr'.trans hparent)
  obtain ⟨hnum, rfl⟩ := mk.inj hjp
  exact ⟨_, ip, s', jp, s'', hready, hrun', hrefs, hip, hrun'', hnum⟩

/-! ### An inode without names

If a directory has an entry for an inode with link count 0, looking up a path through it frees the
inode. -/

def rootDots : M Unit Unit := do
  let _ ← dirlink ip₀ dot ROOTINO
  let _ ← dirlink ip₀ dotdot ROOTINO
  return ()

/-- The file system that `mkfs` makes without any files, on a small disk. -/
def rootDev : Dev := (rootDots (lockedDir 40)).2.dev

/-- The inode 2 is a directory with the entry `..`, and the root has the entry `a` for it; its link
count is 0. -/
def orphanDots : M Unit Unit := do
  let _ ← dirlink ip₀ [97] 2
  iunlock ip₀
  onDev (iupdate 2 { Dinode.zero with type := T_DIR })
  let ip ← iget 2
  ilock ip
  let _ ← dirlink ip dotdot 1
  return ()

def orphanState : State Unit := inRoot (orphanDots (oneEntry rootDev 1 true)).2.dev

/-- The path `a/../a/b`. -/
def orphanPath : Name := [97, 47, 46, 46, 47, 97, 47, 98]

/-- The path does not exist, and looking it up panics. -/
theorem namei_frees_orphan : Tidy orphanState.dev.inode ∧
    resolve orphanState.dev.inode (orphanState.start () orphanPath) (pathElems orphanPath) = none ∧
    (namei () orphanPath orphanState).1 = .error .noType :=
  ⟨Dev.tidy_of_lt (by decide +kernel), by decide +kernel, by decide +kernel⟩

end FS

end Xv6
