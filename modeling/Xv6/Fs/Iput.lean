import Xv6.Lib.Machine
import Xv6.Lib.Tally

/-!
# The last `iput`

`iput`, `idup` and `iget` of `fs.c` on one cached inode.  `iput` looks at the reference count in one
critical section of `icache.lock` and decrements it in another, after it has released the inode's
lock.  A step is one such section, or what `iput` does with the inode locked between two of them.

`refs`, `freed` and `wasValid` are ghost fields: the references each thread holds, how often the
inode has been truncated, and whether the entry was valid at the start.
-/

namespace Xv6.Iput

open Tally Function Machine.Sys Option

inductive PutPc where
  | user
  /-- Before `acquiresleep(&ip->lock)`. -/
  | lock
  /-- `ip->valid && ip->nlink == 0`. -/
  | test
  /-- `r = ip->ref`. -/
  | read
  /-- `r == 1`: `itrunc`, `type = 0`, `iupdate`, `valid = 0`. -/
  | free
  /-- `releasesleep(&ip->lock)`. -/
  | unlock
  /-- `ip->ref--`. -/
  | drop
  deriving DecidableEq

/-- From the lock on to the decrement. -/
def PutPc.engaged : PutPc → Bool
  | user | lock => false
  | _ => true

def PutPc.locked : PutPc → Bool
  | test | read | free | unlock => true
  | _ => false

structure State (T : Type) where
  ref : ℤ
  valid : Bool
  nlink : Int16
  type : Int16
  lock : Option T
  pc : T → PutPc
  refs : T → ℕ
  freed : ℕ
  wasValid : Bool

inductive Act where
  | iput
  | idup
  | iget
  | run
  deriving DecidableEq

variable {T : Type} [DecidableEq T]

namespace State

variable (s : State T) (t : T)

def goto (p : PutPc) : State T := { s with pc := update s.pc t p }

def setRefs (n : ℕ) : State T := { s with refs := update s.refs t n }

def run : Option (State T) :=
  match s.pc t with
  | .user => none
  | .lock => if s.lock = none then some ({ s with lock := some t }.goto t .test) else none
  | .test => some (s.goto t (if s.valid ∧ s.nlink = 0 then .read else .unlock))
  | .read => some (s.goto t (if s.ref = 1 then .free else .unlock))
  | .free => some ({ s with type := 0, valid := false, freed := s.freed + 1 }.goto t .unlock)
  | .unlock => some ({ s with lock := none }.goto t .drop)
  | .drop => some (({ s with ref := s.ref - 1 }.setRefs t (s.refs t - 1)).goto t .user)

/-- A thread calls `iput` and `idup` with a reference it holds. -/
def next : Act → Option (State T)
  | .iput => if s.pc t = .user ∧ 0 < s.refs t then some (s.goto t .lock) else none
  | .idup =>
    if s.pc t = .user ∧ 0 < s.refs t then
      some ({ s with ref := s.ref + 1 }.setRefs t (s.refs t + 1))
    else none
  | .iget =>
    if s.pc t = .user then
      -- an entry without references is recycled
      if s.ref > 0 then some ({ s with ref := s.ref + 1 }.setRefs t (s.refs t + 1))
      else some ({ s with ref := 1, valid := false }.setRefs t (s.refs t + 1))
    else none
  | .run => s.run t

end State

section System

variable [Fintype T]

/-- Before the calls: the inode is cached, with the references that threads hold. -/
structure Start (s : State T) : Prop where
  ref : s.ref = ∑ t, s.refs t
  pos : 0 < s.ref
  lock : s.lock = none
  pc : ∀ t, s.pc t = .user
  freed : s.freed = 0
  wasValid : s.wasValid = s.valid

def iputSys (T : Type) [DecidableEq T] [Fintype T] : Machine.Sys (State T) (T × Act) where
  init := Start
  next s l := s.next l.1 l.2

/-- The lock is taken in `iput` only while no other thread is about to decrement the count, and no
`iget` comes between the look at the count and the truncation. -/
def orderly (s : State T) (l : T × Act) : Bool :=
  match l.2 with
  | .iget => decide (∀ u, s.pc u ≠ .free)
  | .run => decide (s.pc l.1 = .lock → ∀ u, s.pc u ≠ .drop)
  | _ => true

end System

/-! ## The invariant -/

/-- What holds while thread `t` is at `p`. -/
def State.At (s : State T) (t : T) : PutPc → Prop
  | .user => True
  | .lock => 0 < s.refs t
  | .test => 0 < s.refs t ∧ s.lock = some t
  | .read => 0 < s.refs t ∧ s.lock = some t ∧ s.valid ∧ s.nlink = 0
  | .free => 0 < s.refs t ∧ s.lock = some t ∧ s.valid ∧ s.nlink = 0 ∧ s.ref = 1
  | .unlock => 0 < s.refs t ∧ s.lock = some t ∧ (s.valid → s.nlink = 0 → 1 < s.ref)
  | .drop => 0 < s.refs t ∧ (s.valid → s.nlink = 0 → 1 < s.ref)

omit [DecidableEq T] in
theorem State.At.refs_pos {s : State T} {t : T} {p : PutPc} (h : s.At t p) (hp : p ≠ .user) :
    0 < s.refs t := by
  cases p with
  | user => exact absurd rfl hp
  | lock => exact h
  | test | read | free | unlock | drop => exact h.1

omit [DecidableEq T] in
theorem State.At.mono {s s' : State T} {t : T} {p : PutPc} (h : s.At t p)
    (hrefs : s'.refs t = s.refs t) (hlock : s'.lock = s.lock) (hvalid : s'.valid = s.valid)
    (hnlink : s'.nlink = s.nlink) (href : s.ref ≤ s'.ref) (hp : p ≠ .free) : s'.At t p := by
  cases p with
  | free => exact absurd rfl hp
  | user => trivial
  | lock | test | read =>
    simp only [State.At, hrefs, hlock, hvalid, hnlink] at h ⊢
    exact h
  | unlock =>
    simp only [State.At, hrefs, hlock, hvalid, hnlink] at h ⊢
    exact ⟨h.1, h.2.1, fun hv hn => (h.2.2 hv hn).trans_le href⟩
  | drop =>
    simp only [State.At, hrefs, hvalid, hnlink] at h ⊢
    exact ⟨h.1, fun hv hn => (h.2 hv hn).trans_le href⟩

variable [Fintype T]

structure Inv (s : State T) : Prop where
  sum : s.ref = ∑ t, s.refs t
  owner : ∀ t, s.lock = some t → (s.pc t).locked
  alone : ∀ t u, (s.pc t).engaged → (s.pc u).engaged → t = u
  stands : ∀ t, s.At t (s.pc t)
  gone : s.ref = 0 → s.valid → s.nlink ≠ 0
  count : s.nlink = 0 → s.freed + s.valid.toNat = s.wasValid.toNat
  once : s.freed ≤ 1
  type : s.freed ≠ 0 → s.type = 0

variable {s s' : State T} {t : T}

omit [DecidableEq T] in
theorem Inv.of_start (h : Start s) : Inv s where
  sum := h.ref
  owner t ht := by simp [h.lock] at ht
  alone t u ht := by simp [h.pc, PutPc.engaged] at ht
  stands t := by rw [h.pc]; trivial
  gone h0 := by have := h.pos; omega
  count _ := by rw [h.freed, h.wasValid, Nat.zero_add]
  once := by rw [h.freed]; exact Nat.zero_le 1
  type hf := absurd h.freed hf

omit [DecidableEq T] in
theorem Inv.refs_le (inv : Inv s) (t : T) : (s.refs t : ℤ) ≤ s.ref := by
  have := le_sum s.refs t
  rw [inv.sum]
  exact_mod_cast this

theorem sum_setRefs (n : ℕ) : ∑ u, (s.setRefs t n).refs u + s.refs t = ∑ u, s.refs u + n :=
  sum_update id s.refs t n

theorem Inv.gain (inv : Inv s) (ht : s.pc t = .user) (hfree : ∀ u, u ≠ t → s.pc u ≠ .free)
    (hpos : 0 < s.ref) : Inv ({ s with ref := s.ref + 1 }.setRefs t (s.refs t + 1)) where
  sum := by
    have := sum_setRefs (s := s) (t := t) (s.refs t + 1)
    have hsum := inv.sum
    simp only [State.setRefs] at this ⊢
    omega
  owner := inv.owner
  alone := inv.alone
  stands u := by
    by_cases hu : u = t
    · subst hu
      simp only [State.setRefs, ht]
      trivial
    · exact (inv.stands u).mono (by simp [State.setRefs, hu]) rfl rfl rfl (by simp [State.setRefs])
        (hfree u hu)
  gone h0 := by simp only [State.setRefs] at h0; omega
  count := inv.count
  once := inv.once
  type := inv.type

theorem Inv.ne_free (inv : Inv s) (hpos : 0 < s.refs t) (u : T) (hu : u ≠ t) : s.pc u ≠ .free := by
  intro hfree
  have hu' := inv.stands u
  rw [hfree] at hu'
  have hle := Finset.sum_le_univ_sum_of_nonneg (f := s.refs) (s := {u, t}) fun _ => Nat.zero_le _
  rw [Finset.sum_pair hu] at hle
  have hsum := inv.sum
  have href := hu'.2.2.2.2
  have := hu'.1
  omega

/-- Thread `t`, the only one engaged, moves on in `iput`, and changes no count. -/
theorem Inv.move (inv : Inv s) {p : PutPc} (hpc : s'.pc = update s.pc t p)
    (halone : ∀ u, (s.pc u).engaged → u = t) (hrefs : s'.refs = s.refs) (href : s'.ref = s.ref)
    (hlock : ∀ u, s'.lock = some u → u = t ∧ p.locked) (hstands : s'.At t p)
    (hgone : s'.valid → s.valid ∧ s'.nlink = s.nlink)
    (hcount : s'.nlink = 0 → s'.freed + s'.valid.toNat = s'.wasValid.toNat) (honce : s'.freed ≤ 1)
    (htype : s'.freed ≠ 0 → s'.type = 0) : Inv s' := by
  have hself : s'.pc t = p := by rw [hpc, update_self]
  have hother : ∀ u, u ≠ t → s'.pc u = s.pc u := fun u hu => by rw [hpc, update_of_ne hu]
  have hin : ∀ u, (s'.pc u).engaged → u = t := fun u hu => by
    by_contra hut
    rw [hother u hut] at hu
    exact hut (halone u hu)
  refine ⟨by rw [href, hrefs, inv.sum], fun u hu => ?_,
    fun u v hu hv => (hin u hu).trans (hin v hv).symm,
    fun u => ?_, fun h0 hv => ?_, hcount, honce, htype⟩
  · obtain ⟨rfl, hp⟩ := hlock u hu
    rw [hself, hp]
  · by_cases hut : u = t
    · rw [hut, hself]
      exact hstands
    · -- a thread that is not engaged only counts on its reference
      have hu := inv.stands u
      rw [hother u hut]
      cases hp : s.pc u with
      | user => trivial
      | lock =>
        rw [hp] at hu
        rw [State.At, hrefs]
        exact hu
      | test | read | free | unlock | drop => exact absurd (halone u (by rw [hp]; rfl)) hut
  · obtain ⟨hvalid, hnlink⟩ := hgone hv
    rw [hnlink]
    exact inv.gone (href ▸ h0) hvalid

attribute [local simp] State.goto

theorem Inv.run (inv : Inv s) (hok : orderly s (t, .run)) (hs : s.run t = some s') : Inv s' := by
  have hok := of_decide_eq_true hok
  have hat := inv.stands t
  have halone : (s.pc t).engaged → ∀ u, (s.pc u).engaged → u = t := fun ht u hu =>
    inv.alone u t hu ht
  unfold State.run at hs
  cases hpc : s.pc t with
  | user => simp [hpc] at hs
  | lock =>
    rw [hpc] at hat
    simp only [hpc, ite_none_right_eq_some, some.injEq] at hs
    obtain ⟨hfree, rfl⟩ := hs
    -- the lock is free, and nobody is about to decrement the count: nobody is engaged
    have hnone : ∀ u, (s.pc u).engaged = false := fun u => by
      have hu := inv.stands u
      cases hp : s.pc u with
      | user | lock => rfl
      | drop => exact absurd hp (hok hpc u)
      | test | read | free | unlock =>
        rw [hp] at hu
        simp [State.At, hfree] at hu
    exact inv.move rfl (fun u hu => by simp [hnone] at hu) rfl rfl
      (fun u hu => ⟨(some.inj hu).symm, rfl⟩) ⟨hat, rfl⟩ (fun hv => ⟨hv, rfl⟩) inv.count inv.once
      inv.type
  | test =>
    rw [hpc] at hat
    obtain ⟨hrefs, hlock⟩ := hat
    simp only [hpc, some.injEq] at hs
    subst hs
    have hmine : ∀ u, s.lock = some u → u = t := fun u hu => some.inj (hu.symm.trans hlock)
    split_ifs with htest
    · exact inv.move rfl (halone (by rw [hpc]; rfl)) rfl rfl (fun u hu => ⟨hmine u hu, rfl⟩)
        ⟨hrefs, hlock, htest⟩ (fun hv => ⟨hv, rfl⟩) inv.count inv.once inv.type
    · exact inv.move rfl (halone (by rw [hpc]; rfl)) rfl rfl (fun u hu => ⟨hmine u hu, rfl⟩)
        ⟨hrefs, hlock, fun hv hn => absurd ⟨hv, hn⟩ htest⟩ (fun hv => ⟨hv, rfl⟩) inv.count inv.once
        inv.type
  | read =>
    rw [hpc] at hat
    obtain ⟨hrefs, hlock, hvalid, hnlink⟩ := hat
    simp only [hpc, some.injEq] at hs
    subst hs
    have hmine : ∀ u, s.lock = some u → u = t := fun u hu => some.inj (hu.symm.trans hlock)
    have hle := inv.refs_le t
    split_ifs with hone
    · exact inv.move rfl (halone (by rw [hpc]; rfl)) rfl rfl (fun u hu => ⟨hmine u hu, rfl⟩)
        ⟨hrefs, hlock, hvalid, hnlink, hone⟩ (fun hv => ⟨hv, rfl⟩) inv.count inv.once inv.type
    · exact inv.move rfl (halone (by rw [hpc]; rfl)) rfl rfl (fun u hu => ⟨hmine u hu, rfl⟩)
        ⟨hrefs, hlock, fun _ _ => by simp only [State.goto]; omega⟩ (fun hv => ⟨hv, rfl⟩) inv.count
        inv.once inv.type
  | free =>
    rw [hpc] at hat
    obtain ⟨hrefs, hlock, hvalid, hnlink, -⟩ := hat
    simp only [hpc, some.injEq] at hs
    subst hs
    have hcount := inv.count hnlink
    have hle : s.wasValid.toNat ≤ 1 := Bool.toNat_le _
    rw [hvalid, Bool.toNat_true] at hcount
    exact inv.move rfl (halone (by rw [hpc]; rfl)) rfl rfl
      (fun u hu => ⟨some.inj (hu.symm.trans hlock), rfl⟩) ⟨hrefs, hlock, fun h => nomatch h⟩
      (fun h => nomatch h) (fun _ => hcount) (by simp only [State.goto]; omega) fun _ => rfl
  | unlock =>
    rw [hpc] at hat
    obtain ⟨hrefs, -, hlast⟩ := hat
    simp only [hpc, some.injEq] at hs
    subst hs
    exact inv.move rfl (halone (by rw [hpc]; rfl)) rfl rfl (fun u hu => nomatch hu) ⟨hrefs, hlast⟩
      (fun hv => ⟨hv, rfl⟩) inv.count inv.once inv.type
  | drop =>
    rw [hpc] at hat
    obtain ⟨hrefs, hlast⟩ := hat
    simp only [hpc, some.injEq] at hs
    subst hs
    have hin := halone (by rw [hpc]; rfl)
    refine ⟨?_, fun u hu => ?_, fun u v hu => ?_, fun u => ?_, fun h0 hv hn => ?_, inv.count,
      inv.once, inv.type⟩
    · have := sum_setRefs (s := s) (t := t) (s.refs t - 1)
      have hsum := inv.sum
      simp only [State.goto, State.setRefs] at this ⊢
      omega
    · -- the lock was released before
      have hown := inv.owner u hu
      have hut : u = t := hin u (by cases hp : s.pc u <;> simp [hp, PutPc.locked] at hown <;> rfl)
      rw [hut, hpc] at hown
      cases hown
    · have hut : u ≠ t := fun h => by simp [h, PutPc.engaged] at hu
      exact absurd (hin u (by simpa [State.setRefs, hut] using hu)) hut
    · by_cases hut : u = t
      · simp only [State.goto, hut, update_self]
        trivial
      · have hu := inv.stands u
        simp only [State.goto, State.setRefs, update_of_ne hut]
        cases hp : s.pc u with
        | user => trivial
        | lock =>
          rw [hp] at hu
          simpa [State.At, hut] using hu
        | test | read | free | unlock | drop => exact absurd (hin u (by rw [hp]; rfl)) hut
    · simp only [State.goto, State.setRefs] at h0 hv hn
      have := hlast hv hn
      omega

theorem Inv.next (inv : Inv s) {a : Act} (hok : orderly s (t, a)) (hs : s.next t a = some s') :
    Inv s' := by
  cases a with
  | iput =>
    simp only [State.next, ite_none_right_eq_some, some.injEq] at hs
    obtain ⟨⟨hpc, hpos⟩, rfl⟩ := hs
    have hsame : ∀ u, ((s.goto t .lock).pc u).engaged = (s.pc u).engaged := fun u => by
      by_cases hut : u = t
      · rw [hut, hpc]
        simp [PutPc.engaged]
      · simp [hut]
    refine ⟨inv.sum, fun u hu => ?_, fun u v hu hv => ?_, fun u => ?_, inv.gone, inv.count,
      inv.once, inv.type⟩
    · have hown := inv.owner u hu
      have hut : u ≠ t := fun h => by simp [h, hpc, PutPc.locked] at hown
      simpa [hut] using hown
    · exact inv.alone u v (hsame u ▸ hu) (hsame v ▸ hv)
    · by_cases hut : u = t
      · simp only [State.goto, hut, update_self]
        exact hpos
      · simp only [State.goto, update_of_ne hut]
        exact inv.stands u
  | idup =>
    simp only [State.next, ite_none_right_eq_some, some.injEq] at hs
    obtain ⟨⟨hpc, hpos⟩, rfl⟩ := hs
    have := inv.refs_le t
    exact inv.gain hpc (inv.ne_free hpos) (by omega)
  | iget =>
    have hfree := of_decide_eq_true hok
    simp only [State.next, ite_none_right_eq_some] at hs
    obtain ⟨hpc, hs⟩ := hs
    split_ifs at hs with hpos <;> cases hs
    · exact inv.gain hpc (fun u _ => hfree u) hpos
    · -- nobody has a reference, and the inode has been freed if it was to be
      have hzero : ∀ u, s.refs u = 0 := fun u => by have := inv.refs_le u; omega
      have href : s.ref = 0 := by rw [inv.sum]; simp [hzero]
      have huser : ∀ u, s.pc u = .user := fun u => by
        by_contra hu
        have := (inv.stands u).refs_pos hu
        have := hzero u
        omega
      refine ⟨?_, inv.owner, inv.alone, fun u => ?_, fun _ h => (nomatch h), fun hn => ?_, inv.once,
        inv.type⟩
      · have := sum_setRefs (s := s) (t := t) (s.refs t + 1)
        have hsum := inv.sum
        simp only [State.setRefs] at this ⊢
        omega
      · simp only [State.setRefs, huser]
        trivial
      · have hcount := inv.count hn
        have hgone : s.valid = false := by
          by_contra hv
          exact inv.gone href (by simpa using hv) hn
        rwa [hgone] at hcount
  | run => exact inv.run hok hs

/-- In every run that keeps to `orderly`, an inode that was valid without links has been truncated
when the count is 0, once, while no other thread had a reference. -/
theorem last_iput_frees (h : (iputSys T).ReachableVia (fun s l => orderly s l) s) :
    (s.ref = 0 → s.wasValid → s.nlink = 0 → s.freed = 1 ∧ s.type = 0) ∧ s.freed ≤ 1 ∧
    ∀ t, s.pc t = .free → ∀ u, u ≠ t → s.refs u = 0 := by
  have inv : Inv s := h.invariant (fun _ => .of_start) fun s l s' inv hok hs => inv.next hok hs
  refine ⟨fun h0 hwas hn => ?_, inv.once, fun t ht u hu => ?_⟩
  · have hcount := inv.count hn
    have hvalid : s.valid = false := by
      by_contra hv
      exact inv.gone h0 (by simpa using hv) hn
    have hfreed : s.freed = 1 := by simpa [hvalid, hwas] using hcount
    exact ⟨hfreed, inv.type (by omega)⟩
  · by_contra hpos
    exact inv.ne_free (Nat.pos_of_ne_zero hpos) t (Ne.symm hu) ht

/-! ## Runs -/

/-- An unlinked file, to which both threads have a reference. -/
def shared : State (Fin 2) where
  ref := 2
  valid := true
  nlink := 0
  type := 2
  lock := none
  pc _ := .user
  refs _ := 1
  freed := 0
  wasValid := true

theorem shared_start : Start shared := ⟨rfl, by decide, rfl, fun _ => rfl, rfl, rfl⟩

/-- Thread `t` makes a call and goes `n` steps in it. -/
def steps (t : Fin 2) (a : Act) (n : ℕ) : List (Fin 2 × Act) := (t, a) :: List.replicate n (t, .run)

/-- One after the other, the threads put the inode, and the second frees it. -/
theorem last_iput_frees_inTurn : ∃ s, (iputSys (Fin 2)).ReachableVia (fun s l => orderly s l) s ∧
    s.ref = 0 ∧ s.freed = 1 ∧ s.type = 0 := by
  obtain ⟨s, hreach, h0, hwas, hn⟩ :
    ∃ s, (iputSys (Fin 2)).ReachableVia (fun s l => orderly s l) s ∧
      s.ref = 0 ∧ s.wasValid ∧ s.nlink = 0 :=
    exists_reachableVia (steps 0 .iput 5 ++ steps 1 .iput 6) shared_start (by decide +kernel)
  exact ⟨s, hreach, h0, (last_iput_frees hreach).1 h0 hwas hn⟩

/-- Both threads see two references, and neither frees the inode; or thread 1 gets a reference with
`iget` after thread 0 has seen one, and thread 0 truncates the inode. -/
theorem iput_leaks_or_frees_early :
    (∃ s, (iputSys (Fin 2)).Reachable s ∧ s.ref = 0 ∧ s.valid ∧ s.nlink = 0 ∧ s.freed = 0 ∧
      s.type ≠ 0) ∧
    ∃ s s', (iputSys (Fin 2)).Reachable s ∧ (iputSys (Fin 2)).next s (0, .run) = some s' ∧
      s'.freed = s.freed + 1 ∧ 0 < s.refs 1 := by
  constructor
  · exact exists_reachable (steps 0 .iput 4 ++ steps 1 .iput 4 ++ [(0, .run), (1, .run)])
      shared_start
      (by decide +kernel)
  · obtain ⟨s, hreach, hpc, hrefs⟩ : ∃ s, (iputSys (Fin 2)).Reachable s ∧ s.pc 0 = .free ∧
      0 < s.refs 1 :=
      exists_reachable (steps 1 .iput 5 ++ steps 0 .iput 3 ++ [(1, .iget)]) shared_start
      (by decide +kernel)
    refine ⟨s, { s with type := 0, valid := false, freed := s.freed + 1 }.goto 0 .unlock, hreach,
      ?_, rfl, hrefs⟩
    simp [iputSys, State.next, State.run, hpc]

end Xv6.Iput
