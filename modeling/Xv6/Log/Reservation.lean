import Xv6.Log.GroupCommit

/-!
# Log space reservation

`begin_op` reserves `MAXOPBLOCKS` blocks for each operation against `LOGSIZE`.  `log_write` panics
once `log.lh.n` reaches `log.size - 1`, and `mkfs` makes `log.size` equal to `LOGSIZE`: the block of
the header is counted in `log.size`, and the check is made before absorption.  So the reservation is
one block too large for three operations that use all of it (`tooBig_of_three_full_ops`), and it is
enough for operations that leave one block of it unused (`logWrite_fits`).
-/

namespace Xv6.Log

open Tally Function Option Finset

variable {T : Type}

/-- What the operation of thread `t` may still log, if it leaves one block of its reservation
unused. -/
def room (s : Group T) (t : T) : ℕ := if (s.pc t).inOp then MAXOPBLOCKS - 1 - (s.used t).card else 0

/-- The blocks in the log and those that the running operations may still log fit. -/
structure Budget [Fintype T] (s : Group T) : Prop where
  pending : ∀ t b, s.pc t = .logWrite b → (insert b (s.used t)).card ≤ MAXOPBLOCKS - 1
  logged : ∀ t, (s.pc t).inOp → s.used t ⊆ s.group
  total : s.lh.length + ∑ t, room s t ≤ LOGSIZE - 2
  calm : ∀ t, s.pc t ≠ .tooBig

/-- The step keeps the operation of its thread within `n` distinct blocks. -/
def opFits (n : ℕ) (s : Group T) (i : T × Act) : Bool :=
  match i.2 with
  | .logWrite b _ => (insert b (s.used i.1)).card ≤ n
  | _ => true

namespace Budget

variable [Fintype T] {s s' : Group T} {t : T}

/-- Threads that stay where they are, or come to a point with no more to log. -/
theorem mono (h : Budget s) (hlh : s'.lh.length ≤ s.lh.length) (hused : s'.used = s.used)
    (hgroup : ∀ u, (s'.pc u).inOp → s'.group = s.group)
    (hpc : ∀ u, s'.pc u = s.pc u ∨ s'.pc u ≠ .tooBig ∧ ((s'.pc u).inOp → (s.pc u).inOp) ∧
      ∀ b, s'.pc u = .logWrite b → (insert b (s.used u)).card ≤ MAXOPBLOCKS - 1) : Budget s' where
  pending u b hb := by
    rw [hused]
    rcases hpc u with hu | ⟨-, -, hu⟩
    · exact h.pending u b (hu ▸ hb)
    · exact hu b hb
  logged u hu := by
    rw [hused, hgroup u hu]
    exact h.logged u ((hpc u).elim (fun he => he ▸ hu) fun he => he.2.1 hu)
  total := by
    have hle : ∑ u, room s' u ≤ ∑ u, room s u := sum_le_sum fun u _ => by
      by_cases hu : (s'.pc u).inOp
      · rw [room, room, hused, if_pos hu,
          if_pos ((hpc u).elim (fun he => he ▸ hu) fun he => he.2.1 hu)]
      · rw [room, if_neg hu]
        exact Nat.zero_le _
    exact (Nat.add_le_add hlh hle).trans h.total
  calm u := (hpc u).elim (fun he => he ▸ h.calm u) fun he => he.1

theorem wakeup (h : Budget s) : Budget s.wakeup := by
  refine h.mono (le_refl _) rfl (fun _ _ => rfl) fun u => ?_
  by_cases hu : s.pc u = .sleeping
  · simp [Group.wakeup, hu, Pc.inOp]
  · exact .inl (if_neg hu)

theorem sum_room_le (s : Group T) : ∑ u, room s u ≤ tally Pc.inOp s.pc * (MAXOPBLOCKS - 1) := by
  rw [show ∑ u, room s u = _ from (sum_filter ..).symm]
  exact sum_le_card_nsmul _ _ _ fun u _ => Nat.sub_le ..

variable [DecidableEq T]

section

variable (h : Budget s)

include h

theorem goto {q : Pc} (hq : q ≠ .tooBig) (hop : q.inOp → (s.pc t).inOp)
    (hpend : ∀ b, q = .logWrite b → (insert b (s.used t)).card ≤ MAXOPBLOCKS - 1) {o : ℤ} {c : Bool}
    {d : Dev} : Budget ({ s with outstanding := o, committing := c, dev := d }.goto t q) := by
  refine h.mono (le_refl _) rfl (fun _ _ => rfl) fun u => ?_
  by_cases hu : u = t
  · subst hu
    simpa [Group.goto, hq] using .inr ⟨hop, hpend⟩
  · exact .inl (update_of_ne hu ..)

theorem leave {q : Pc} (hq : q.inOp = false) {o : ℤ} {c : Bool} {d : Dev} :
    Budget ({ s with outstanding := o, committing := c, dev := d }.goto t q) :=
  h.goto (fun e => by simp [e, Pc.inOp] at hq) (by simp [hq]) fun b e => by simp [e, Pc.inOp] at hq

/-- Thread `t` is in an operation, and has taken from its room what the log has grown. -/
theorem op (hpc : ∀ u, u ≠ t → s'.pc u = s.pc u) (hused : ∀ u, u ≠ t → s'.used u = s.used u)
    (hop : s'.pc t = .op) (hgroup : s.group ⊆ s'.group) (hlogged : s'.used t ⊆ s'.group)
    (htotal : s'.lh.length + (∑ u, room s u + room s' t) ≤ LOGSIZE - 2 + room s t) : Budget s' where
  pending u b hb := by
    by_cases hu : u = t
    · rw [hu, hop] at hb
      cases hb
    · rw [hpc u hu] at hb
      rw [hused u hu]
      exact h.pending u b hb
  logged u hin := by
    by_cases hu : u = t
    · rwa [hu]
    · rw [hpc u hu] at hin
      rw [hused u hu]
      exact (h.logged u hin).trans hgroup
  total := by
    have := sum_of_eq_off (f := room s) (g := room s') t fun u
      hu => by rw [room, room, hpc u hu, hused u hu]
    omega
  calm u := by
    by_cases hu : u = t
    · simp [hu, hop]
    · rw [hpc u hu]
      exact h.calm u

/-- `begin_op` has found room for `MAXOPBLOCKS` blocks of each operation, the new one among them. -/
theorem beginOp (hi : GroupInv s) : Budget (s.beginOp t) := by
  unfold Group.beginOp
  split_ifs with hc hl
  · exact h.leave rfl
  · exact h.leave rfl
  · refine h.op (fun u hu => update_of_ne hu ..) (fun u hu => update_of_ne hu ..) (update_self ..)
      (subset_refl _)
      (by simp [Group.goto]) ?_
    have hle := sum_room_le s
    have hout := hi.outstanding
    have hquiet : s.outstanding = 0 → s.lh.length = 0 :=
      fun h0 => by rw [hi.quiet (by simpa using hc) h0]; rfl
    have hroom : room (({ s with outstanding := s.outstanding + 1, used := update s.used t ∅ } :
      Group T).goto t .op) t =
        MAXOPBLOCKS - 1 := by simp [room, Group.goto, Pc.inOp]
    rw [hroom]
    simp only [Group.goto, MAXOPBLOCKS, LOGSIZE] at *
    omega

/-- `log_write` records a block that its operation had room for, or that is in the log already. -/
theorem logWrite (hi : GroupInv s) {b : ℕ} (ht : s.pc t = .logWrite b) :
    Budget (s.logWrite t b) := by
  have hin : (s.pc t).inOp := by rw [ht]; rfl
  have hused : (s.logWrite t b).used t = insert b (s.used t) := update_self ..
  have hop : (s.logWrite t b).pc t = .op := update_self ..
  refine h.op (fun u hu => update_of_ne hu ..) (fun u hu => update_of_ne hu ..) hop
    (subset_insert ..)
    (hused ▸ insert_subset_insert b (h.logged t hin)) ?_
  have htotal := h.total
  have hpend := h.pending t b ht
  rw [room, room, hop, hused, if_pos hin, if_pos (by rfl)]
  by_cases hb : b ∈ s.lh
  · have := card_le_card (subset_insert b (s.used t))
    rw [show (s.logWrite t b).lh = s.lh from if_pos hb]
    omega
  · have hnew : b ∉ s.used t := fun hu => hb (by simpa [hi.group] using h.logged t hin hu)
    rw [card_insert_of_notMem hnew] at hpend ⊢
    rw [show (s.logWrite t b).lh = s.lh ++ [b] from if_neg hb, List.length_append,
      List.length_singleton]
    omega

/-- With a block to spare for every operation, the check of `log_write` passes. -/
theorem logWriteCheck (ht : s.pc t = .op) {b : ℕ} (v : Block)
    (hfits : (insert b (s.used t)).card ≤ MAXOPBLOCKS - 1) :
    Budget (s.logWriteCheck mkfsLog t b v) := by
  have htotal := h.total
  unfold Group.logWriteCheck
  simp only
  split_ifs with hbig hout
  · simp only [mkfsLog, LOGSIZE, MAXOPBLOCKS] at hbig htotal
    omega
  · exact h.goto (by simp) (by simp [ht, Pc.inOp]) (by simp)
  · exact h.goto (by simp) (by simp [ht, Pc.inOp]) (by rintro _ ⟨⟩; exact hfits)

theorem next (hi : GroupInv s) {a : Act} (hok : opFits (MAXOPBLOCKS - 1) s (t, a))
    (hs : s.next mkfsLog t a = some s') : Budget s' := by
  cases a with
  | logWrite b v =>
    simp only [Group.next, ite_none_right_eq_some, some.injEq] at hs
    obtain ⟨ht, rfl⟩ := hs
    exact h.logWriteCheck ht v (by simpa [opFits] using hok)
  | beginOp | endOp | kill =>
    simp only [Group.next, ite_none_right_eq_some, some.injEq] at hs
    obtain ⟨ht, rfl⟩ := hs
    exact h.goto (by simp) (by simp [ht, Pc.inOp]) (by simp)
  | run =>
    simp only [Group.next] at hs
    split at hs <;> simp only [some.injEq, reduceCtorEq] at hs <;> subst hs
    case _ ht => exact h.beginOp hi
    case _ b ht => exact h.logWrite hi ht
    case _ ht =>
      unfold Group.endOp
      simp only
      split_ifs
      · exact h.leave rfl
      · exact h.leave rfl
      · exact h.wakeup.leave rfl
    case _ ht => exact h.leave (by split_ifs <;> rfl)
    case _ tail ht =>
      unfold Group.writeLog
      split
      all_goals exact h.leave rfl
    case _ tail ht =>
      unfold Group.installTrans
      split
      · exact h.leave rfl
      · -- no operation runs during a commit
        have hcm := hi.committing_of_inCommit (t := t) (by rw [ht]; rfl)
        have hclr : Budget { s with lh := [], group := ∅ } :=
          h.mono (Nat.zero_le _) rfl (fun u hu => by simp [hi.committing_of_inOp hu] at hcm)
          fun u => .inl rfl
        exact hclr.leave rfl
    case _ ht => exact h.leave rfl
    case _ ht => exact h.wakeup.leave rfl

end

end Budget

variable [Fintype T] [DecidableEq T]

/-- With the log `mkfs` makes, `log_write` never panics, if every operation logs fewer than
`MAXOPBLOCKS` distinct blocks. -/
theorem logWrite_fits {s : Group T} (h : (groupSys T mkfsLog).ReachableVia
    (fun s i => opFits (MAXOPBLOCKS - 1) s i) s) (t : T) : s.pc t ≠ .tooBig := by
  refine (h.invariant (I := fun s => GroupInv s ∧ Budget s) (fun s hs => ?_) fun s i s' hI hok hs =>
    ⟨hI.1.next hs, hI.2.next hI.1 hok hs⟩).2.calm t
  refine ⟨groupInv_of_reachable (.init hs), ?_⟩
  obtain ⟨-, -, hlh, hpc, -⟩ := hs
  exact ⟨by simp [hpc], by simp [hpc, Pc.inOp], by simp [hlh, room, hpc, Pc.inOp], by simp [hpc]⟩

/-- Three operations start and log `n` distinct blocks in turn. -/
def threeOps (n : ℕ) : List (Fin 3 × Act) :=
  [(0, .beginOp), (0, .run), (1, .beginOp), (1, .run), (2, .beginOp), (2, .run)] ++
  (List.range n).flatMap fun k =>
    [(Fin.ofNat 3 k, .logWrite (100 + k) fun _ => 0), (Fin.ofNat 3 k, .run)]

theorem start_init : (groupSys (Fin 3) mkfsLog).init (Group.start (.boot fun _ _ => 0)) :=
  ⟨rfl, rfl, rfl, fun _ => rfl, rfl⟩

/-- Three operations log nine blocks each. -/
theorem logWrite_fits_three : ∃ s : Group (Fin 3), (groupSys (Fin 3) mkfsLog).ReachableVia
      (fun s i => opFits (MAXOPBLOCKS - 1) s i) s ∧ s.lh.length = 27 ∧ ∀ t, s.pc t ≠ .tooBig := by
  obtain ⟨s, hreach, hlen⟩ : ∃ s, (groupSys (Fin 3) mkfsLog).ReachableVia
      (fun s i => opFits (MAXOPBLOCKS - 1) s i) s ∧ s.lh.length = 27 :=
    Machine.Sys.exists_reachableVia (threeOps 27) start_init (by decide +kernel)
  exact ⟨s, hreach, hlen, logWrite_fits hreach⟩

/-- Three operations that each keep to `MAXOPBLOCKS` distinct blocks reach the panic: they have
logged 29 blocks, and thread 2 logs its tenth. -/
theorem tooBig_of_three_full_ops : ∃ s : Group (Fin 3), (groupSys (Fin 3) mkfsLog).ReachableVia
      (fun s i => opFits MAXOPBLOCKS s i) s ∧ ∃ t, s.pc t = .tooBig :=
  Machine.Sys.exists_reachableVia (threeOps 29 ++ [(2, .logWrite 129 fun _ => 0)]) start_init
  (by decide +kernel)

end Xv6.Log
