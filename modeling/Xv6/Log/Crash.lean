import Xv6.Log.Commit
import Xv6.Lib.Machine
import Mathlib.Data.Fintype.Pi

/-!
# Crash atomicity of the log

The disk writes single blocks atomically and in the order issued, so a crash inside `commit` or
`recover_from_log` leaves the disk with a prefix of that call's writes (`crashDisk`).  After a crash
recovery runs on what the disk holds, and may crash itself, any number of times, before a run of it
completes (`reboot`).

`Clean L v e`: the header is empty and the home blocks are those of `v`.  `Logged L lh w e`: the
header lists `lh`, the log blocks hold the new contents and every home block outside `lh` is that of
`w`.  Recovery keeps `Clean`, and turns `Logged` into `Clean` while every prefix of it stays
`Logged`.
-/

namespace Xv6.Log

open Function List Option

/-! ## Crashes -/

/-- The disk after the first `k` block writes of the call `f` on `d`. -/
def crashDisk (f : Dev → Dev) (d : Dev) (k : ℕ) : ℕ → Block :=
  WriteSeq.apply ((f { d with writes := [] }).writes.take k) d.disk

variable (L : LogArea)

/-- The disk after a recovery that crashes after `k` writes. -/
def recoverCrash (e : ℕ → Block) (k : ℕ) : ℕ → Block := crashDisk (recoverFromLog L) (.boot e) k

/-- Boot on the disk `e`: one recovery crashes for each entry of `ks`, the next one completes. -/
def reboot (ks : List ℕ) (e : ℕ → Block) : Dev :=
  recoverFromLog L (.boot (ks.foldl (recoverCrash L) e))

/-- A transaction `log_write` can build: distinct block numbers outside the log, few enough for the
header and for the log. -/
def Txn (lh : List ℕ) : Prop :=
  lh.Nodup ∧ lh.length ≤ LOGSIZE ∧ lh.length ≤ L.size - 1 ∧ ∀ b ∈ lh, b < 2 ^ 32 ∧ ¬ L.Mem b

instance (lh : List ℕ) : Decidable (Txn L lh) := inferInstanceAs (Decidable (_ ∧ _ ∧ _ ∧ _))

/-! ## What a crash can leave on the disk -/

structure Clean (v e : ℕ → Block) : Prop where
  head : headBlocks (e L.start) = []
  home : ∀ b, ¬ L.Mem b → e b = v b

structure Logged (lh : List ℕ) (w e : ℕ → Block) : Prop where
  head : headBlocks (e L.start) = lh
  log : ∀ i (hi : i < lh.length), e (L.start + (0 + i) + 1) = w lh[i]
  home : ∀ b, ¬ L.Mem b → b ∉ lh → e b = w b

variable {L} {lh : List ℕ} {v e : ℕ → Block}

section

variable {lh : List ℕ} (h : Txn L lh)

include h

theorem Txn.fits : 0 + lh.length < L.size := by
  have := h.2.2.1
  have := L.pos
  omega

theorem Txn.notMem {b : ℕ} (hb : b ∈ lh) : ¬ L.Mem b :=
  (h.2.2.2 b hb).2

theorem Txn.headBlocks_putHead (b : Block) : headBlocks (putHead b lh) = lh :=
  Log.headBlocks_putHead b h.2.1 fun x hx => (h.2.2.2 x hx).1

theorem Txn.mem_log {i : ℕ} (hi : i < lh.length) : L.Mem (L.start + (0 + i) + 1) := by
  have := h.fits
  exact ⟨by omega, by omega⟩

end

theorem Clean.update_log (h : Clean L v e) {b : ℕ} (hb : L.Mem b)
    (hne : b ≠ L.start) (x : Block) : Clean L v (update e b x) where
  head := by rw [update_of_ne hne.symm]; exact h.head
  home := fun y hy => by
    rw [update_of_ne, h.home y hy]
    rintro rfl
    exact hy hb

theorem Clean.update_head (h : ∀ b, ¬ L.Mem b → e b = v b) (x : Block) :
    Clean L v (update e L.start (putHead x [])) where
  head := by rw [update_self, headBlocks_putHead_nil]
  home := fun y hy => by
    rw [update_of_ne, h y hy]
    rintro rfl
    exact hy L.mem_start

section

variable {lh : List ℕ} (ht : Txn L lh) {w e : ℕ → Block}

include ht

theorem Logged.update_home (h : Logged L lh w e)
    {b : ℕ} (hb : b ∈ lh) (x : Block) : Logged L lh w (update e b x) where
  head := by
    rw [update_of_ne, h.head]
    rintro rfl
    exact ht.notMem hb L.mem_start
  log := fun i hi => by
    rw [update_of_ne, h.log i hi]
    rintro rfl
    exact ht.notMem hb (ht.mem_log hi)
  home := fun y hy hn => by
    rw [update_of_ne, h.home y hy hn]
    rintro rfl
    exact hn hb

section

variable {w e src : ℕ → Block} (h : Logged L lh w e)
  (hsrc : ∀ i (hi : i < lh.length), src (L.start + (0 + i) + 1) = w lh[i])

include h hsrc

theorem Logged.apply_homeWrites
    {b : ℕ} (hb : ¬ L.Mem b) : WriteSeq.apply (homeWrites L src 0 lh) e b = w b := by
  by_cases hm : b ∈ lh
  · obtain ⟨i, hi, rfl⟩ := getElem_of_mem hm
    have hw := mem_homeWrites L src 0 hi
    rw [WriteSeq.apply_of_mem (by rw [map_fst_homeWrites]; exact ht.1) hw, hsrc i hi]
  · rw [WriteSeq.apply_of_notMem (by rwa [map_fst_homeWrites]), h.home b hb hm]

theorem Logged.apply_install (x : Block) :
    Clean L w (WriteSeq.apply (homeWrites L src 0 lh ++ [(L.start, putHead x [])]) e) := by
  rw [WriteSeq.apply_append]
  exact .update_head (fun b hb => h.apply_homeWrites ht hsrc hb) _

theorem Logged.apply_take_install (x : Block) (k : ℕ) :
    let e' := WriteSeq.apply ((homeWrites L src 0 lh ++ [(L.start, putHead x [])]).take k) e
    Logged L lh w e' ∨ Clean L w e' := by
  intro e'
  rcases lt_or_ge (homeWrites L src 0 lh).length k with hk | hk
  · right
    simp only [e']
    rw [take_of_length_le (by simpa [Nat.succ_le_iff] using hk)]
    exact h.apply_install ht hsrc x
  · left
    simp only [e']
    rw [take_append_of_le_length hk]
    refine WriteSeq.apply_take_induction (P := Logged L lh w) ?_ h k
    intro v hv d hd
    refine hd.update_home ht ?_ _
    rw [← map_fst_homeWrites L src 0 lh]
    exact mem_map_of_mem hv

end

end

/-! ## Recovery -/

theorem Clean.recoverFromLog_issues (h : Clean L v e) :
    Dev.Issues (.boot e) (recoverFromLog L (.boot e)) [(L.start, putHead (e L.start) [])] := by
  have hr : readHead L (.boot e) = [] := h.head
  rw [recoverFromLog, hr]
  exact writeHead_issues L [] (.boot e)

theorem Logged.recoverFromLog_issues (ht : Txn L lh)
    (h : Logged L lh w e) : Dev.Issues (.boot e) (recoverFromLog L (.boot e))
      (homeWrites L e 0 lh ++ [(L.start, putHead (e L.start) [])]) := by
  have hr : readHead L (.boot e) = lh := h.head
  rw [recoverFromLog, hr]
  have hi := installTrans_issues L (d := .boot e) (fun b hb => ht.notMem hb) ht.fits
  have hw := writeHead_issues L [] (installTrans L 0 lh (.boot e))
  -- no home write touches the header block
  have hs : (installTrans L 0 lh (.boot e)).bread L.start = e L.start := by
    rw [hi.bread, WriteSeq.apply_of_notMem]
    · rfl
    · rw [map_fst_homeWrites]
      exact fun hm => ht.notMem hm L.mem_start
  rw [hs] at hw
  exact hi.trans hw

theorem Clean.recoverCrash (h : Clean L v e) (k : ℕ) : Clean L v (recoverCrash L e k) := by
  have hw : (recoverFromLog L (.boot e)).writes = [(L.start, putHead (e L.start) [])] :=
    h.recoverFromLog_issues.writes
  change Clean L v (WriteSeq.apply ((recoverFromLog L (.boot e)).writes.take k) e)
  rw [hw]
  refine WriteSeq.apply_take_induction (P := Clean L v) ?_ h k
  rintro w hm d hd
  rw [mem_singleton] at hm
  subst hm
  exact .update_head hd.home _

theorem Clean.recoverFromLog (h : Clean L v e) : Clean L v (recoverFromLog L (.boot e)).disk := by
  rw [h.recoverFromLog_issues.disk]
  exact .update_head h.home _

theorem Logged.recoverFromLog (ht : Txn L lh)
    (h : Logged L lh w e) : Clean L w (recoverFromLog L (.boot e)).disk := by
  rw [(h.recoverFromLog_issues ht).disk]
  exact h.apply_install ht h.log _

theorem Logged.recoverCrash (ht : Txn L lh) (h : Logged L lh w e) (k : ℕ) :
    Logged L lh w (recoverCrash L e k) ∨ Clean L w (recoverCrash L e k) := by
  have hw : (Log.recoverFromLog L (.boot e)).writes = _ := (h.recoverFromLog_issues ht).writes
  change Logged L lh w (WriteSeq.apply ((Log.recoverFromLog L (.boot e)).writes.take k) e) ∨
    Clean L w (WriteSeq.apply ((Log.recoverFromLog L (.boot e)).writes.take k) e)
  rw [hw]
  exact h.apply_take_install ht h.log _ k

theorem Clean.reboot (h : Clean L v e) (ks : List ℕ) : Clean L v (reboot L ks e).disk := by
  induction ks generalizing e with
  | nil => exact h.recoverFromLog
  | cons k ks ih => exact ih (h.recoverCrash k)

theorem Logged.reboot (ht : Txn L lh) (h : Logged L lh w e)
    (ks : List ℕ) : Clean L w (reboot L ks e).disk := by
  induction ks generalizing e with
  | nil => exact h.recoverFromLog ht
  | cons k ks ih =>
    rcases h.recoverCrash ht k with h | h
    · exact ih h
    · exact h.reboot ks

/-! ## Commit -/

/-- Between calls the header is empty and the log blocks that are cached agree with the disk. -/
structure Ready (L : LogArea) (d : Dev) : Prop where
  head : headBlocks (d.disk L.start) = []
  log : ∀ b, L.Mem b → d.bread b = d.disk b

/-- The contents of the home blocks once `lh` is committed. -/
def committed (d : Dev) (lh : List ℕ) (b : ℕ) : Block := if b ∈ lh then d.bread b else d.disk b

theorem committed_getElem (d : Dev) {i : ℕ} (hi : i < lh.length) :
    committed d lh lh[i] = d.bread lh[i] := if_pos (getElem_mem hi)

theorem commit_issues (ht : Txn L lh) (hne : lh ≠ []) (d : Dev) : ∃ (x y : Block) (src : ℕ → Block),
      (∀ i (hi : i < lh.length), src (L.start + (0 + i) + 1) = committed d lh lh[i]) ∧
      Dev.Issues d (commit L lh d) (logWrites L d.bread 0 lh ++ ((L.start, putHead x lh) ::
          (homeWrites L src 0 lh ++ [(L.start, putHead y [])]))) := by
  have h₁ := writeLog_issues L (d := d) (fun b hb => ht.notMem hb) ht.fits
  have h₂ := h₁.trans (writeHead_issues L lh _)
  have h₃ := h₂.trans (installTrans_issues L (fun b hb => ht.notMem hb) ht.fits)
  have h₄ := h₃.trans (writeHead_issues L [] _)
  rw [commit, if_pos (length_pos_iff.2 hne)]
  refine ⟨(writeLog L 0 lh d).bread L.start,
    (installTrans L 0 lh (writeHead L lh (writeLog L 0 lh d))).bread L.start,
    (writeHead L lh (writeLog L 0 lh d)).bread, fun i hi => ?_, ?_⟩
  · -- the header write in between does not touch log block `i`
    rw [h₂.bread, WriteSeq.apply_append, WriteSeq.apply_cons, WriteSeq.apply_nil,
      update_of_ne (by omega), apply_logWrites L _ _ hi, committed_getElem d hi]
  · simpa only [append_assoc, cons_append, nil_append] using h₄

theorem commit_nil (d : Dev) : commit L [] d = d := rfl

theorem logged_of_putHead (d : Dev) (ht : Txn L lh) (x : Block) :
    Logged L lh (committed d lh) (update
      (WriteSeq.apply (logWrites L d.bread 0 lh) d.disk) L.start (putHead x lh)) where
  head := by rw [update_self, ht.headBlocks_putHead]
  log := fun i hi => by
    rw [update_of_ne (by omega), apply_logWrites L _ _ hi, committed_getElem d hi]
  home := fun b hb hn => by
    rw [update_of_ne, WriteSeq.apply_of_notMem, committed, if_neg hn]
    · intro hm
      obtain ⟨w, hw, rfl⟩ := mem_map.1 hm
      have := mem_logWrites L hw
      have := ht.fits
      exact hb ⟨by omega, by omega⟩
    · rintro rfl
      exact hb L.mem_start

theorem Ready.clean_of_le {d : Dev} (hd : Ready L d) (ht : Txn L lh) (k : ℕ) :
    Clean L d.disk (WriteSeq.apply ((logWrites L d.bread 0 lh).take k) d.disk) := by
  refine WriteSeq.apply_take_induction (P := Clean L d.disk) ?_ ⟨hd.head, fun _ _ => rfl⟩ k
  intro w hw e he
  have := mem_logWrites L hw
  have := ht.fits
  exact he.update_log ⟨by omega, by omega⟩ (by omega) _

theorem Ready.crashDisk_commit {d : Dev} (hd : Ready L d) (ht : Txn L lh) (k : ℕ) :
    (k ≤ lh.length ∧ Clean L d.disk (crashDisk (commit L lh) d k)) ∨
    (lh.length < k ∧ (Logged L lh (committed d lh) (crashDisk (commit L lh) d k) ∨
      Clean L (committed d lh) (crashDisk (commit L lh) d k))) := by
  rcases eq_or_ne lh [] with rfl | hne
  · have hc : crashDisk (commit L []) d k = d.disk := by simp [crashDisk, commit_nil]
    have hcl : Clean L d.disk d.disk := ⟨hd.head, fun _ _ => rfl⟩
    have hcom : committed d [] = d.disk := by
      funext b
      simp [committed]
    rw [hc, hcom]
    rcases Nat.eq_zero_or_pos k with rfl | hk
    · exact .inl ⟨le_rfl, hcl⟩
    · exact .inr ⟨hk, .inr hcl⟩
  · obtain ⟨x, y, src, hsrc, hi⟩ := commit_issues ht hne { d with writes := [] }
    have hlen := length_logWrites L d.bread 0 lh
    unfold crashDisk
    rw [hi.writes, nil_append]
    rcases lt_or_ge lh.length k with hk | hk
    · right
      refine ⟨hk, ?_⟩
      obtain ⟨j, rfl⟩ : ∃ j, k = (logWrites L d.bread 0 lh).length + (j + 1) :=
        ⟨k - lh.length - 1, by omega⟩
      rw [show Dev.bread { d with writes := [] } = d.bread from rfl, take_length_add_append,
        take_succ_cons, WriteSeq.apply_append, WriteSeq.apply_cons]
      exact (logged_of_putHead d ht x).apply_take_install ht hsrc y j
    · left
      refine ⟨hk, ?_⟩
      rw [take_append_of_le_length (by rw [length_logWrites]; exact hk)]
      exact hd.clean_of_le ht k

/-! ## The running system -/

inductive LogStep where
  /-- A file-system operation changes the cached contents of a home block. -/
  | modify (b : ℕ) (v : Block)
  /-- The cache drops a block that agrees with the disk. -/
  | evict (b : ℕ)
  | commit (lh : List ℕ)
  /-- The machine crashes after `k` writes of `commit` and reboots, recovering as `ks` says. -/
  | crash (lh : List ℕ) (k : ℕ) (ks : List ℕ)

def logStep (L : LogArea) (d : Dev) : LogStep → Option Dev
  | .modify b v => if L.Mem b then none else some { d with cache := update d.cache b (some v) }
  | .evict b =>
    if d.cache b = some (d.disk b) then some { d with cache := update d.cache b none }
    else none
  | .commit lh => if Txn L lh then some (Log.commit L lh d) else none
  | .crash lh k ks =>
    if Txn L lh then some (reboot L ks (crashDisk (Log.commit L lh) d k)) else none

/-- Machines that booted from an image whose log is empty, as `mkfs` writes it. -/
def logSys (L : LogArea) : Machine.Sys Dev LogStep where
  init d := ∃ img : ℕ → Block, headBlocks (img L.start) = [] ∧ d = reboot L [] img
  next := logStep L

theorem bread_recoverFromLog_boot {e : ℕ → Block} {ws : List (ℕ × Block)}
    (h : Dev.Issues (.boot e) (recoverFromLog L (.boot e)) ws) :
    (recoverFromLog L (.boot e)).bread = (recoverFromLog L (.boot e)).disk := by
  rw [h.bread, h.disk]
  rfl

theorem Clean.ready_reboot (h : Clean L v e) (ks : List ℕ) : Ready L (Log.reboot L ks e) := by
  refine ⟨(h.reboot ks).head, fun b _ => ?_⟩
  induction ks generalizing e with
  | nil => exact congrFun (bread_recoverFromLog_boot h.recoverFromLog_issues) b
  | cons k ks ih => exact ih (h.recoverCrash k)

theorem Logged.ready_reboot (ht : Txn L lh) (h : Logged L lh w e)
    (ks : List ℕ) : Ready L (Log.reboot L ks e) := by
  induction ks generalizing e with
  | nil =>
    exact ⟨(h.recoverFromLog ht).head,
      fun b _ => congrFun (bread_recoverFromLog_boot (h.recoverFromLog_issues ht)) b⟩
  | cons k ks ih =>
    rcases h.recoverCrash ht k with h | h
    · exact ih h
    · exact h.ready_reboot ks

theorem Ready.commit {d : Dev} (hd : Ready L d) (ht : Txn L lh) : Ready L (Log.commit L lh d) := by
  rcases eq_or_ne lh [] with rfl | hne
  · exact hd
  · obtain ⟨x, y, src, hsrc, hi⟩ := commit_issues ht hne d
    constructor
    · rw [hi.disk, WriteSeq.apply_append, WriteSeq.apply_cons]
      exact ((logged_of_putHead d ht x).apply_install ht hsrc y).head
    · intro b hb
      rw [hi.disk, hi.bread]
      exact WriteSeq.apply_congr _ (hd.log b hb)

theorem Ready.crash {d : Dev} (hd : Ready L d) (ht : Txn L lh) (k : ℕ)
    (ks : List ℕ) : Ready L (Log.reboot L ks (crashDisk (Log.commit L lh) d k)) := by
  rcases hd.crashDisk_commit ht k with ⟨-, h⟩ | ⟨-, h | h⟩
  · exact h.ready_reboot ks
  · exact h.ready_reboot ht ks
  · exact h.ready_reboot ks

theorem Ready.setCache {d : Dev} (hd : Ready L d) {b : ℕ} {c : Option Block}
    (h : ¬ L.Mem b ∨ c.getD (d.disk b) = d.disk b) :
    Ready L { d with cache := update d.cache b c } := by
  refine ⟨hd.head, fun x hx => ?_⟩
  by_cases hxb : x = b
  · subst hxb
    simpa [Dev.bread] using h.resolve_left (not_not.2 hx)
  · have := hd.log x hx
    simpa [Dev.bread, hxb] using this

theorem Ready.step {d d' : Dev} {i : LogStep} (hd : Ready L d) (h : logStep L d i = some d') :
    Ready L d' := by
  cases i with
  | modify b v =>
    simp only [logStep, ite_eq_iff, reduceCtorEq, and_false, some.injEq, false_or] at h
    obtain ⟨hb, rfl⟩ := h
    exact hd.setCache (.inl hb)
  | evict b =>
    simp only [logStep, ite_eq_iff, reduceCtorEq, and_false, some.injEq, or_false] at h
    obtain ⟨-, rfl⟩ := h
    exact hd.setCache (.inr rfl)
  | commit lh =>
    simp only [logStep, ite_eq_iff, reduceCtorEq, and_false, some.injEq, or_false] at h
    obtain ⟨ht, rfl⟩ := h
    exact hd.commit ht
  | crash lh k ks =>
    simp only [logStep, ite_eq_iff, reduceCtorEq, and_false, some.injEq, or_false] at h
    obtain ⟨ht, rfl⟩ := h
    exact hd.crash ht k ks

theorem ready_of_reachable {d : Dev} (h : (logSys L).Reachable d) : Ready L d := by
  refine h.invariant ?_ fun _ _ _ hd => hd.step
  rintro _ ⟨img, himg, rfl⟩
  exact Clean.ready_reboot (v := img) ⟨himg, fun _ _ => rfl⟩ []

/-- A crash anywhere inside `commit`, and anywhere inside any number of recoveries after it, is
atomic: the first recovery that completes leaves an empty header and all home blocks of the
transaction old or all of them new, and new once the header had been written. -/
theorem commit_crash_atomic {d : Dev} (hd : (logSys L).Reachable d) {lh : List ℕ} (ht : Txn L lh)
    (k : ℕ) (ks : List ℕ) : let e := (reboot L ks (crashDisk (Log.commit L lh) d k)).disk
    headBlocks (e L.start) = [] ∧
    (∀ b, ¬ L.Mem b → b ∉ lh → e b = d.disk b) ∧
    ((∀ b ∈ lh, e b = d.disk b) ∨ ∀ b ∈ lh, e b = d.bread b) ∧
    (lh.length < k → ∀ b ∈ lh, e b = d.bread b) := by
  intro e
  have hnew : Clean L (committed d lh) e → headBlocks (e L.start) = [] ∧
      (∀ b, ¬ L.Mem b → b ∉ lh → e b = d.disk b) ∧ ∀ b ∈ lh, e b = d.bread b := by
    intro h
    refine ⟨h.head, fun b hb hn => ?_, fun b hb => ?_⟩
    · rw [h.home b hb, committed, if_neg hn]
    · rw [h.home b (ht.notMem hb), committed, if_pos hb]
  rcases (ready_of_reachable hd).crashDisk_commit ht k with ⟨hk, h⟩ | ⟨-, h | h⟩
  · have he : Clean L d.disk e := h.reboot ks
    exact ⟨he.head, fun b hb _ => he.home b hb, .inl fun b hb => he.home b (ht.notMem hb),
      fun hk' => absurd hk' (by omega)⟩
  · obtain ⟨h₁, h₂, h₃⟩ := hnew (h.reboot ht ks)
    exact ⟨h₁, h₂, .inr h₃, fun _ => h₃⟩
  · obtain ⟨h₁, h₂, h₃⟩ := hnew (h.reboot ks)
    exact ⟨h₁, h₂, .inr h₃, fun _ => h₃⟩

/-- A machine booted from a zeroed disk whose cached block 100 has been filled with ones. -/
def dirtyDev : Dev :=
  let d := reboot mkfsLog [] fun _ _ => 0
  { d with cache := update d.cache 100 (some fun _ => 1) }

theorem reachable_dirtyDev : (logSys mkfsLog).Reachable dirtyDev := by
  have hm : ¬ mkfsLog.Mem 100 := by decide
  refine .step (i := .modify 100 fun _ => 1) (.init ⟨fun _ _ => 0, by decide, rfl⟩) trivial ?_
  simp only [logSys, logStep, if_neg hm]
  rfl

theorem commit_crash_atomic_block100 :
    (reboot mkfsLog [1] (crashDisk (Log.commit mkfsLog [100]) dirtyDev 2)).disk 100 = fun _ => 1 :=
  (commit_crash_atomic reachable_dirtyDev (by decide : Txn mkfsLog [100]) 2 [1]).2.2.2
    (by decide) 100 (by simp)

end Xv6.Log
