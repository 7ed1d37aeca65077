import Xv6.Ide.Queue

/-!
# The queued driver and the disk in memory

`Mirror s m`: the disk in memory, given the completed requests in their order and the other changes
of the buffers, ends in `m`, with the buffers of `s` and with the disk of `s` up to a write that the
disk has done and whose interrupt is still to be handled.
-/

namespace Xv6.Ide

open Function Machine.Sys State Option

open Linked (Path)

variable {T B D : Type}

def put (disk : ℕ → D) : Option (ℕ × D) → ℕ → D
  | none => disk
  | some (n, d) => update disk n d

def requests : List (Ev B D) → List B
  | [] => []
  | .set _ _ :: h => requests h
  | .iderw b :: h => b :: requests h

structure Mirror [DecidableEq B] (disksize : ℕ) (m₀ : Mem B D) (s : State T B D) (m : Mem B D) :
Prop where
  run : (memSys disksize).run m₀ s.history = some m
  buf : m.buf = s.buf
  requests : requests s.history = s.completed
  disk : s.medium 1 = put m.disk s.done

/-! ## Lemmas on the definitions -/

theorem requests_append (h h' : List (Ev B D)) :
    requests (h ++ h') = requests h ++ requests h' := by
  induction h with
  | nil => rfl
  | cons e h ih => cases e <;> simp [requests, ih]

theorem lba_of_lt {n : ℕ} (h : n < 2 ^ 28) : lba n = n := by
  unfold lba
  omega

theorem Buf.cmd_sector {x : Buf D} (h : x.InRange) : x.cmd.sector = x.blockno := by
  have hlt : x.blockno < 1000 := h
  show lba (x.blockno * 1) = x.blockno
  rw [mul_one]
  exact lba_of_lt (by omega)

section Mirror

variable {s s' : State T B D} {l l' : List B} [DecidableEq T] [DecidableEq B]

/-! ## The disk in memory follows -/

theorem Mem.iderw_eq {disksize : ℕ} {m : Mem B D} {b : B} (hs : (m.buf b).synced = false)
    (hP : (m.buf b).OnDisk1 disksize) : m.iderw disksize b = some
        { disk := if (m.buf b).dirty then update m.disk (m.buf b).blockno (m.buf b).data else m.disk
          buf := update m.buf b
            { m.buf b with
              valid := true
              dirty := false
              data := if (m.buf b).dirty then (m.buf b).data else m.disk (m.buf b).blockno } } := by
  obtain ⟨-, hdev, hsize⟩ := hP
  have hdev' : ¬ (m.buf b).dev ≠ 1 := not_not.2 hdev
  simp only [Mem.iderw, hs, Bool.false_eq_true, if_false, if_neg hdev', if_neg (Nat.not_le.2 hsize)]
  cases (m.buf b).dirty <;> simp

theorem Buf.cmd_of_onDisk1 {disksize : ℕ} {x : Buf D} (h : x.OnDisk1 disksize) :
    x.cmd = ⟨1, x.blockno, if x.dirty then some x.data else none⟩ := by
  have hdev : x.cmd.dev = 1 := by
    show x.dev % 2 = 1
    rw [h.2.1]
  have hsector := Buf.cmd_sector h.1
  calc x.cmd = ⟨x.cmd.dev, x.cmd.sector, x.cmd.write⟩ := rfl
    _ = _ := by rw [hdev, hsector]; rfl

namespace Mirror

variable {disksize : ℕ} {m₀ m : Mem B D}

omit [DecidableEq T] in
theorem set (h : Mirror disksize m₀ s m) (b : B) (x : Buf D) :
    Mirror disksize m₀ { s.setBuf b x with history := s.history ++ [.set b x] }
      { m with buf := update m.buf b x } where
  run := run_snoc h.run rfl
  buf := by
    show update m.buf b x = update s.buf b x
    rw [h.buf]
  requests := by
    show Ide.requests (s.history ++ [.set b x]) = s.completed
    rw [requests_append, h.requests]
    exact List.append_nil _
  disk := h.disk

omit [DecidableEq T] in
theorem finish (h : Mirror disksize m₀ s m) (hq : Queue (Buf.OnDisk1 disksize) s l) {c : Cmd D}
    (hc : s.cmd = some c) (hb : s.busy) :
    Mirror disksize m₀ { s with busy := false, intr := s.intr + 1, medium := c.perform s.medium }
    m := by
  refine { h with disk := ?_ }
  have hdisk : s.medium 1 = m.disk := by
    have := h.disk
    simp only [done, hb, if_true] at this
    exact this
  have hdev : c.dev = 1 := by
    have hd := hq.disk
    cases l with
    | nil =>
      rw [hd.1] at hc
      cases hc
    | cons b l =>
      rw [hd.1] at hc
      cases hc
      rw [Buf.cmd_of_onDisk1 (hq.todo b List.mem_cons_self).2]
  show c.perform s.medium 1 = put m.disk (s.cmd.bind fun c => c.write.map fun d => (c.sector, d))
  rw [hc]
  cases hw : c.write with
  | none =>
    simp only [Cmd.perform, hw, bind_some, map_none, put]
    exact hdisk
  | some d =>
    simp only [Cmd.perform, hw, bind_some, map_some, put, hdev, update_self]
    rw [hdisk]

omit [DecidableEq T] in
theorem served {b : B} (h : Mirror disksize m₀ s m) (hq : Queue (Buf.OnDisk1 disksize) s (b :: l))
    (hc : s.cmd = some (s.buf b).cmd) (hb : s.busy = false) :
    ∃ m', Mirror disksize m₀ (s.served b l) m' := by
  obtain ⟨hs, hP⟩ := hq.todo b List.mem_cons_self
  have hcmd := Buf.cmd_of_onDisk1 hP
  rw [hcmd] at hc
  have hdisk := h.disk
  have hdone : (s.served b l).done = none := by
    cases l with
    | nil => rfl
    | cons c l => rfl
  have hmem : m.iderw disksize b = some _ :=
    Mem.iderw_eq (by rw [h.buf]; exact hs) (by rw [h.buf]; exact hP)
  rw [h.buf] at hmem
  refine ⟨_, run_snoc h.run hmem, ?_, ?_, ?_⟩
  · -- the block read is the one of the disk in memory
    show update s.buf b _ = update s.buf b _
    congr 1
    cases hd : (s.buf b).dirty with
    | true => simp only [hc, if_true]
    | false =>
      rw [done, hb, hc, hd] at hdisk
      simp only [hc, Bool.false_eq_true, if_false]
      rw [hdisk]
      rfl
  · show Ide.requests (s.history ++ [.iderw b]) = s.completed ++ [b]
    rw [requests_append, h.requests]
    rfl
  · rw [hdone]
    show s.medium 1 = if (s.buf b).dirty then _ else _
    rw [hdisk, done, hb, hc]
    cases hd : (s.buf b).dirty with
    | true => rfl
    | false => rfl

theorem enqueued {t : T} {b : B} {pp : Option B} (h : Mirror disksize m₀ s m)
    (hq : Queue (Buf.OnDisk1 disksize) s l) : Mirror disksize m₀ (s.enqueued l t b pp) m := by
  have hhist : (s.enqueued l t b pp).history = s.history := by cases pp <;> rfl
  have hbuf : (s.enqueued l t b pp).buf = s.buf := by cases pp <;> rfl
  have hcomp : (s.enqueued l t b pp).completed = s.completed := by cases pp <;> rfl
  have hmed : (s.enqueued l t b pp).medium = s.medium := by cases pp <;> rfl
  have hdone : (s.enqueued l t b pp).done = s.done := by
    have hd := hq.disk
    cases l with
    | nil =>
      simp only [done, hd.1, hd.2.1]
      rfl
    | cons c l => rfl
  refine ⟨?_, ?_, ?_, ?_⟩
  · rw [hhist]
    exact h.run
  · rw [hbuf]
    exact h.buf
  · rw [hhist, hcomp]
    exact h.requests
  · rw [hmed, hdone]
    exact h.disk

theorem move (h : Mirror disksize m₀ s m) (hq : Queue (Buf.OnDisk1 disksize) s l)
    (hm : Move (Buf.OnDisk1 disksize) s l s' l') : ∃ m', Mirror disksize m₀ s' m' := by
  cases hm with
  | quiet _ hbuf hmedium hdone hcompleted hhistory =>
    refine ⟨m, ?_, ?_, ?_, ?_⟩
    · rw [hhistory]
      exact h.run
    · rw [hbuf]
      exact h.buf
    · rw [hhistory, hcompleted]
      exact h.requests
    · rw [hmedium, hdone]
      exact h.disk
  | set b x => exact ⟨_, h.set b x⟩
  | enqueued t b pp => exact ⟨m, h.enqueued hq⟩
  | finish c hc hb => exact ⟨m, h.finish hq hc hb⟩
  | served b l' hl _ hc hb => exact h.served (hl ▸ hq) hc hb

end Mirror

variable {havedisk1 : Bool} {medium : ℕ → ℕ → D} {buf : B → Buf D}

theorem exists_mirror {disksize : ℕ}
    (h : (sys havedisk1 medium buf).ReachableVia (Requests (Buf.OnDisk1 disksize)) s) :
    ∃ l m, Queue (Buf.OnDisk1 disksize) s l ∧ Mirror disksize ⟨medium 1, buf⟩ s m := by
  refine h.invariant (I := fun s => ∃ l m, Queue (Buf.OnDisk1 disksize) s l ∧
    Mirror disksize ⟨medium 1, buf⟩ s m)
    ?_ ?_
  · rintro s rfl
    exact ⟨[], ⟨medium 1, buf⟩, boot_queue medium buf, rfl, rfl, rfl, rfl⟩
  · rintro s a s' ⟨l, m, hq, hmir⟩ hok hn
    obtain ⟨l', hm⟩ := hq.move (fun _ hx => hx.1) hok hn
    obtain ⟨m', hmir'⟩ := hmir.move hq hm
    exact ⟨l', m', hm.queue hq, hmir'⟩

end Mirror

/-- The queued driver.  Whatever the threads, the disk and the interrupts do, with the locks of the
buffers held and blocks in range: `idequeue` is a list without duplicates, the command on the disk
is that of its head, the buffers are completed in the order in which they were appended, each time
once, nothing but the disk has to be waited for, and `iderw` returns with the buffer valid and not
dirty.  For requests that `memide.c` accepts, buffers and disk are those that it gives for the
completed requests in their order, up to a write whose interrupt is still to be handled. -/
theorem ide_refines_memide {T B D : Type} [DecidableEq T] [DecidableEq B] (havedisk1 : Bool)
    (medium : ℕ → ℕ → D) (buf : B → Buf D) (disksize : ℕ) :
    (∀ s : State T B D, (sys havedisk1 medium buf).ReachableVia (Requests Buf.InRange) s →
      (∃ l, Path s.qnext s.idequeue l ∧ l.Nodup ∧ s.appended = s.completed ++ l ∧
        s.cmd = (l.head?.map fun b => (s.buf b).cmd) ∧
      (s.halted = false → Progress havedisk1 s l)) ∧ ∀ a s' t b, s.next havedisk1 a = some s' →
      (s.pc t).buf = some b → s'.pc t = .user → (s'.buf b).valid ∧ (s'.buf b).dirty = false) ∧
    (∀ s : State T B D, (sys havedisk1 medium buf).ReachableVia (Requests (Buf.OnDisk1 disksize))
      s → ∃ m, (memSys disksize).run ⟨medium 1, buf⟩ s.history = some m ∧
      requests s.history = s.completed ∧ m.buf = s.buf ∧ s.medium 1 = put m.disk s.done ∧
      (s.idequeue = none → s.medium 1 = m.disk)) := by
  refine ⟨fun s h => ⟨?_, ?_⟩, fun s h => ?_⟩
  · obtain ⟨l, hq⟩ := exists_queue (fun _ hx => hx) h
    exact ⟨l, hq.path, hq.nodup, hq.order, hq.cmd_eq,
      fun hh => hq.progress (fun _ hx => hx) hh havedisk1⟩
  · intro a s' t b hn hb ht
    have hs := next_returns hn hb ht
    simpa [Buf.synced] using hs
  · obtain ⟨l, m, hq, hm⟩ := exists_mirror h
    refine ⟨m, hm.run, hm.requests, hm.buf, hm.disk, fun hnone => ?_⟩
    have hnil : l = [] := hq.path.eq_nil_iff.2 hnone
    have hdone : s.done = none := by
      have hd := hq.disk
      rw [hnil] at hd
      simp only [done, hd.1, bind_none, ite_self]
    rw [hm.disk, hdone]
    rfl

/-- Two threads: one writes a block, and the other one reads it while the write is queued. -/
def writeAndRead : List (Act Bool Bool ℕ) :=
  [.acquiresleep false false, .touch false false ⟨false, true, 1, 3, 7⟩, .iderw false false,
    .go false, .go false,
    .acquiresleep true true, .iderw true true, .go true, .go true, .go true, .wake false, .finish,
      .ideintr,
    .wake false, .finish]

theorem ide_refines_memide_writeAndRead : ∃ s : State Bool Bool ℕ,
      (sys true (fun _ _ => 0) fun _ => ⟨false, false, 1, 3, 0⟩).ReachableVia
      (Requests (Buf.OnDisk1 10)) s ∧ s.completed = [false] ∧ s.idequeue = some true ∧
      s.medium 1 3 = 7 ∧ ∃ m, (memSys 10).run ⟨fun _ => 0, fun _ => ⟨false, false, 1, 3, 0⟩⟩
      s.history = some m ∧ m.buf = s.buf := by
  obtain ⟨s, hreach, hcomp, hqueue, hmed⟩ : ∃ s : State Bool Bool ℕ,
      (sys true (fun _ _ => 0) fun _ => ⟨false, false, 1, 3, 0⟩).ReachableVia
      (Requests (Buf.OnDisk1 10)) s ∧
      s.completed = [false] ∧ s.idequeue = some true ∧ s.medium 1 3 = 7 :=
    exists_reachableVia writeAndRead rfl (by decide +kernel)
  obtain ⟨m, hm, -, hb, -⟩ :=
    (ide_refines_memide true (fun _ _ => 0) (fun _ => ⟨false, false, 1, 3, 0⟩) 10).2 s hreach
  exact ⟨s, hreach, hcomp, hqueue, hmed, m, hm, hb⟩

end Xv6.Ide
