import Xv6.Bio.Invariant

/-!
# Transparency of the buffer cache

Every step of the cache keeps its invariant.
-/

namespace Xv6.Bio

open LinkedRing Tally Function Option

variable {T : Type} {x : BlockId}

attribute [local simp] CachePc.uses CachePc.io CachePc.request Cache.boot

/-! ## The steps -/

structure CacheInv [Fintype T] (s : Cache T) : Prop where
  shape : ∃ l, Shape s.buf s.links l
  control : Control s.buf s.pc
  values : Values s

theorem Shape.bget_cases {s : Cache T} {l : List (Fin NBUF)} (h : Shape s.buf s.links l)
    {i : Fin NBUF} {b : Buf T} (hb : s.bget x = some (i, b)) :
    (l.find? (fun i => (s.buf i).id == x) = some i ∧
      b = { s.buf i with refcnt := (s.buf i).refcnt + 1 }) ∨
    ((∀ j, (s.buf j).id ≠ x) ∧ (s.buf i).refcnt = 0 ∧ (s.buf i).dirty = false ∧
      b = { s.buf i with dev := x.1, blockno := x.2, valid := false, dirty := false, refcnt :=
        1 }) := by
  have hlen : l.length ≤ NBUF := by
    simpa using h.ring.nodup.length_le_card
  unfold Cache.bget at hb
  rw [h.ring.walk_next _ hlen, h.ring.walk_prev _ hlen] at hb
  split at hb
  · rename_i hf
    cases hb
    exact .inl ⟨hf, rfl⟩
  · rename_i hf
    split at hb <;> cases hb
    rename_i hr
    have hi := List.find?_some hr
    simp only [Bool.and_eq_true, beq_iff_eq, Bool.not_eq_true'] at hi
    exact .inr ⟨fun j => by simpa using List.find?_eq_none.1 hf j (h.mem j), hi.1, hi.2, rfl⟩

theorem Cache.iderw_cases {s s' : Cache T} {i : Fin NBUF} (h : s.iderw i = some s') :
    ((s.buf i).dirty ∧ s' = { s.setBuf i { s.buf i with valid := true, dirty := false } with
      disk := update s.disk (s.buf i).id (s.buf i).data }) ∨
    ((s.buf i).valid = false ∧ (s.buf i).dirty = false ∧
      s' = s.setBuf i { s.buf i with valid := true, data := s.disk (s.buf i).id }) := by
  simp only [iderw] at h
  split_ifs at h with h1 h2 h3 hd <;> cases h
  · exact .inl ⟨hd, rfl⟩
  · exact .inr ⟨by simpa [hd] using h1, by simpa using hd, rfl⟩

namespace CacheInv

variable [Fintype T] {s s' : Cache T} {t : T} {i : Fin NBUF}

theorem boot (disk : BlockId → Data) (havedisk1 : Bool) :
    CacheInv (Cache.boot T disk havedisk1) where
  shape := by
    refine ⟨(List.finRange NBUF).reverse ++ [],
      IsRing.foldl_pushFront (List.nodup_finRange NBUF) isRing_nil (by simp), by simp, ?_, ?_⟩
    · intro i j hi
      simp [Buf.active] at hi
    · exact List.pairwise_of_forall fun i j _ hj => by simp [Buf.active] at hj
  control := by
    refine ⟨fun i => ?_, ?_, ?_, ?_, ?_⟩ <;> simp [tally]
  values := by
    refine ⟨?_, ?_, ?_, ?_, ?_, fun x => .inl rfl⟩ <;> simp

section

variable (h : CacheInv s)

include h

theorem held (hpc : s.pc t = .ready) (hl : (s.buf i).lock = some t) :
    (s.buf i).valid ∧ 0 < (s.buf i).refcnt := by
  exact ⟨(h.control.filled t i hl).resolve_right fun ⟨x, hx⟩ => by simp [hpc] at hx,
    h.control.locked_pos hl⟩

theorem valid_unique (hv : (s.buf i).valid) (j : Fin NBUF)
    (hj : (s.buf j).valid) (hid : (s.buf j).id = (s.buf i).id) : j = i := by
  obtain ⟨l, hs⟩ := h.shape
  exact hs.unique j i (Buf.active_eq_true.2 (.inl hj)) (Buf.active_eq_true.2 (.inl hv)) hid

theorem io_unique (hl : (s.buf i).lock = some t) {u : T} (hu : (s.pc u).io = some i) : u = t := by
  have hb := h.control.busy u i hu
  rw [hl] at hb
  exact (some.inj hb).symm

theorem disk_eq_contents (hpc : s.pc t = .bread i x)
    (hv : (s.buf i).valid = false) : s.disk x = s.contents x := by
  obtain ⟨l, hs⟩ := h.shape
  rcases h.values.home x with hx | ⟨j, hj, hd⟩
  · exact hx.symm
  · -- a dirty buffer of the block is valid, and there is only one active buffer of the block
    have hvj := h.values.dirty j hd
    have hid := h.control.wants t i x (by rw [hpc]; rfl)
    have hl := h.control.busy t i (by rw [hpc]; rfl)
    have hpos := h.control.locked_pos hl
    have := hs.unique j i (Buf.active_eq_true.2 (.inl hvj)) (Buf.active_eq_true.2 (.inr hpos))
      (hj.trans hid.symm)
    rw [this, hv] at hvj
    exact absurd hvj (by decide)

theorem modify (hpc : s.pc t = .ready) (hl : (s.buf i).lock = some t) (d : Data) :
    CacheInv { s.setBuf i { s.buf i with data := d } with
      unsaved := update s.unsaved i true } := by
  obtain ⟨l, hs⟩ := h.shape
  refine ⟨⟨l, hs.keep rfl rfl⟩, h.control.setBuf rfl rfl rfl rfl, ?_⟩
  refine h.values.modify (by simp [hl]) (fun u hu => ?_) d
  obtain rfl := h.io_unique hl hu
  simp [hpc] at hu

theorem setDirty (hpc : s.pc t = .ready) (hl : (s.buf i).lock = some t) :
    CacheInv (s.setDirty i) := by
  obtain ⟨l, hs⟩ := h.shape
  have hv := (h.held hpc hl).1
  exact ⟨⟨l, hs.keep rfl rfl⟩, h.control.setBuf rfl rfl rfl rfl,
    h.values.setDirty hv (h.valid_unique hv)⟩

end

variable [DecidableEq T]

section

variable (h : CacheInv s)

include h

theorem bread (hpc : s.pc t = .ready) {b : Buf T}
    (hb : s.bget x = some (i, b)) : CacheInv ((s.setBuf i b).goto t (.bget i x)) := by
  obtain ⟨l, hs⟩ := h.shape
  have hother : ∀ j, j ≠ i → (CachePc.bget i x).uses j = (s.pc t).uses j := fun j hj => by
    simpa [hpc] using hj.symm
  have hreq : ∀ j y, (CachePc.bget i x).request = some (j, y) → j = i ∧ x = y := fun j y hr => by
    simpa [eq_comm] using hr
  rcases hs.bget_cases hb with ⟨hf, rfl⟩ | ⟨hx, h0, hd, rfl⟩
  · have hid : (s.buf i).id = x := by simpa using List.find?_some hf
    refine ⟨⟨l, hs.activate hf hid (Buf.active_eq_true.2 (.inr (Nat.succ_pos _)))⟩, ?_, ?_⟩
    · refine h.control.move ?_ hother (.inr ⟨rfl, id⟩) (fun j y hr => ?_) (by simp) (by simp)
        (fun _ _ hl => hl) (fun u => h.control.filled_update _ (by simp [hpc])) (by simp [hpc])
      · simp [hpc]
      · exact ⟨(hreq j y hr).1, hid.trans (hreq j y hr).2⟩
    · refine Values.goto ?_ (.bget i x) (by simp) (by simp)
      exact h.values.setBuf_frame rfl rfl rfl rfl (h.values.unsaved i)
  · obtain ⟨hl, -⟩ := h.control.idle h0
    refine ⟨⟨l, hs.recycle hx rfl (Buf.active_eq_true.2 (.inr one_pos))⟩, ?_, ?_⟩
    · refine h.control.move ?_ hother (.inl h0) (fun j y hr => hreq j y hr) (by simp)
        (by simp) (fun _ _ hl => hl) (by simp [hl]) (by simp [hpc])
      simp [hpc, h0]
    · refine Values.goto ?_ (.bget i x) (by simp) (by simp)
      exact h.values.setBuf (by simp) (h.values.unsaved i) (by simp) (by simp [hd])

theorem acquire (hpc : s.pc t = .bget i x) (hl : (s.buf i).lock = none) :
    CacheInv ((s.setBuf i { s.buf i with lock := some t }).goto t (.bread i x)) := by
  obtain ⟨l, hs⟩ := h.shape
  refine ⟨⟨l, hs.keep rfl rfl⟩, ?_, ?_⟩
  · refine h.control.move ?_ (fun j hj => ?_) (.inr ⟨rfl, id⟩) (fun j y hr => ?_) (fun j hj => ?_)
      (by simp) ?_ ?_ ?_
    · simp [hpc, hl]
    · simpa [hpc] using hj.symm
    · obtain ⟨rfl, rfl⟩ : i = j ∧ x = y := by simpa using hr
      exact ⟨rfl, h.control.wants t i x (by rw [hpc]; rfl)⟩
    · exact ⟨by simpa [eq_comm] using hj, rfl⟩
    · simp [hl]
    · rintro u hu
      obtain rfl : t = u := by simpa using hu
      exact .inr ⟨x, by simp⟩
    · simp [hpc]
  · refine Values.goto (h.values.setBuf_frame ?_ ?_ ?_ ?_ fun _ => rfl) (.bread i x) (by simp) ?_
    · rfl
    · rfl
    · rfl
    · rfl
    · intro j hj
      obtain rfl : i = j := by simpa using hj
      by_contra hu
      simpa [hl] using h.values.unsaved i (by simpa [Cache.setBuf] using hu)

theorem bwrite (hpc : s.pc t = .ready) (hl : (s.buf i).lock = some t) :
    CacheInv ((s.setDirty i).goto t (.bwrite i)) := by
  have h' := h.setDirty hpc hl
  refine ⟨h'.shape, ?_, h'.values.goto (.bwrite i) ?_ ?_⟩
  · refine h.control.move ?_ ?_ (.inr ⟨rfl, id⟩) (by simp) (fun j hj => ?_) (by simp)
      (fun _ _ hu => hu) (fun u => h.control.filled_update _ (by simp [hpc])) (by simp [hpc])
    · simp [hpc]
    · simp [hpc]
    · exact ⟨by simpa [eq_comm] using hj, hl⟩
  · rintro j hj
    obtain rfl : i = j := by simpa using hj
    simp [Cache.setDirty]
  · rintro j hj
    obtain rfl : i = j := by simpa using hj
    simp [Cache.setDirty]

theorem brelse (hpc : s.pc t = .ready) (hl : (s.buf i).lock = some t)
    (hsaved : s.unsaved i = false) :
    CacheInv ((s.setBuf i { s.buf i with lock := none }).goto t (.brelse i)) := by
  obtain ⟨l, hs⟩ := h.shape
  have hv := (h.held hpc hl).1
  refine ⟨⟨l, hs.keep rfl rfl⟩, ?_, ?_⟩
  · refine h.control.move ?_ (fun j hj => ?_) (.inr ⟨rfl, id⟩) (by simp)
      (by simp) (fun j hj => ?_) (fun u hu hl' => ?_) (by simp) (by simp [hpc])
    · simp [hpc, hl]
    · simpa [hpc] using hj.symm
    · exact ⟨by simpa [eq_comm] using hj, hv⟩
    · rw [hl] at hl'
      exact absurd (some.inj hl').symm hu
  · refine Values.goto ?_ (.brelse i) (by simp) (by simp)
    exact h.values.setBuf_frame rfl rfl rfl rfl (by simp [hsaved])

theorem release (hpc : s.pc t = .brelse i) : CacheInv ((s.release i).goto t .ready) := by
  obtain ⟨l, hs⟩ := h.shape
  have hv := h.control.released t i hpc
  have hpos : 0 < (s.buf i).refcnt := by
    have hu : 0 < tally (CachePc.uses i) s.pc := tally_pos (t := t) (by simp [hpc])
    have := h.control.refcnt i
    omega
  have hact : (s.buf i).active := Buf.active_eq_true.2 (.inl hv)
  have hs' : Shape (update s.buf i { s.buf i with refcnt := (s.buf i).refcnt - 1 }) s.links l :=
    hs.keep rfl (by rw [hact]; exact Buf.active_eq_true.2 (.inl hv))
  have hc : Control (update s.buf i { s.buf i with refcnt := (s.buf i).refcnt - 1 })
      (update s.pc t .ready) := by
    refine h.control.move ?_ (fun j hj => ?_) (.inr ⟨rfl, id⟩) (by simp)
      (by simp) (by simp) (fun _ _ hl => hl)
      (fun u => h.control.filled_update _ (by simp [hpc])) (by simp [hpc])
    · simp [hpc]
      omega
    · simpa [hpc] using hj.symm
  have hw : Values ((s.setBuf i { s.buf i with refcnt := (s.buf i).refcnt - 1 }).goto t
    .ready) := by
    refine Values.goto ?_ .ready (by simp) (by simp)
    exact h.values.setBuf_frame rfl rfl rfl rfl (h.values.unsaved i)
  simp only [Cache.release]
  split_ifs
  · refine ⟨⟨_, hs'.moveToFront (i := i) ?_⟩, hc, ⟨hw.1, hw.2, hw.3, hw.4, hw.5, hw.6⟩⟩
    rw [update_self]
    exact Buf.active_eq_true.2 (.inl hv)
  · exact ⟨⟨l, hs'⟩, hc, hw⟩

theorem readReturn (hpc : s.pc t = .bread i x)
    (hv : (s.buf i).valid) : CacheInv (s.goto t .ready) := by
  refine ⟨h.shape, ?_, h.values.goto .ready (by simp) (by simp)⟩
  have hc : Control (update s.buf i (s.buf i)) (update s.pc t .ready) := by
    refine h.control.move ?_ (fun j hj => ?_) (.inr ⟨rfl, id⟩) (by simp)
      (by simp) (by simp) (fun _ _ hl => hl) (fun u _ => .inl hv) ?_
    · simp [hpc]
    · simp [hpc]
    · simp [hpc, eq_comm]
  rwa [update_eq_self] at hc

theorem readDisk (hpc : s.pc t = .bread i x)
    (hv : (s.buf i).valid = false) (hd : (s.buf i).dirty = false) :
    CacheInv ((s.setBuf i { s.buf i with valid := true, data := s.disk (s.buf i).id }).goto t
    .ready) := by
  obtain ⟨l, hs⟩ := h.shape
  have hid := h.control.wants t i x (by rw [hpc]; rfl)
  have hl := h.control.busy t i (by rw [hpc]; rfl)
  have hpos := h.control.locked_pos hl
  refine ⟨⟨l, hs.keep rfl ?_⟩, ?_, ?_⟩
  · rw [Buf.active_eq_true.2 (.inr hpos)]
    exact Buf.active_eq_true.2 (.inl rfl)
  · refine h.control.move ?_ (fun j hj => ?_) (.inr ⟨rfl, fun _ => rfl⟩) (by simp)
      (by simp) (by simp) (fun _ _ hl => hl) (fun u _ => .inl rfl) ?_
    · simp [hpc]
    · simp [hpc]
    · simp [hpc, eq_comm]
  · refine Values.goto ?_ .ready (by simp) (by simp)
    refine h.values.setBuf (fun _ => rfl) (h.values.unsaved i) (fun _ _ => ?_) (by simp [hd])
    show s.disk (s.buf i).id = s.contents (s.buf i).id
    rw [hid, h.disk_eq_contents hpc hv]

theorem writeDisk (hpc : s.pc t = .bwrite i) :
    CacheInv ({ s.setBuf i { s.buf i with valid := true, dirty := false } with
      disk := update s.disk (s.buf i).id (s.buf i).data }.goto t .ready) := by
  obtain ⟨l, hs⟩ := h.shape
  have hd := h.values.writing t i hpc
  have hsaved := h.values.saved t i (by rw [hpc]; rfl)
  have hv := h.values.dirty i hd
  have hl := h.control.busy t i (by rw [hpc]; rfl)
  refine ⟨⟨l, hs.keep rfl ?_⟩, ?_, ?_⟩
  · rw [Buf.active_eq_true.2 (.inl hv)]
    exact Buf.active_eq_true.2 (.inl rfl)
  · refine h.control.move ?_ (fun j hj => ?_) (.inr ⟨rfl, fun _ => rfl⟩) (by simp)
      (by simp) (by simp) (fun _ _ hl => hl) (fun u _ => .inl rfl) (by simp [hpc])
    · simp [hpc]
    · simp [hpc]
  · exact h.values.diskWrite hd hsaved fun u hu => h.io_unique hl (by rw [hu]; rfl)

theorem step {a : CacheAct} (hok : Saved s (t, a)) (hn : s.next t a = some s') : CacheInv s' := by
  cases a with
  | bread x =>
    simp only [Cache.next, ite_none_right_eq_some, map_eq_some_iff, Prod.exists] at hn
    obtain ⟨hpc, i, b, hb, rfl⟩ := hn
    exact h.bread hpc hb
  | modify i d =>
    simp only [Cache.next, ite_none_right_eq_some, some.injEq] at hn
    obtain ⟨⟨hpc, hl⟩, rfl⟩ := hn
    exact h.modify hpc hl d
  | logWrite i =>
    simp only [Cache.next, ite_none_right_eq_some, some.injEq] at hn
    obtain ⟨⟨hpc, hl⟩, rfl⟩ := hn
    exact h.setDirty hpc hl
  | bwrite i =>
    simp only [Cache.next, ite_none_right_eq_some, some.injEq] at hn
    obtain ⟨⟨hpc, hl⟩, rfl⟩ := hn
    exact h.bwrite hpc hl
  | brelse i =>
    simp only [Cache.next, ite_none_right_eq_some, some.injEq] at hn
    obtain ⟨⟨hpc, hl⟩, rfl⟩ := hn
    exact h.brelse hpc hl (hok i rfl)
  | run =>
    simp only [Cache.next] at hn
    split at hn
    · cases hn
    · rename_i i x hpc
      simp only [ite_none_right_eq_some, some.injEq] at hn
      obtain ⟨hl, rfl⟩ := hn
      exact h.acquire hpc hl
    · rename_i i x hpc
      split_ifs at hn with hv
      · cases hn
        exact h.readReturn hpc hv
      · obtain ⟨s₁, h₁, rfl⟩ := map_eq_some_iff.1 hn
        have hv : (s.buf i).valid = false := by simpa using hv
        rcases Cache.iderw_cases h₁ with ⟨hd, rfl⟩ | ⟨-, hd, rfl⟩
        · rw [h.values.dirty i hd] at hv
          exact absurd hv (by decide)
        · exact h.readDisk hpc hv hd
    · rename_i i hpc
      obtain ⟨s₁, h₁, rfl⟩ := map_eq_some_iff.1 hn
      rcases Cache.iderw_cases h₁ with ⟨hd, rfl⟩ | ⟨-, hd, rfl⟩
      · exact h.writeDisk hpc
      · rw [h.values.writing t i hpc] at hd
        exact absurd hd (by decide)
    · rename_i i hpc
      cases hn
      exact h.release hpc

end

end CacheInv

theorem CacheInv.id_of_next [Fintype T] [DecidableEq T] {s s' : Cache T} (h : CacheInv s) {t : T}
    {a : CacheAct} (hn : s.next t a = some s') {i : Fin NBUF}
    (hi : 0 < (s.buf i).refcnt ∨ (s.buf i).dirty) : (s'.buf i).id = (s.buf i).id := by
  have hset : ∀ (j : Fin NBUF) (b : Buf T), b.id = (s.buf j).id →
      (update s.buf j b i).id = (s.buf i).id := fun j b hb => by
    by_cases hij : i = j
    · subst hij
      rwa [update_self]
    · rw [update_of_ne hij]
  cases a with
  | bread x =>
    simp only [Cache.next, ite_none_right_eq_some, map_eq_some_iff, Prod.exists] at hn
    obtain ⟨-, j, b, hb, rfl⟩ := hn
    obtain ⟨l, hs⟩ := h.shape
    rcases hs.bget_cases hb with ⟨-, rfl⟩ | ⟨-, h0, hd, rfl⟩
    · exact hset j _ rfl
    · have hij : i ≠ j := by
        rintro rfl
        simp [h0, hd] at hi
      rw [Cache.goto_buf, Cache.setBuf_buf, update_of_ne hij]
  | modify j | logWrite j | bwrite j | brelse j =>
    simp only [Cache.next, ite_none_right_eq_some, some.injEq] at hn
    obtain ⟨-, rfl⟩ := hn
    exact hset j _ rfl
  | run =>
    have hio : ∀ j s₁, s.iderw j = some s₁ → (s₁.buf i).id = (s.buf i).id := fun j s₁ h₁ => by
      rcases Cache.iderw_cases h₁ with ⟨-, rfl⟩ | ⟨-, -, rfl⟩ <;> exact hset j _ rfl
    simp only [Cache.next] at hn
    split at hn
    · cases hn
    · simp only [ite_none_right_eq_some, some.injEq] at hn
      obtain ⟨-, rfl⟩ := hn
      exact hset _ _ rfl
    · split_ifs at hn
      · cases hn
        rfl
      · obtain ⟨s₁, h₁, rfl⟩ := map_eq_some_iff.1 hn
        exact hio _ s₁ h₁
    · obtain ⟨s₁, h₁, rfl⟩ := map_eq_some_iff.1 hn
      exact hio _ s₁ h₁
    · cases hn
      simp only [Cache.goto_buf, Cache.release]
      split_ifs <;> exact hset _ _ rfl

/-- The step on which `bread(x)` returns leaves the caller with a locked buffer of block `x` that
holds `contents x`. -/
theorem CacheInv.bread_returns [Fintype T] [DecidableEq T] {s s' : Cache T} (h : CacheInv s) {t : T}
    {i : Fin NBUF} (hpc : s.pc t = .bread i x) (hn : s.next t .run = some s') :
    s'.pc t = .ready ∧ (s'.buf i).lock = some t ∧ (s'.buf i).id = x ∧
      (s'.buf i).data = s.contents x := by
  have hl := h.control.busy t i (by rw [hpc]; rfl)
  have hid := h.control.wants t i x (by rw [hpc]; rfl)
  have hsaved := h.values.saved t i (by rw [hpc]; rfl)
  simp only [Cache.next, hpc] at hn
  split_ifs at hn with hv
  · cases hn
    refine ⟨by simp, hl, hid, ?_⟩
    rw [Cache.goto_buf, h.values.value i hv hsaved, hid]
  · obtain ⟨s₁, h₁, rfl⟩ := map_eq_some_iff.1 hn
    have hv : (s.buf i).valid = false := by simpa using hv
    rcases Cache.iderw_cases h₁ with ⟨hd, rfl⟩ | ⟨-, -, rfl⟩
    · rw [h.values.dirty i hd] at hv
      exact absurd hv (by decide)
    · refine ⟨by simp, by simpa using hl, by simpa [Buf.id] using hid, ?_⟩
      simp [hid, h.disk_eq_contents hpc hv]

/-- Transparency of the buffer cache, in every state that threads reach which save their
modifications before they release a buffer:

* at most one valid or referenced buffer caches a given block;
* no step reassigns a referenced or dirty buffer to another block;
* the `prev` and `next` pointers are a ring through the head and every buffer exactly once;
* when `bread(x)` returns, the caller has locked a buffer of block `x` whose data is what the last
  holder that called `log_write` or `bwrite` on the block left there, or else what was on the
  disk. -/
theorem cache_transparent [Fintype T] [DecidableEq T] {s : Cache T}
    (h : (cacheSys T).ReachableVia Saved s) : (∀ i j, ((s.buf i).valid ∨ 0 < (s.buf i).refcnt) →
      ((s.buf j).valid ∨ 0 < (s.buf j).refcnt) → (s.buf i).id = (s.buf j).id → i = j) ∧
    (∀ t a s', s.next t a = some s' → ∀ i, 0 < (s.buf i).refcnt ∨ (s.buf i).dirty →
      (s'.buf i).id = (s.buf i).id) ∧ (∃ l, IsRing s.links l ∧ ∀ i, i ∈ l) ∧
    ∀ t i x s', s.pc t = .bread i x → s.next t .run = some s' →
      s'.pc t = .ready ∧ (s'.buf i).lock = some t ∧ (s'.buf i).id = x ∧
        (s'.buf i).data = s.contents x := by
  have inv : CacheInv s := by
    refine h.invariant ?_ fun s a s' inv hok hn => inv.step hok hn
    rintro _ ⟨disk, havedisk1, rfl⟩
    exact CacheInv.boot disk havedisk1
  obtain ⟨l, hs⟩ := inv.shape
  refine ⟨fun i j hi hj => ?_, fun t a s' hn i => inv.id_of_next hn, ⟨l, hs.ring, hs.mem⟩,
    fun t i x s' hpc hn => inv.bread_returns hpc hn⟩
  exact hs.unique i j (Buf.active_eq_true.2 hi) (Buf.active_eq_true.2 hj)

/-- `Saved`, decided. -/
def savedB (s : Cache T) (a : T × CacheAct) : Bool :=
  match a.2 with
  | .brelse i => !s.unsaved i
  | _ => true

theorem saved_of_savedB {s : Cache T} {a : T × CacheAct} (h : savedB s a) : Saved s a := by
  rintro i hi
  simpa [savedB, hi] using h

/-- The buffers in the order in which they are recycled. -/
def nthBuf (k : ℕ) : Fin NBUF := ⟨k % NBUF, Nat.mod_lt k (by decide)⟩

/-- Thread 0 reads block 5 of disk 1, fills it with 7, writes and releases it, and reads thirty
other blocks; then thread 1 reads it. -/
def evictThenRead : List (Fin 2 × CacheAct) :=
  [(0, .bread (1, 5)), (0, .run), (0, .run), (0, .modify (nthBuf 0) fun _ => 7),
    (0, .bwrite (nthBuf 0)), (0, .run),
    (0, .brelse (nthBuf 0)), (0, .run)] ++
  ((List.range 30).flatMap fun k =>
    [(0, .bread (1, UInt32.ofNat (100 + k))), (0, .run), (0, .run), (0, .brelse (nthBuf (k + 1))),
      (0, .run)]) ++
  [(1, .bread (1, 5)), (1, .run)]

/-- The buffer of the block has been recycled, and its contents come back into another one. -/
theorem cache_transparent_evictThenRead : ∃ s s' : Cache (Fin 2),
    (cacheSys (Fin 2)).ReachableVia Saved s ∧ (∀ i, (s.buf i).valid → (s.buf i).id ≠ (1, 5)) ∧
      s.next 1 .run = some s' ∧ s'.pc 1 = .ready ∧ (s'.buf (nthBuf 1)).id = (1, 5) ∧
      (s'.buf (nthBuf 1)).data = fun _ => 7 := by
  obtain ⟨s, hsaved, hpc, hevicted, hc, hn⟩ :
    ∃ s, (cacheSys (Fin 2)).ReachableVia (fun s a => savedB s a) s ∧
      s.pc 1 = .bread (nthBuf 1) (1, 5) ∧ (∀ i, (s.buf i).valid → (s.buf i).id ≠ (1, 5)) ∧
      (∀ o, s.contents (1, 5) o = 7) ∧ (s.next 1 .run).isSome :=
    Machine.Sys.exists_reachableVia evictThenRead
      (show (cacheSys (Fin 2)).init (.boot (Fin 2) (fun _ _ => 0) true) from ⟨_, _, rfl⟩)
      (by decide +kernel)
  obtain ⟨s', hn⟩ := isSome_iff_exists.1 hn
  have hr := hsaved.mono fun _ _ => saved_of_savedB
  obtain ⟨-, -, -, hret⟩ := cache_transparent hr
  obtain ⟨hready, -, hid, hdata⟩ := hret 1 (nthBuf 1) (1, 5) s' hpc hn
  exact ⟨s, s', hr, hevicted, hn, hready, hid, hdata.trans (funext hc)⟩

end Xv6.Bio
