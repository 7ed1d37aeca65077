import Xv6.Bio.Cache

/-!
# The invariant of the buffer cache

Three parts:

* `Shape`: the list through the buffers, and which buffer stands for which block.
* `Control`: reference counts, sleep locks and the threads' control points.
* `Values`: buffer data, the disk and the contents a reader is to see.
-/

namespace Xv6.Bio

open LinkedRing Tally Function List

variable {T : Type} {i : Fin NBUF} {b : Buf T}

attribute [local simp] Cache.setBuf Cache.setDirty

/-! ## The invariant -/

/-- The buffer caches a block: it is valid or in use. -/
def Buf.active (b : Buf T) : Bool := b.valid || decide (0 < b.refcnt)

/-- The thread counts in the buffer's `refcnt` without holding its lock. -/
def CachePc.uses (i : Fin NBUF) : CachePc → Bool
  | bget j _ | brelse j => j == i
  | _ => false

/-- The buffer and block of a `bread` under way. -/
@[simp] def CachePc.request : CachePc → Option (Fin NBUF × BlockId)
  | bget i x | bread i x => some (i, x)
  | _ => none

/-- The buffer a thread is transferring. -/
def CachePc.io : CachePc → Option (Fin NBUF)
  | bread i _ | bwrite i => some i
  | _ => none

/-- All buffers start as block (0, 0): an active one comes before the inactive ones, so that `bget`
finds it. -/
structure Shape (buf : Fin NBUF → Buf T) (k : Links (Fin NBUF)) (l : List (Fin NBUF)) : Prop where
  ring : IsRing k l
  mem : ∀ i, i ∈ l
  unique : ∀ i j, (buf i).active → (buf j).active → (buf i).id = (buf j).id → i = j
  order : l.Pairwise fun i j => (buf i).active = false → (buf j).active →
    (buf i).id ≠ (buf j).id

/-- Reference counts, locks and the threads' control points agree. -/
structure Control [Fintype T] (buf : Fin NBUF → Buf T) (pc : T → CachePc) : Prop where
  refcnt : ∀ i, (buf i).refcnt = tally (CachePc.uses i) pc + (buf i).lock.isSome.toNat
  wants : ∀ t i x, (pc t).request = some (i, x) → (buf i).id = x
  busy : ∀ t i, (pc t).io = some i → (buf i).lock = some t
  filled : ∀ t i, (buf i).lock = some t → (buf i).valid ∨ ∃ x, pc t = .bread i x
  released : ∀ t i, pc t = .brelse i → (buf i).valid

/-- Buffers, disk and `contents` agree. -/
structure Values (s : Cache T) : Prop where
  dirty : ∀ i, (s.buf i).dirty → (s.buf i).valid
  unsaved : ∀ i, s.unsaved i → (s.buf i).lock.isSome
  writing : ∀ t i, s.pc t = .bwrite i → (s.buf i).dirty
  saved : ∀ t i, (s.pc t).io = some i → s.unsaved i = false
  value : ∀ i, (s.buf i).valid → s.unsaved i = false → (s.buf i).data = s.contents (s.buf i).id
  home : ∀ x, s.contents x = s.disk x ∨ ∃ i, (s.buf i).id = x ∧ (s.buf i).dirty

theorem Buf.active_eq_true : b.active ↔ b.valid ∨ 0 < b.refcnt := by
  simp [active]

/-! ## The list and the blocks -/

namespace Shape

variable {buf buf' : Fin NBUF → Buf T} {k : Links (Fin NBUF)} {l : List (Fin NBUF)}

section

variable (h : Shape buf k l)

include h

theorem congr (hid : ∀ i, (buf' i).id = (buf i).id)
    (hact : ∀ i, (buf' i).active = (buf i).active) : Shape buf' k l where
  ring := h.ring
  mem := h.mem
  unique i j := by rw [hid, hid, hact, hact]; exact h.unique i j
  order := by simpa only [hid, hact] using h.order

theorem keep (hid : b.id = (buf i).id)
    (hact : b.active = (buf i).active) : Shape (update buf i b) k l := by
  refine h.congr (fun j => ?_) fun j => ?_ <;>
  · by_cases hj : j = i
    · subst hj
      simpa
    · simp [hj]

theorem unique_update (hb : ∀ j, j ≠ i → (buf j).active → (buf j).id ≠ b.id) (j m : Fin NBUF)
    (hj : (update buf i b j).active) (hm : (update buf i b m).active)
    (hjm : (update buf i b j).id = (update buf i b m).id) : j = m := by
  by_cases hji : j = i <;> by_cases hmi : m = i
  · rw [hji, hmi]
  · subst hji
    rw [update_self, update_of_ne hmi] at hjm
    rw [update_of_ne hmi] at hm
    exact absurd hjm.symm (hb m hmi hm)
  · subst hmi
    rw [update_self, update_of_ne hji] at hjm
    rw [update_of_ne hji] at hj
    exact absurd hjm (hb j hji hj)
  · simp only [update_of_ne hji, update_of_ne hmi] at hj hm hjm
    exact h.unique j m hj hm hjm

theorem activate {x : BlockId}
    (hi : l.find? (fun i => (buf i).id == x) = some i) (hid : b.id = x) (hb : b.active) :
    Shape (update buf i b) k l := by
  obtain ⟨hx, as, bs, rfl, has⟩ := find?_eq_some_iff_append.1 hi
  replace hx : (buf i).id = x := by simpa using hx
  replace has : ∀ a ∈ as, (buf a).id ≠ x := by simpa using has
  by_cases hact : (buf i).active
  · exact h.keep (hid.trans hx.symm) (hb.trans hact.symm)
  replace hact : (buf i).active = false := by simpa using hact
  have hord := h.order
  have hnodup := h.ring.nodup
  simp only [pairwise_append, pairwise_cons, mem_cons] at hord
  simp only [nodup_append, nodup_cons, mem_cons] at hnodup
  -- an active buffer of the block would stand behind the inactive buffer `i`
  have hnone : ∀ j, j ≠ i → (buf j).active → (buf j).id ≠ x := fun j hj ha hjx => by
    rcases mem_append.1 (h.mem j) with hm | hm
    · exact has j hm hjx
    · exact hord.2.1.1 j ((mem_cons.1 hm).resolve_left hj) hact ha (hx.trans hjx.symm)
  refine ⟨h.ring, h.mem, h.unique_update (by rwa [hid]), ?_⟩
  · simp only [pairwise_append, pairwise_cons, mem_cons]
    have hne : ∀ a ∈ bs, a ≠ i := fun a ha e => hnodup.2.1.1 (e ▸ ha)
    have hne' : ∀ a ∈ as, a ≠ i := fun a ha e => hnodup.2.2 a ha i (.inl rfl) e
    refine ⟨hord.1.imp_of_mem fun ha hb hab => ?_, ⟨fun a ha => ?_, ?_⟩, fun a ha c hc => ?_⟩
    · simpa [hne' _ ha, hne' _ hb] using hab
    · simp [hb]
    · exact hord.2.1.2.imp_of_mem fun ha hb hab => by simpa [hne _ ha, hne _ hb] using hab
    · rw [update_of_ne (hne' a ha)]
      by_cases hci : c = i
      · subst hci
        rw [update_self, hid]
        exact fun _ _ => has a ha
      · rw [update_of_ne hci]
        exact hord.2.2 a ha c hc

theorem recycle {x : BlockId}
    (hx : ∀ j, (buf j).id ≠ x) (hid : b.id = x) (hb : b.active) : Shape (update buf i b) k l := by
  refine ⟨h.ring, h.mem, h.unique_update fun j _ _ => hid ▸ hx j, h.order.imp fun {j m} hab => ?_⟩
  by_cases hji : j = i
  · subst hji
    rw [update_self, hb]
    exact fun hf => absurd hf (by decide)
  · rw [update_of_ne hji]
    by_cases hmi : m = i
    · subst hmi
      rw [update_self, hid]
      exact fun _ _ => hx j
    · rwa [update_of_ne hmi]

theorem moveToFront (hi : (buf i).active) :
    Shape buf ((k.unlink i).pushFront i) (i :: l.erase i) where
  ring := h.ring.moveToFront (h.mem i)
  mem j := by
    by_cases hj : j = i
    · simp [hj]
    · simp [mem_erase_of_ne hj, h.mem j]
  unique := h.unique
  order := pairwise_cons.2
    ⟨fun j _ hf => by simp [hi] at hf, h.order.sublist erase_sublist⟩

end

end Shape

/-! ## Reference counts and locks -/

namespace Control

variable [Fintype T] {buf : Fin NBUF → Buf T} {pc : T → CachePc}

theorem idle (h : Control buf pc) (h0 : (buf i).refcnt = 0) :
    (buf i).lock = none ∧ (∀ t x, (pc t).request ≠ some (i, x)) ∧ ∀ t, pc t ≠ .brelse i := by
  have hc := h.refcnt i
  have hl : (buf i).lock = none := by
    cases hl : (buf i).lock with
    | none => rfl
    | some u =>
      simp only [hl, Option.isSome_some, Bool.toNat_true] at hc
      omega
  have hu := eq_of_tally_eq_zero (p := CachePc.uses i) (f := pc) (by omega)
  refine ⟨hl, fun t x hr => ?_, fun t hpc => by simpa [hpc, CachePc.uses] using hu t⟩
  have hu := hu t
  cases hpc : pc t with
  | bget j y =>
    simp_all [CachePc.uses]
  | bread j y =>
    have hb := h.busy t j (by rw [hpc]; rfl)
    simp_all
  | _ => simp [hpc] at hr

theorem setBuf (h : Control buf pc) (hr : b.refcnt = (buf i).refcnt)
    (hid : b.id = (buf i).id) (hl : b.lock = (buf i).lock) (hv : b.valid = (buf i).valid) :
    Control (update buf i b) pc := by
  have hbuf : ∀ j, (update buf i b j).refcnt = (buf j).refcnt ∧
      (update buf i b j).id = (buf j).id ∧ (update buf i b j).lock = (buf j).lock ∧
      (update buf i b j).valid = (buf j).valid :=
    (forall_update_iff buf fun j b => b.refcnt = (buf j).refcnt ∧ b.id = (buf j).id ∧
      b.lock = (buf j).lock ∧ b.valid = (buf j).valid).2 ⟨⟨hr, hid, hl, hv⟩,
      fun _ _ => ⟨rfl, rfl, rfl, rfl⟩⟩
  refine ⟨fun j => ?_, fun t j x => ?_, fun t j => ?_, fun t j => ?_, fun t j => ?_⟩ <;>
    obtain ⟨hr, hid, hl, hv⟩ := hbuf j
  · rw [hr, hl]
    exact h.refcnt j
  · rw [hid]
    exact h.wants t j x
  · rw [hl]
    exact h.busy t j
  · rw [hl, hv]
    exact h.filled t j
  · rw [hv]
    exact h.released t j

theorem locked_pos (h : Control buf pc) {t : T} (hl : (buf i).lock = some t) :
    0 < (buf i).refcnt := by
  have hc := h.refcnt i
  simp only [hl, Option.isSome_some, Bool.toNat_true] at hc
  omega

variable [DecidableEq T]

theorem filled_update (h : Control buf pc) {t : T} (p : CachePc)
    (ht : ∀ x, pc t ≠ .bread i x) {u : T} (hl : (buf i).lock = some u) :
    (buf i).valid ∨ ∃ x, update pc t p u = .bread i x := by
  refine (h.filled u i hl).imp_right fun ⟨x, hx⟩ => ⟨x, ?_⟩
  rw [update_of_ne, hx]
  rintro rfl
  exact ht x hx

theorem move (h : Control buf pc) {t : T} {p : CachePc}
    (hcount : b.refcnt + ((pc t).uses i).toNat + (buf i).lock.isSome.toNat =
      (buf i).refcnt + (p.uses i).toNat + b.lock.isSome.toNat)
    (hother : ∀ j, j ≠ i → p.uses j = (pc t).uses j)
    (hid : (buf i).refcnt = 0 ∨ (b.id = (buf i).id ∧ ((buf i).valid → b.valid)))
    (hreq : ∀ j x, p.request = some (j, x) → j = i ∧ b.id = x)
    (hio : ∀ j, p.io = some j → j = i ∧ b.lock = some t)
    (hrel : ∀ j, p = .brelse j → j = i ∧ b.valid)
    (hlock : ∀ u, u ≠ t → (buf i).lock = some u → b.lock = some u)
    (hfill : ∀ u, b.lock = some u → b.valid ∨ ∃ x, update pc t p u = .bread i x)
    (hleave : ∀ j x, pc t = .bread j x → j = i) : Control (update buf i b) (update pc t p) where
  refcnt j := by
    have hu := tally_update (CachePc.uses j) pc t p
    have hj := h.refcnt j
    by_cases hji : j = i
    · subst hji
      rw [update_self]
      omega
    · rw [update_of_ne hji, hj]
      rw [hother j hji] at hu
      omega
  wants u j x hr := by
    by_cases hut : u = t
    · subst hut
      rw [update_self] at hr
      obtain ⟨rfl, hx⟩ := hreq j x hr
      rwa [update_self]
    · rw [update_of_ne hut] at hr
      by_cases hji : j = i
      · subst hji
        rcases hid with h0 | hid
        · exact absurd hr ((h.idle h0).2.1 u x)
        · rw [update_self, hid.1]
          exact h.wants u j x hr
      · rw [update_of_ne hji]
        exact h.wants u j x hr
  busy u j hr := by
    by_cases hut : u = t
    · subst hut
      rw [update_self] at hr
      obtain ⟨rfl, hx⟩ := hio j hr
      rwa [update_self]
    · rw [update_of_ne hut] at hr
      have hb := h.busy u j hr
      by_cases hji : j = i
      · subst hji
        rw [update_self]
        exact hlock u hut hb
      · rwa [update_of_ne hji]
  filled u j hl := by
    by_cases hji : j = i
    · subst hji
      rw [update_self] at hl ⊢
      exact hfill u hl
    · rw [update_of_ne hji] at hl ⊢
      refine (h.filled u j hl).imp_right fun ⟨x, hx⟩ => ⟨x, ?_⟩
      rw [update_of_ne, hx]
      rintro rfl
      exact hji (hleave j x hx)
  released u j hr := by
    by_cases hut : u = t
    · subst hut
      rw [update_self] at hr
      obtain ⟨rfl, hv⟩ := hrel j hr
      rwa [update_self]
    · rw [update_of_ne hut] at hr
      by_cases hji : j = i
      · subst hji
        rcases hid with h0 | hid
        · exact absurd hr ((h.idle h0).2.2 u)
        · rw [update_self]
          exact hid.2 (h.released u j hr)
      · rw [update_of_ne hji]
        exact h.released u j hr

end Control

/-! ## Contents -/

namespace Values

variable {s : Cache T} {i : Fin NBUF} {b : Buf T}

theorem setBuf (h : Values s) (hdirty : b.dirty → b.valid) (hunsaved : s.unsaved i → b.lock.isSome)
    (hvalue : b.valid → s.unsaved i = false → b.data = s.contents b.id)
    (hkeep : (s.buf i).dirty → b.dirty ∧ b.id = (s.buf i).id) : Values (s.setBuf i b) where
  dirty := (forall_update_iff s.buf fun _ b => b.dirty → b.valid).2
    ⟨hdirty, fun j _ => h.dirty j⟩
  unsaved := (forall_update_iff s.buf fun j b => s.unsaved j → b.lock.isSome).2
    ⟨hunsaved, fun j _ => h.unsaved j⟩
  writing u j hu := by
    have hd := h.writing u j hu
    by_cases hj : j = i
    · subst hj
      rw [Cache.setBuf_buf, update_self, (hkeep hd).1]
    · rw [Cache.setBuf_buf, update_of_ne hj, hd]
  saved := h.saved
  value := (forall_update_iff s.buf fun j b => b.valid → s.unsaved j = false →
      b.data = s.contents b.id).2
    ⟨hvalue, fun j _ => h.value j⟩
  home x := by
    refine (h.home x).imp_right fun ⟨j, hj, hd⟩ => ⟨j, ?_⟩
    by_cases hji : j = i
    · subst hji
      rw [Cache.setBuf_buf, update_self, (hkeep hd).1, (hkeep hd).2]
      exact ⟨hj, rfl⟩
    · rw [Cache.setBuf_buf, update_of_ne hji]
      exact ⟨hj, hd⟩

theorem setBuf_frame (h : Values s) (hv : b.valid = (s.buf i).valid)
    (hd : b.dirty = (s.buf i).dirty) (hdata : b.data = (s.buf i).data) (hid : b.id = (s.buf i).id)
    (hl : s.unsaved i → b.lock.isSome) : Values (s.setBuf i b) :=
  h.setBuf (by rw [hv, hd]; exact h.dirty i) hl (by rw [hv, hdata, hid]; exact h.value i)
    fun hdi => ⟨hd.trans hdi, hid⟩

theorem modify (h : Values s) (hl : (s.buf i).lock.isSome) (hw : ∀ u, (s.pc u).io ≠ some i)
    (d : Data) :
    Values { s.setBuf i { s.buf i with data := d } with unsaved := update s.unsaved i true } where
  dirty := (forall_update_iff s.buf fun _ b => b.dirty → b.valid).2
    ⟨h.dirty i, fun j _ => h.dirty j⟩
  unsaved j hj := by
    by_cases hji : j = i
    · subst hji
      simpa using hl
    · simp only [update_of_ne hji] at hj
      simpa [hji] using h.unsaved j hj
  writing := by
    refine fun u => (forall_update_iff s.buf fun j b => s.pc u = .bwrite j → b.dirty).2 ?_
    exact ⟨h.writing u i, fun j _ => h.writing u j⟩
  saved u j hu := by
    have hji : j ≠ i := by
      rintro rfl
      exact hw u hu
    simpa [hji] using h.saved u j hu
  value j hv hsaved := by
    by_cases hji : j = i
    · subst hji
      simp at hsaved
    · simp only [update_of_ne hji] at hsaved
      simp only [Cache.setBuf, update_of_ne hji] at hv ⊢
      exact h.value j hv hsaved
  home x := by
    refine (h.home x).imp_right fun ⟨j, hj, hd⟩ => ⟨j, ?_⟩
    by_cases hji : j = i
    · subst hji
      simpa [Buf.id] using ⟨hj, hd⟩
    · simpa [hji] using ⟨hj, hd⟩

theorem setDirty (h : Values s) (hv : (s.buf i).valid)
    (huniq : ∀ j, (s.buf j).valid → (s.buf j).id = (s.buf i).id → j = i) :
    Values (s.setDirty i) where
  dirty := (forall_update_iff s.buf fun _ b => b.dirty → b.valid).2
    ⟨fun _ => hv, fun j _ => h.dirty j⟩
  unsaved j hj := by
    by_cases hji : j = i
    · subst hji
      simp at hj
    · simp only [Cache.setDirty, update_of_ne hji] at hj
      simpa [hji] using h.unsaved j hj
  writing := by
    refine fun u => (forall_update_iff s.buf fun j b => s.pc u = .bwrite j → b.dirty).2 ?_
    exact ⟨fun _ => rfl, fun j _ => h.writing u j⟩
  saved u j hu := by
    simp only [Cache.setDirty, update_apply]
    split_ifs
    · rfl
    · exact h.saved u j hu
  value j hvj hsaved := by
    by_cases hji : j = i
    · subst hji
      simp [Buf.id]
    · simp only [Cache.setDirty, Cache.setBuf, update_of_ne hji] at hvj hsaved ⊢
      rw [update_of_ne fun hid => hji (huniq j hvj hid)]
      exact h.value j hvj hsaved
  home x := by
    by_cases hx : x = (s.buf i).id
    · exact .inr ⟨i, by simp [Buf.id, hx]⟩
    · simp only [Cache.setDirty, Cache.setBuf, update_of_ne hx]
      refine (h.home x).imp_right fun ⟨j, hj, hd⟩ => ⟨j, ?_⟩
      have hji : j ≠ i := by
        rintro rfl
        exact hx hj.symm
      simpa [hji] using ⟨hj, hd⟩

variable [DecidableEq T] {t : T}

theorem goto (h : Values s) (p : CachePc) (hw : ∀ j, p = .bwrite j → (s.buf j).dirty)
    (hio : ∀ j, p.io = some j → s.unsaved j = false) : Values (s.goto t p) where
  dirty := h.dirty
  unsaved := h.unsaved
  writing u j hu := by
    simp only [Cache.goto, update_apply] at hu
    split_ifs at hu
    · exact hw j hu
    · exact h.writing u j hu
  saved u j hu := by
    simp only [Cache.goto, update_apply] at hu
    split_ifs at hu
    · exact hio j hu
    · exact h.saved u j hu
  value := h.value
  home := h.home

theorem diskWrite (h : Values s) (hd : (s.buf i).dirty) (hsaved : s.unsaved i = false)
    (hw : ∀ u, s.pc u = .bwrite i → u = t) :
    Values ({ s.setBuf i { s.buf i with valid := true, dirty := false } with
      disk := update s.disk (s.buf i).id (s.buf i).data }.goto t .ready) where
  dirty := (forall_update_iff s.buf fun _ b => b.dirty → b.valid).2
    ⟨fun _ => rfl, fun j _ => h.dirty j⟩
  unsaved := (forall_update_iff s.buf fun j b => s.unsaved j → b.lock.isSome).2
    ⟨h.unsaved i, fun j _ => h.unsaved j⟩
  writing u j hu := by
    simp only [Cache.goto, Cache.setBuf, update_apply] at hu
    split_ifs at hu with hut
    have hji : j ≠ i := by
      rintro rfl
      exact hut (hw u hu)
    simpa [Cache.goto, hji] using h.writing u j hu
  saved u j hu := by
    simp only [Cache.goto, Cache.setBuf, update_apply] at hu
    split_ifs at hu
    · simp [CachePc.io] at hu
    · exact h.saved u j hu
  value := (forall_update_iff s.buf fun j b => b.valid → s.unsaved j = false →
      b.data = s.contents b.id).2
    ⟨fun _ => h.value i (h.dirty i hd), fun j _ => h.value j⟩
  home x := by
    simp only [Cache.goto, Cache.setBuf]
    by_cases hx : x = (s.buf i).id
    · subst hx
      left
      rw [update_self, h.value i (h.dirty i hd) hsaved]
    · rw [update_of_ne hx]
      refine (h.home x).imp_right fun ⟨j, hj, hdj⟩ => ⟨j, ?_⟩
      have hji : j ≠ i := by
        rintro rfl
        exact hx hj.symm
      simpa [hji] using ⟨hj, hdj⟩

end Values

end Xv6.Bio
