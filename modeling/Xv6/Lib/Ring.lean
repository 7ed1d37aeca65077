import Mathlib.Data.List.Basic
import Mathlib.Logic.Function.Basic

/-!
# Circular doubly linked lists

A ring through a head node and nodes of type `α`, given by the two pointer maps.  The head is
`none`, so that following a pointer out of a list agrees with `head?` and `getLast?`.

* `IsRing k l`: read along `next` from the head, the nodes are `l`; `prev` is the way back.
* `IsRing.unlink`, `IsRing.pushFront`: the pointer updates of removal and insertion after the head.
* `IsRing.walk_next`, `IsRing.walk_prev`: a search loop along the pointers finds the first match in
  `l`, or in `l.reverse`.
-/

namespace LinkedRing

open Function List

variable {α : Type*}

/-- The pointer fields of the nodes; `none` is the head. -/
structure Links (α : Type*) where
  prev : Option α → Option α
  next : Option α → Option α

/-- The links are a ring through the head and the nodes `l`, in this order. -/
structure IsRing (k : Links α) (l : List α) : Prop where
  nodup : l.Nodup
  next_head : k.next none = l.head?
  prev_head : k.prev none = l.getLast?
  next_node : ∀ l₁ a l₂, l = l₁ ++ a :: l₂ → k.next (some a) = l₂.head?
  prev_node : ∀ l₁ a l₂, l = l₁ ++ a :: l₂ → k.prev (some a) = l₁.getLast?

theorem isRing_nil : IsRing (⟨fun _ => none, fun _ => none⟩ : Links α) [] where
  nodup := nodup_nil
  next_head := rfl
  prev_head := rfl
  next_node l₁ a l₂ h := by simp at h
  prev_node l₁ a l₂ h := by simp at h

/-! ## Search -/

/-- `for(b = x; b != &head; b = b->f) if(p(b)) return b`, for at most `fuel` nodes. -/
def walk (f : Option α → Option α) (p : α → Bool) : ℕ → Option α → Option α
  | _, none => none
  | 0, some _ => none
  | n + 1, some a => if p a then some a else walk f p n (f (some a))

section

variable {k : Links α} {l : List α} (h : IsRing k l) (p : α → Bool)

include h p

theorem IsRing.walk_next_suffix : ∀ (l₁ l₂ : List α) (n : ℕ), l = l₁ ++ l₂ → l₂.length ≤ n →
      walk k.next p n l₂.head? = l₂.find? p := by
  intro l₁ l₂
  induction l₂ generalizing l₁ with
  | nil => intro n _ _; cases n <;> rfl
  | cons a l₂ ih =>
    intro n hl hn
    obtain _ | n := n
    · simp at hn
    · rw [head?_cons, walk, find?_cons, h.next_node _ _ _ hl]
      cases p a with
      | true => rfl
      | false => exact ih (l₁ ++ [a]) n (by simp [hl]) (by simpa using hn)

theorem IsRing.walk_next {n : ℕ}
    (hn : l.length ≤ n) : walk k.next p n (k.next none) = l.find? p := by
  rw [h.next_head]
  exact h.walk_next_suffix p [] l n rfl hn

theorem IsRing.walk_prev_prefix : ∀ (r l₂ : List α) (n : ℕ), l = r.reverse ++ l₂ → r.length ≤ n →
      walk k.prev p n r.reverse.getLast? = r.find? p := by
  intro r
  induction r with
  | nil => intro l₂ n _ _; cases n <;> rfl
  | cons a r ih =>
    intro l₂ n hl hn
    obtain _ | n := n
    · simp at hn
    · have hl' : l = r.reverse ++ a :: l₂ := by simp [hl]
      rw [getLast?_reverse, head?_cons, walk, find?_cons, h.prev_node _ _ _ hl']
      cases p a with
      | true => rfl
      | false => exact ih (a :: l₂) n hl' (by simpa using hn)

theorem IsRing.walk_prev {n : ℕ}
    (hn : l.length ≤ n) : walk k.prev p n (k.prev none) = l.reverse.find? p := by
  have hr := h.walk_prev_prefix p l.reverse [] n (by simp) (by simpa using hn)
  rwa [reverse_reverse, ← h.prev_head] at hr

end

/-! ## Removal and insertion -/

theorem split_append {l₁ l₂ m₁ m₂ : List α} {b : α} (h : l₁ ++ l₂ = m₁ ++ b :: m₂) :
    (∃ c, l₁ = m₁ ++ b :: c ∧ m₂ = c ++ l₂) ∨ ∃ c, m₁ = l₁ ++ c ∧ l₂ = c ++ b :: m₂ := by
  obtain ⟨c, h₁, h₂⟩ | ⟨c, h₁, h₂⟩ := append_eq_append_iff.1 h
  · exact .inr ⟨c, h₁, h₂⟩
  · obtain ⟨rfl, rfl⟩ | ⟨d, rfl, rfl⟩ := cons_eq_append_iff.1 h₂
    · exact .inr ⟨[], by simpa using h₁.symm, rfl⟩
    · exact .inl ⟨d, h₁, rfl⟩

variable [DecidableEq α]

/-- `b->next->prev = b->prev; b->prev->next = b->next`. -/
def Links.unlink (k : Links α) (a : α) : Links α :=
  let prev := update k.prev (k.next (some a)) (k.prev (some a))
  ⟨prev, update k.next (prev (some a)) (k.next (some a))⟩

/-- `b->next = head.next; b->prev = &head; head.next->prev = b; head.next = b`. -/
@[simp] def Links.pushFront (k : Links α) (a : α) : Links α :=
  let next := update k.next (some a) (k.next none)
  let prev := update k.prev (some a) none
  ⟨update prev (next none) (some a), update next none (some a)⟩

theorem IsRing.pushFront {k : Links α} {l : List α} (h : IsRing k l) {a : α} (ha : a ∉ l) :
    IsRing (k.pushFront a) (a :: l) where
  nodup := nodup_cons.2 ⟨ha, h.nodup⟩
  next_head := by simp
  prev_head := by
    cases l with
    | nil => simp [h.next_head]
    | cons b l => simp [h.next_head, h.prev_head]
  next_node l₁ b l₂ hl := by
    cases l₁ with
    | nil =>
      obtain ⟨rfl, rfl⟩ := cons.inj hl
      simp [h.next_head]
    | cons c l₁ =>
      simp only [cons_append, cons.injEq] at hl
      obtain ⟨rfl, hl⟩ := hl
      have hb : b ≠ a := by rintro rfl; exact ha (by simp [hl])
      simp [hb, h.next_node _ _ _ hl]
  prev_node l₁ b l₂ hl := by
    cases l₁ with
    | nil =>
      obtain ⟨rfl, rfl⟩ := cons.inj hl
      have hh : l.head? ≠ some a := fun hh => ha (mem_of_mem_head? hh)
      simp [h.next_head, hh.symm]
    | cons c l₁ =>
      simp only [cons_append, cons.injEq] at hl
      obtain ⟨rfl, hl⟩ := hl
      have hb : b ≠ a := by rintro rfl; exact ha (by simp [hl])
      cases l₁ with
      | nil =>
        have hh : l.head? = some b := by simp [hl]
        simp [h.next_head, hh]
      | cons d l₁ =>
        have hd : b ≠ d := by
          rintro rfl
          have := h.nodup
          simp [hl] at this
        have hh : l.head? = some d := by simp [hl]
        simp [h.next_head, hh, hb, hd, h.prev_node _ _ _ hl]

theorem IsRing.unlink {k : Links α} {l₁ l₂ : List α} {a : α} (h : IsRing k (l₁ ++ a :: l₂)) :
    IsRing (k.unlink a) (l₁ ++ l₂) := by
  have hn : k.next (some a) = l₂.head? := h.next_node _ _ _ rfl
  have hp : k.prev (some a) = l₁.getLast? := h.prev_node _ _ _ rfl
  obtain ⟨hd₁, ⟨ha₂, hd₂⟩, hdis⟩ : l₁.Nodup ∧ (a ∉ l₂ ∧ l₂.Nodup) ∧ ∀ x ∈ l₁, x ∉ l₂ := by
    have hnodup := h.nodup
    rw [nodup_append, nodup_cons] at hnodup
    exact ⟨hnodup.1, hnodup.2.1, fun x h₁ h₂ => hnodup.2.2 x h₁ x (by simp [h₂]) rfl⟩
  have hlast : ∀ b ∈ l₂, some b ≠ l₁.getLast? := fun b hb hl =>
    hdis b (mem_of_mem_getLast? hl.symm) hb
  have hfirst : ∀ b ∈ l₁, some b ≠ l₂.head? := fun b hb hl =>
    hdis b hb (mem_of_mem_head? hl.symm)
  have hnext : (k.unlink a).next = update k.next l₁.getLast? l₂.head? := by
    have : some a ≠ l₂.head? := fun hh => ha₂ (mem_of_mem_head? hh.symm)
    simp [Links.unlink, hn, hp, this]
  have hprev : (k.unlink a).prev = update k.prev l₂.head? l₁.getLast? := by
    simp [Links.unlink, hn, hp]
  refine ⟨nodup_append.2 ⟨hd₁, hd₂, fun x h₁ y h₂ e => hdis x h₁ (e ▸ h₂)⟩, ?_, ?_, ?_, ?_⟩
  · rw [hnext]
    obtain rfl | ⟨m, x, rfl⟩ := l₁.eq_nil_or_concat
    · simp
    · simp [h.next_head]
  · rw [hprev]
    cases l₂ with
    | nil => simp
    | cons x l₂ => simp [h.prev_head]
  · intro m₁ b m₂ hm
    rw [hnext]
    obtain ⟨c, rfl, rfl⟩ | ⟨c, rfl, rfl⟩ := split_append hm
    · have hk := h.next_node m₁ b (c ++ a :: l₂) (by simp)
      obtain rfl | ⟨c, x, rfl⟩ := c.eq_nil_or_concat
      · rw [getLast?_append_of_ne_nil _ (by simp), getLast?_singleton,
          update_self, nil_append]
      · have hx : b ≠ x := by
          rintro rfl
          simp [nodup_append] at hd₁
        have hl : (m₁ ++ b :: c.concat x).getLast? = some x := by simp [getLast?_cons]
        rw [hl, update_of_ne (by simpa using hx), hk]
        simp
    · rw [update_of_ne (hlast b (by simp)), h.next_node (l₁ ++ a :: c) b m₂ (by simp)]
  · intro m₁ b m₂ hm
    rw [hprev]
    obtain ⟨c, rfl, rfl⟩ | ⟨c, rfl, rfl⟩ := split_append hm
    · rw [update_of_ne (hfirst b (by simp)), h.prev_node m₁ b (c ++ a :: l₂) (by simp)]
    · have hk := h.prev_node (l₁ ++ a :: c) b m₂ (by simp)
      cases c with
      | nil => simp
      | cons x c =>
        have hx : b ≠ x := by
          rintro rfl
          simp at hd₂
        simp [hx, hk]

theorem IsRing.foldl_pushFront {xs : List α} (hx : xs.Nodup) : ∀ {k : Links α} {l : List α},
    IsRing k l → (∀ a ∈ xs, a ∉ l) → IsRing (xs.foldl Links.pushFront k) (xs.reverse ++ l) := by
  induction xs with
  | nil => exact fun h _ => h
  | cons a xs ih =>
    intro k l h hd
    obtain ⟨ha, hx⟩ := nodup_cons.1 hx
    rw [foldl_cons, reverse_cons, append_assoc, singleton_append]
    refine ih hx (h.pushFront (hd a (by simp))) fun b hb hmem => ?_
    rcases mem_cons.1 hmem with rfl | hm
    · exact ha hb
    · exact hd b (by simp [hb]) hm

theorem IsRing.moveToFront {k : Links α} {l : List α} (h : IsRing k l) {a : α} (ha : a ∈ l) :
    IsRing ((k.unlink a).pushFront a) (a :: l.erase a) := by
  obtain ⟨l₁, l₂, ha₁, rfl, he⟩ := exists_erase_eq ha
  rw [he]
  refine h.unlink.pushFront fun hm => ?_
  have hnodup := h.nodup
  rcases mem_append.1 hm with hm | hm <;> simp [nodup_append, hm] at hnodup ha₁

end LinkedRing
