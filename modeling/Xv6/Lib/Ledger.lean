import Mathlib.Order.Basic
import Mathlib.Data.List.Nodup

/-!
# Tokens that are issued in order and retired once

Owners hold tokens.  A new token is always larger than every token issued before; a token has at
most one owner, and once retired it has none.  `Ledger` says this of one state.
-/

variable {O α : Type*}

/-- Every token is below `fresh`, has at most one owner, and is retired at most once and then not
owned. -/
structure Ledger [LT α] (owns : O → α → Prop) (fresh : α) (retired : List α) : Prop where
  lt : ∀ o a, owns o a → a < fresh
  unique : ∀ o o' a, owns o a → owns o' a → o = o'
  live : ∀ o a, owns o a → a ∉ retired
  retiredLt : ∀ a ∈ retired, a < fresh
  nodup : retired.Nodup

namespace Ledger

variable [Preorder α] {owns owns' : O → α → Prop} {fresh fresh' : α} {retired : List α}

section

variable (h : Ledger owns fresh retired)

include h

theorem mono (hsub : ∀ o a, owns' o a → owns o a) : Ledger owns' fresh retired where
  lt o a ha := h.lt o a (hsub o a ha)
  unique o o' a ha ha' := h.unique o o' a (hsub o a ha) (hsub o' a ha')
  live o a ha := h.live o a (hsub o a ha)
  retiredLt := h.retiredLt
  nodup := h.nodup

theorem issue (hf : fresh < fresh') (o₀ : O)
    (hsub : ∀ o a, owns' o a → owns o a ∨ (o = o₀ ∧ a = fresh)) : Ledger owns' fresh' retired where
  lt o a ha := by
    rcases hsub o a ha with ha | ⟨-, rfl⟩
    · exact (h.lt o a ha).trans hf
    · exact hf
  unique o o' a ha ha' := by
    rcases hsub o a ha with ha | ⟨rfl, rfl⟩ <;> rcases hsub o' _ ha' with ha' | ⟨rfl, e⟩
    · exact h.unique o o' a ha ha'
    · exact absurd (h.lt o a ha) (e ▸ lt_irrefl _)
    · exact absurd (h.lt o' _ ha') (lt_irrefl _)
    · rfl
  live o a ha := by
    rcases hsub o a ha with ha | ⟨-, rfl⟩
    · exact h.live o a ha
    · exact fun hr => lt_irrefl _ (h.retiredLt _ hr)
  retiredLt a ha := (h.retiredLt a ha).trans hf
  nodup := h.nodup

theorem retire {l : List α} (hl : l.Nodup)
    (hown : ∀ a ∈ l, ∃ o, owns o a) (hsub : ∀ o a, owns' o a → owns o a ∧ a ∉ l) :
    Ledger owns' fresh (l ++ retired) where
  lt o a ha := h.lt o a (hsub o a ha).1
  unique o o' a ha ha' := h.unique o o' a (hsub o a ha).1 (hsub o' a ha').1
  live o a ha hr := by
    rcases List.mem_append.1 hr with hr | hr
    · exact (hsub o a ha).2 hr
    · exact h.live o a (hsub o a ha).1 hr
  retiredLt a ha := by
    rcases List.mem_append.1 ha with ha | ha
    · obtain ⟨o, ho⟩ := hown a ha
      exact h.lt o a ho
    · exact h.retiredLt a ha
  nodup := by
    refine List.nodup_append.2 ⟨hl, h.nodup, ?_⟩
    rintro a ha b hb rfl
    obtain ⟨o, ho⟩ := hown a ha
    exact h.live o a ho hb

/-- The owners in `gone` give up all they hold. -/
theorem retireOwners {l : List α} (hl : l.Nodup) (gone : O → Prop)
    (hown : ∀ a ∈ l, ∃ o, gone o ∧ owns o a) (hsub : ∀ o a, owns' o a → owns o a ∧ ¬ gone o) :
    Ledger owns' fresh (l ++ retired) := by
  refine h.retire hl (fun a ha => (hown a ha).imp fun _ ho => ho.2) fun o a ha =>
    ⟨(hsub o a ha).1, fun hm => ?_⟩
  obtain ⟨o', hg, ho'⟩ := hown a hm
  exact (hsub o a ha).2 (h.unique o o' a (hsub o a ha).1 ho' ▸ hg)

end

end Ledger
