import Mathlib.Tactic.SplitIfs
import Mathlib.Tactic.TypeStar

/-!
# Programs that may fail

A program `m : ExceptT ε (StateM σ) α` changes a state and returns a result, or stops with an error.
`Sat E Q (m s)`: from the state `s` it ends with a result and a state that satisfy `Q`, or with an
error that `E` allows.  `Yields` is the like for functions whose result is optional.
-/

namespace Fallible

variable {ε σ α β : Type}

/-- The result satisfies `Q`, and an error satisfies `E`. -/
def Sat (E : ε → σ → Prop) (Q : α → σ → Prop) : Except ε α × σ → Prop
  | (.ok a, s) => Q a s
  | (.error e, s) => E e s

/-- The program ends without an error, with a result that satisfies `Q`. -/
abbrev Total (Q : α → σ → Prop) (x : Except ε α × σ) : Prop := Sat (fun _ _ => False) Q x

/-! ## Running a program -/

section run

variable {m : ExceptT ε (StateM σ) α} {f : α → ExceptT ε (StateM σ) β} {s s' : σ}

theorem bind_ok {a : α} (h : m s = (.ok a, s')) : (m >>= f) s = f a s' := by
  show ExceptT.bindCont f (m s).1 (m s).2 = _
  rw [h]
  rfl

theorem bind_error {e : ε} (h : m s = (.error e, s')) : (m >>= f) s = (.error e, s') := by
  show ExceptT.bindCont f (m s).1 (m s).2 = _
  rw [h]
  rfl

@[simp] theorem run_pure (a : α) (s : σ) : (pure a : ExceptT ε (StateM σ) α) s = (.ok a, s) := rfl

@[simp] theorem run_modify (g : σ → σ) (s : σ) :
    (modify g : ExceptT ε (StateM σ) PUnit) s = (.ok ⟨⟩, g s) := rfl

@[simp] theorem run_get_bind (f : σ → ExceptT ε (StateM σ) β) (s : σ) : (get >>= f) s = f s s := rfl

@[simp] theorem run_modify_bind (g : σ → σ) (f : PUnit → ExceptT ε (StateM σ) β) (s : σ) :
    ((modify g : ExceptT ε (StateM σ) PUnit) >>= f) s = f ⟨⟩ (g s) := rfl

theorem bind_cases : (∃ a s', m s = (.ok a, s') ∧ (m >>= f) s = f a s') ∨
    ∃ e s', m s = (.error e, s') ∧ (m >>= f) s = (.error e, s') := by
  rcases h : m s with ⟨_ | a, s'⟩
  · exact .inr ⟨_, s', rfl, bind_error h⟩
  · exact .inl ⟨a, s', rfl, bind_ok h⟩

end run

/-! ## Rules -/

namespace Sat

variable {E E' : ε → σ → Prop} {Q Q' : α → σ → Prop} {x : Except ε α × σ} {s : σ}

theorem mono (h : Sat E Q x) (hQ : ∀ a s, Q a s → Q' a s) : Sat E Q' x := by
  rcases x with ⟨_ | a, s⟩
  · exact h
  · exact hQ a s h

theorem weaken (h : Sat E Q x) (hE : ∀ e s, E e s → E' e s) : Sat E' Q x := by
  rcases x with ⟨e | _, s⟩
  · exact hE e s h
  · exact h

theorem of_eq_ok {a : α} (h : Sat E Q x) (hx : x = (.ok a, s)) : Q a s := by
  subst hx
  exact h

theorem of_eq_error {e : ε} (h : Sat E Q x) (hx : x = (.error e, s)) : E e s := by
  subst hx
  exact h

theorem exists_ok (h : Sat (fun _ _ => False) Q x) : ∃ a s, x = (.ok a, s) ∧ Q a s := by
  rcases x with ⟨_ | a, s⟩
  · exact h.elim
  · exact ⟨a, s, rfl, h⟩

theorem bind {R : β → σ → Prop} {m : ExceptT ε (StateM σ) α} {f : α → ExceptT ε (StateM σ) β}
    (h : Sat E Q (m s)) (hf : ∀ a s', Q a s' → Sat E R (f a s')) : Sat E R ((m >>= f) s) := by
  rcases bind_cases (m := m) (f := f) (s := s) with ⟨a, s', hm, heq⟩ | ⟨e, s', hm, heq⟩
  · rw [heq]
    exact hf a s' (h.of_eq_ok hm)
  · rw [heq]
    exact h.of_eq_error hm

/-- Whatever the first program does. -/
theorem skip {R : β → σ → Prop} {m : ExceptT ε (StateM σ) α} {f : α → ExceptT ε (StateM σ) β}
    (hf : ∀ a s', Sat (fun _ _ => True) R (f a s')) : Sat (fun _ _ => True) R ((m >>= f) s) := by
  rcases bind_cases (m := m) (f := f) (s := s) with ⟨a, s', -, heq⟩ | ⟨e, s', -, heq⟩
  · rw [heq]
    exact hf a s'
  · rw [heq]
    trivial

end Sat

/-! ## Optional results -/

/-- There is a result exactly if `ok`, and it satisfies `Q`. -/
def Yields (ok : Prop) (Q : α → Prop) : Option α → Prop
  | none => ¬ ok
  | some a => ok ∧ Q a

namespace Yields

variable {ok ok' : Prop} {Q Q' : α → Prop} {o : Option α}

theorem exists_some (h : Yields ok Q o) (hok : ok) : ∃ a, o = some a ∧ Q a := by
  cases o with
  | none => exact absurd hok h
  | some a => exact ⟨a, rfl, h.2⟩

theorem of_eq_some {a : α} (h : Yields ok Q o) (ho : o = some a) : ok ∧ Q a := by
  subst ho
  exact h

theorem mono (h : Yields ok Q o) (hok : ok ↔ ok') (hQ : ∀ a, Q a → Q' a) : Yields ok' Q' o := by
  cases o with
  | none => exact fun h' => h (hok.2 h')
  | some a => exact ⟨hok.1 h.1, hQ a h.2⟩

theorem bind {R : β → Prop} {f : α → Option β} (h : Yields ok Q o) (himp : ok' → ok)
    (hf : ∀ a, ok → Q a → Yields ok' R (f a)) : Yields ok' R (o.bind f) := by
  cases o with
  | none => exact fun h' => h (himp h')
  | some a => exact hf a h.1 h.2

end Yields

end Fallible
