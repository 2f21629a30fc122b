/-!
# Calls that may fail

A call returns or ends in a fault. One that is made of others returns if its parts return, and then what it returns comes
from them.
-/

namespace Fallible

variable {ε α β : Type}

@[simp] theorem ok_bind (a : α) (f : α → Except ε β) : (Except.ok a >>= f) = f a := rfl

@[simp] theorem pure_ok (a : α) : (pure a : Except ε α) = .ok a := rfl

/-- A call that returns is one whose parts return. -/
theorem bind_ok {x : Except ε α} {f : α → Except ε β} {r : β} (h : x >>= f = .ok r) : ∃ a, x = .ok a ∧ f a = .ok r := by
  cases x with
  | error e => cases h
  | ok a => exact ⟨a, rfl, h⟩

/-- A check that a call has passed. -/
theorem guard_ok {c : Prop} [Decidable c] {x y : Except ε α} {e : ε} {r : α} (h : (if c then x else y) = .ok r)
    (hx : x = .error e) : ¬c ∧ y = .ok r := by
  by_cases hc : c
  · rw [if_pos hc, hx] at h
    cases h
  · rw [if_neg hc] at h
    exact ⟨hc, h⟩

theorem map_ok {x : Except ε α} {f : α → β} {r : β} (h : x.map f = .ok r) : ∃ a, x = .ok a ∧ f a = r := by
  cases x with
  | error e => cases h
  | ok a =>
    cases h
    exact ⟨a, rfl, rfl⟩

/-- Calls that all return. -/
theorem mapM_ok {f : α → Except ε β} {g : α → β} {l : List α} (h : ∀ a ∈ l, f a = .ok (g a)) : l.mapM f = .ok (l.map g) := by
  induction l with
  | nil => rfl
  | cons a l ih =>
    rw [List.mapM_cons, h a List.mem_cons_self, ok_bind, ih fun b hb => h b (List.mem_cons_of_mem a hb)]
    rfl

/-- Calls in a row return what they did if each of them does. -/
theorem foldlM_ok {f g : β → α → Except ε β} (hfg : ∀ b a b', f b a = .ok b' → g b a = .ok b') {l : List α} {b b' : β}
    (h : l.foldlM f b = .ok b') : l.foldlM g b = .ok b' := by
  induction l generalizing b with
  | nil => exact h
  | cons a l ih =>
    rw [List.foldlM_cons] at h ⊢
    obtain ⟨b1, hfirst, hrest⟩ := bind_ok h
    rw [hfg b a b1 hfirst, ok_bind]
    exact ih hrest

/-- What each of them keeps, they keep. -/
theorem foldlM_keeps {P : β → Prop} {f : β → α → Except ε β} (hf : ∀ b a b', f b a = .ok b' → P b → P b') {l : List α}
    {b b' : β} (h : l.foldlM f b = .ok b') (hb : P b) : P b' := by
  induction l generalizing b with
  | nil =>
    cases h
    exact hb
  | cons a l ih =>
    rw [List.foldlM_cons] at h
    obtain ⟨b1, hfirst, hrest⟩ := bind_ok h
    exact ih hrest (hf b a b1 hfirst hb)

end Fallible
