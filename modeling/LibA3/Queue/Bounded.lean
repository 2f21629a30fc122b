import Mathlib.Data.List.Basic

/-!
# Bounded queues

A list that cannot be longer than its bound: elements are appended at one end, all of them or none, and
removed at the other.
-/

structure BoundedQueue (α : Type) where
  cap : Nat
  items : List α
  le : items.length ≤ cap

namespace BoundedQueue

variable {α : Type} {q q' : BoundedQueue α} {xs : List α}

def empty (α : Type) (cap : Nat) : BoundedQueue α := ⟨cap, [], Nat.zero_le cap⟩

/-- Append all of `xs`, or nothing. -/
def write (q : BoundedQueue α) (xs : List α) : Bool × BoundedQueue α :=
  if h : q.items.length + xs.length ≤ q.cap then
    (true, ⟨q.cap, q.items ++ xs, by rw [List.length_append]; exact h⟩)
  else (false, q)

/-- Remove the first `n` elements. -/
def read (q : BoundedQueue α) (n : Nat) : BoundedQueue α :=
  ⟨q.cap, q.items.drop n, by rw [List.length_drop]; exact Nat.le_trans (Nat.sub_le _ _) q.le⟩

theorem write_fits (h : q.items.length + xs.length ≤ q.cap) :
    (q.write xs).1 = true ∧ (q.write xs).2.cap = q.cap ∧ (q.write xs).2.items = q.items ++ xs := by
  rw [write, dif_pos h]
  exact ⟨rfl, rfl, rfl⟩

theorem write_full (h : q.cap < q.items.length + xs.length) : q.write xs = (false, q) := by
  rw [write, dif_neg (Nat.not_le.2 h)]

@[simp] theorem write_cap : (q.write xs).2.cap = q.cap := by
  rw [write]
  split <;> rfl

end BoundedQueue
