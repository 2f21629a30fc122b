/-!
# Loops with fuel

A loop that need not end is given fuel. What it comes to is its result for all fuel from some amount on, and there is only
one such result.
-/

namespace Fuel

variable {α : Type} {f : Nat → α} {r r' : α} {m fuel : Nat}

theorem succ_of_lt (h : m < fuel) : ∃ n, fuel = n + 1 :=
  Nat.exists_eq_succ_of_ne_zero (Nat.ne_of_gt (Nat.zero_lt_of_lt h))

theorem unique (h : ∃ k, ∀ fuel, k ≤ fuel → f fuel = r) (h' : ∃ k, ∀ fuel, k ≤ fuel → f fuel = r') : r = r' := by
  obtain ⟨k, hk⟩ := h
  obtain ⟨k', hk'⟩ := h'
  exact (hk (max k k') (Nat.le_max_left k k')).symm.trans (hk' (max k k') (Nat.le_max_right k k'))

theorem from_add (k : Nat) (h : ∀ fuel, f (fuel + k) = r) : ∀ fuel, k ≤ fuel → f fuel = r := by
  intro fuel hfuel
  obtain ⟨fuel, rfl⟩ := Nat.exists_eq_add_of_le' hfuel
  exact h fuel

/-- What more fuel does not change once, it never changes. -/
theorem stable (hmono : ∀ n, f n = r → f (n + 1) = r) (h : f m = r) : ∀ fuel, m ≤ fuel → f fuel = r := by
  intro fuel hle
  induction hle with
  | refl => exact h
  | step _ ih => exact hmono _ ih

/-- The loop returns within `n` turns: no fuel beyond `n` makes a difference. -/
def Within (f : Nat → Option α) (n : Nat) : Prop := ∃ r, ∀ fuel, n ≤ fuel → f fuel = some r

/-- A loop that, once it has returned, returns the same with more fuel. -/
theorem within {f : Nat → Option α} (hmono : ∀ n r, f n = some r → f (n + 1) = some r) {n : Nat} {r : α}
    (h : f n = some r) : Within f n := by
  exact ⟨r, stable (fun n hn => hmono n r hn) h⟩

end Fuel
