import LibA3.Trans
import Mathlib.Algebra.Order.Ring.Int

/-!
# What a run costs

Steps cost something, and what one step costs can be paid for with the credit of its call and with what the potential of the
state goes down by. Over a run the potentials cancel (`Spent.le`).
-/

namespace Trans

variable {σ α : Type} {step : σ → α → σ → Prop} {cost : σ → α → σ → Nat} {s s' : σ} {l : List α} {c : Nat}

/-- A run, and the sum of what its steps cost. -/
inductive Spent (step : σ → α → σ → Prop) (cost : σ → α → σ → Nat) : σ → List α → σ → Nat → Prop
  | nil (s : σ) : Spent step cost s [] s 0
  | cons {s s' s'' : σ} {a : α} {l : List α} {c : Nat} : step s a s' → Spent step cost s' l s'' c →
      Spent step cost s (a :: l) s'' (cost s a s' + c)

namespace Spent

theorem run (h : Spent step cost s l s' c) : Run step s l s' := by
  induction h with
  | nil => exact .nil _
  | cons hs _ ih => exact .cons hs ih

/-- **Potential rule.** What each step costs is paid by its credit and the potential it takes away; so is what a run
costs. -/
theorem le {P : σ → Prop} (potential : σ → Int) (credit : α → Nat)
    (hstep : ∀ s a s', P s → step s a s' → P s' ∧ cost s a s' + potential s' ≤ potential s + credit a)
    (h : Spent step cost s l s' c) (hs : P s) : c + potential s' ≤ potential s + ((l.map credit).sum : Nat) := by
  induction h with
  | nil => simp
  | @cons s s1 s2 a l c ha _ ih =>
    obtain ⟨hs1, hle⟩ := hstep s a s1 hs ha
    have hrest := ih hs1
    rw [List.map_cons, List.sum_cons]
    omega

end Spent

end Trans
