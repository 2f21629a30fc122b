import Mathlib.Algebra.Order.Group.Multiset

/-!
# What a list of slots holds

Each slot holds at most one thing; `held` is all of it, with multiplicities. What is held is said slot by slot: what one
slot holds, and what the others do (`List.eraseIdx`), so that a change of one slot changes its own part only.
-/

namespace Slots

variable {σ β : Type} {f : σ → Option β} {l : List σ} {i j : Nat} {a b : σ} {x : β}

/-- What one slot holds. -/
def one : Option β → Multiset β
  | none => 0
  | some x => {x}

@[simp] theorem one_none : one (none : Option β) = 0 := rfl

@[simp] theorem one_some (x : β) : one (some x) = {x} := rfl

def held (f : σ → Option β) (l : List σ) : Multiset β := ↑(l.filterMap f)

theorem held_cons (f : σ → Option β) (a : σ) (l : List σ) : held f (a :: l) = one (f a) + held f l := by
  cases h : f a with
  | none => rw [held, List.filterMap_cons_none h, one_none, Multiset.zero_add, held]
  | some x =>
    rw [held, List.filterMap_cons_some h, one_some, ← Multiset.cons_coe, held, Multiset.singleton_add]

theorem held_concat (f : σ → Option β) (l : List σ) (a : σ) : held f (l ++ [a]) = one (f a) + held f l := by
  induction l with
  | nil => rw [List.nil_append, held_cons]
  | cons b l ih => rw [List.cons_append, held_cons, ih, held_cons, add_left_comm]

/-- What slot `i` holds, and what the others hold. -/
theorem held_eraseIdx (h : l[i]? = some a) : held f l = one (f a) + held f (l.eraseIdx i) := by
  induction l generalizing i with
  | nil => cases h
  | cons b l ih =>
    cases i with
    | zero =>
      obtain rfl : b = a := Option.some.inj h
      rw [List.eraseIdx_zero, List.tail_cons, held_cons]
    | succ i =>
      rw [List.eraseIdx_cons_succ, held_cons, held_cons, ih h, add_left_comm]

theorem held_set (hi : i < l.length) (b : σ) : held f (l.set i b) = one (f b) + held f (l.eraseIdx i) := by
  rw [held_eraseIdx (List.getElem?_set_self hi), List.eraseIdx_set_eq]

theorem mem_held_eraseIdx (h : l[j]? = some a) (hne : j ≠ i) (hx : f a = some x) : x ∈ held f (l.eraseIdx i) :=
  Multiset.mem_coe.2 (List.mem_filterMap.2 ⟨a, List.mem_eraseIdx_iff_getElem?.2 ⟨j, hne, h⟩, hx⟩)

end Slots
