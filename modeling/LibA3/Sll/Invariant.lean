import LibA3.Fuel
import LibA3.Links.Family
import LibA3.Sll.Basic

/-!
# Lists that are linked

`ListStep` says what each call does to the sequences, and when the call may be made: an inserted node is in no list, a
removed one is listed, the list popped is not empty. The lists are linked (`Linked shape`) if every list's links run
through its sequence from its head to a `NULL`. `end` plays no part in this.
-/

namespace A3Sll

open Links

variable {L N : Type} {m m' : Mem L N} {l : L} {xs ys as bs : List N} {n : N}

theorem next_injective : Function.Injective (.next : N → Cell L N) := fun _ _ h => Cell.next.inj h

theorem head_injective : Function.Injective (.head : L → Cell L N) := fun _ _ h => Cell.head.inj h

theorem next_ne_head (n : N) (l : L) : (.next n : Cell L N) ≠ .head l := by
  rintro ⟨⟩

theorem some_ne_null (n : N) (_ : L) : some n ≠ none := Option.some_ne_none n

/-- Every list ends in `NULL`. -/
abbrev shape : Shape L N (Cell L N) (Option N) where
  cell := .next
  node := some
  head := .head
  last _ := none
  cell_injective := next_injective
  node_injective := Option.some_injective N
  head_injective := head_injective
  cell_ne_head := next_ne_head
  node_ne_last := some_ne_null

/-! ## The loops -/

/-- The loop of `A3_SLL_FOR_EACH` visits the nodes of the segment. -/
theorem forEachLoop_spec {c : Cell L N} : ∀ {xs : List N} (fuel : Nat), xs.length < fuel →
    Seg Cell.next some m.read c xs none →
    forEachLoop m fuel (m.read c) ((m.read c).bind m.next) = .ok xs := by
  intro xs
  induction xs generalizing c with
  | nil =>
    intro fuel hfuel h
    obtain ⟨fuel, rfl⟩ := Fuel.succ_of_lt hfuel
    have hc : m.read c = none := h
    rw [hc]
    rfl
  | cons x xs ih =>
    intro fuel hfuel h
    obtain ⟨fuel, rfl⟩ := Fuel.succ_of_lt hfuel
    have hrest := ih fuel (Nat.lt_of_succ_lt_succ hfuel) h.2
    rw [h.1, Option.bind_some, next_eq, forEachLoop, hrest]
    rfl

theorem traverses {A : Lists L N} (h : Linked shape m.read A) (hA : A l = some xs) : Traverses m l xs :=
  ⟨xs.length + 1, fun fuel hfuel => forEachLoop_spec fuel hfuel (h.runs l xs hA)⟩

/-- The loop of `A3_SLL_REMOVE` stops at the node before `elem`. -/
theorem findLoop_spec [DecidableEq N] {p elem : N} {c : Cell L N} : ∀ {as : List N} (fuel : Nat), as.length < fuel →
    Seg Cell.next some m.read c (as ++ p :: elem :: bs) none → (as ++ p :: elem :: bs).Nodup →
    findLoop m elem fuel (m.read c) = .ok (some p) := by
  intro as
  induction as generalizing c with
  | nil =>
    intro fuel hfuel h _
    obtain ⟨fuel, rfl⟩ := Fuel.succ_of_lt hfuel
    rw [h.1, findLoop, next_eq, h.2.1, if_pos rfl]
  | cons a as ih =>
    intro fuel hfuel h hnd
    obtain ⟨fuel, rfl⟩ := Fuel.succ_of_lt hfuel
    have hrest := ih fuel (Nat.lt_of_succ_lt_succ hfuel) h.2 (List.nodup_cons.1 hnd).2
    have hne : m.next a ≠ some elem := by
      -- what follows `a` is `p`, or something before it
      rw [next_eq, h.2.read_first]
      have hnd' := (List.nodup_cons.1 hnd).2
      cases as with
      | nil =>
        intro heq
        have heq' := Option.some.inj heq
        simp [heq'] at hnd'
      | cons b as =>
        intro heq
        have heq' := Option.some.inj heq
        simp [heq'] at hnd'
    rw [h.1, findLoop, if_neg hne, next_eq]
    exact hrest

/-- The loop of `A3_SLL_FIXUP` stops at the last cell of the segment it starts in. -/
theorem fixup_spec [DecidableEq L] : ∀ {ys : List N} {m : Mem L N} (fuel : Nat), ys.length < fuel →
    Seg Cell.next some m.read (m.end_ l) ys none →
    fixup l fuel m = .ok (m.setEnd l (lastCell Cell.next (m.end_ l) ys)) := by
  intro ys
  induction ys with
  | nil =>
    intro m fuel hfuel h
    obtain ⟨fuel, rfl⟩ := Fuel.succ_of_lt hfuel
    have hc : m.read (m.end_ l) = none := h
    have hend : m.setEnd l (m.end_ l) = m := by simp [Mem.setEnd]
    rw [fixup, hc, lastCell_nil, hend]
  | cons y ys ih =>
    intro m fuel hfuel h
    obtain ⟨fuel, rfl⟩ := Fuel.succ_of_lt hfuel
    have hend : (m.setEnd l (.next y)).end_ l = .next y := Function.update_self ..
    have hrest := ih (m := m.setEnd l (.next y)) fuel (Nat.lt_of_succ_lt_succ hfuel) (by
      rw [read_setEnd, hend]
      exact h.2)
    rw [fixup, h.1]
    refine hrest.trans ?_
    rw [hend]
    simp [Mem.setEnd, lastCell]

/-! ## What a call does to the sequences -/

variable [DecidableEq L] [DecidableEq N]

inductive ListStep (A : Lists L N) : Op L N → Lists L N → Prop
  | init (l : L) : ListStep A (.init l) (Function.update A l (some []))
  | push (l : L) (elem : N) (xs : List N) : A l = some xs → Free A elem →
      ListStep A (.push l elem) (Function.update A l (some (elem :: xs)))
  | pop (l : L) (x : N) (xs : List N) : A l = some (x :: xs) → ListStep A (.pop l) (Function.update A l (some xs))
  | remove (l : L) (elem : N) (as bs : List N) : A l = some (as ++ elem :: bs) →
      ListStep A (.remove l elem) (Function.update A l (some (as ++ bs)))
  | insertAfter (l : L) (elem nextElem : N) (as bs : List N) : A l = some (as ++ elem :: bs) → Free A nextElem →
      ListStep A (.insertAfter elem nextElem) (Function.update A l (some (as ++ elem :: nextElem :: bs)))
  | enqueue (l : L) (elem : N) (xs : List N) : A l = some xs → Free A elem →
      ListStep A (.enqueue l elem) (Function.update A l (some (xs ++ [elem])))

end A3Sll
