import LibA3.Fallible
import LibA3.Links.Family

/-!
# Loops over a list that changes meanwhile

A loop that fetches the item behind the next one after its body has been run. If the body takes the item it is run on out
of the list, or leaves it there, and every item still to come leads to the one behind it (`Keeps`), the loop visits what
was there at the start, and what is left is what was kept (`Keeps.forEach`).
-/

namespace Links

open Fallible

variable {L M N P ε : Type}

/-- What a loop's body does with its item: leave it where it is, take it out, or put it into another list instead. -/
inductive Fate (L : Type) where
  | keep
  | remove
  | push (l : L)
  | enqueue (l : L)
deriving DecidableEq, Repr

def Fate.kept : Fate L → Bool
  | .keep => true
  | .remove | .push _ | .enqueue _ => false

/-- The list that the item goes to. -/
def Fate.goal : Fate L → Option L
  | .keep | .remove => none
  | .push l | .enqueue l => some l

/-- The lists that items still to come go to exist, and are others. -/
def Goals (fate : N → Fate L) (A : Lists L N) (l : L) (rest : List N) : Prop :=
  ∀ x ∈ rest, ∀ l', (fate x).goal = some l' → l' ≠ l ∧ (A l').isSome

/-- No list has ceased to exist. -/
def Lasts (A A' : Lists L N) : Prop := ∀ l, (A l).isSome → (A' l).isSome

theorem Lasts.refl {A : Lists L N} : Lasts A A := fun _ h => h

theorem Lasts.update [DecidableEq L] {A A' : Lists L N} (h : Lasts A A') (l : L) (xs : List N) :
    Lasts A (Function.update A' l (some xs)) := by
  intro l' hsome
  by_cases heq : l' = l
  · subst heq
    rw [Function.update_self]
    rfl
  · rw [Function.update_of_ne heq]
    exact h l' hsome

theorem Fate.update_other [DecidableEq L] {f : Fate L} {l' : L} (hgoal : f.goal = some l') (A : Lists L N) (ys : List N) :
    ∀ l, f.goal ≠ some l → Function.update A l' (some ys) l = A l := by
  intro l hne
  have hl : l ≠ l' := fun heq => hne (by rw [heq, hgoal])
  exact Function.update_of_ne hl _ _

theorem Goals.tail {fate : N → Fate L} {A A' : Lists L N} {l : L} {x : N} {rest : List N}
    (h : Goals fate A l (x :: rest)) (hlasts : Lasts A A') : Goals fate A' l rest := by
  intro y hy l' hgoal
  obtain ⟨hne, hsome⟩ := h y (List.mem_cons_of_mem x hy) l' hgoal
  exact ⟨hne, hlasts l' hsome⟩

/-- How to get from one item to the next in a memory, where that ends, and what a loop is that has not ended within its
fuel. -/
structure Walk (M P ε : Type) where
  null : P
  diverges : ε
  follow : M → P → Except ε P

namespace Walk

variable [DecidableEq P] (w : Walk M P ε) (body : Nat → M → P → Except ε M)

def ahead (m : M) (item : P) : Except ε P := if item = w.null then .ok w.null else w.follow m item

/-- The items the body is run on, and the memory afterwards -/
def loop : Nat → M → P → P → Except ε (List P × M)
  | 0, _, _, _ => .error w.diverges
  | fuel + 1, m, item, itemNext =>
    if item = w.null then .ok ([], m)
    else do
      let m ← body fuel m item
      let next ← w.ahead m itemNext
      let (items, m) ← loop fuel m itemNext next
      return (item :: items, m)

def forEach (fuel : Nat) (m : M) (item : P) : Except ε (List P × M) := do
  let itemNext ← w.ahead m item
  w.loop body fuel m item itemNext

end Walk

/-- `At m done rest`: of the items visited those in `done` are still in the list, and those in `rest` are to come. -/
structure Keeps [DecidableEq P] (w : Walk M P ε) (body : Nat → M → P → Except ε M) (node : N → P) (keep : N → Bool)
    (At : M → List N → List N → Prop) : Prop where
  node_ne : ∀ n, node n ≠ w.null
  follow : ∀ m done x rest, At m done (x :: rest) → w.follow m (node x) = .ok (first node rest w.null)
  body : ∀ m done x rest, At m done (x :: rest) →
    ∃ m' k, (∀ fuel, k ≤ fuel → body fuel m (node x) = .ok m') ∧ At m' (done ++ [x].filter keep) rest

namespace Keeps

variable [DecidableEq P] {w : Walk M P ε} {body : Nat → M → P → Except ε M} {node : N → P} {keep : N → Bool}
  {At : M → List N → List N → Prop} {m : M} {done rest : List N}

theorem ahead (h : Keeps w body node keep At) (hat : At m done rest) :
    w.ahead m (first node rest w.null) = .ok (first node rest.tail w.null) := by
  cases rest with
  | nil => exact if_pos rfl
  | cons x rest =>
    rw [first_cons, Walk.ahead, if_neg (h.node_ne x)]
    exact h.follow m done x rest hat

theorem loop (h : Keeps w body node keep At) (hat : At m done rest) :
    ∃ m' k, (∀ fuel, k ≤ fuel → w.loop body fuel m (first node rest w.null) (first node rest.tail w.null) =
      .ok (rest.map node, m')) ∧ At m' (done ++ rest.filter keep) [] := by
  induction rest generalizing m done with
  | nil =>
    refine ⟨m, 1, fun fuel hfuel => ?_, by rwa [List.filter_nil, List.append_nil]⟩
    obtain ⟨fuel, rfl⟩ := Nat.exists_eq_add_of_le' hfuel
    exact if_pos rfl
  | cons x rest ih =>
    obtain ⟨m1, k1, hbody, hat1⟩ := h.body m done x rest hat
    obtain ⟨m', k2, hloop, hat'⟩ := ih hat1
    refine ⟨m', max k1 k2 + 1, fun fuel hfuel => ?_, ?_⟩
    · obtain ⟨fuel, rfl⟩ := Nat.exists_eq_add_of_le' (Nat.le_of_add_left_le hfuel)
      have hle : max k1 k2 ≤ fuel := by omega
      rw [first_cons, List.tail_cons, Walk.loop, if_neg (h.node_ne x), hbody fuel (by omega), ok_bind,
        h.ahead hat1, ok_bind, hloop fuel (by omega), ok_bind]
      rfl
    · rwa [List.append_assoc, ← List.filter_append] at hat'

/-- **A loop visits what was there at the start, and leaves what was kept.** -/
theorem forEach (h : Keeps w body node keep At) (hat : At m [] rest) :
    ∃ m' k, (∀ fuel, k ≤ fuel → w.forEach body fuel m (first node rest w.null) = .ok (rest.map node, m')) ∧
      At m' (rest.filter keep) [] := by
  obtain ⟨m', k, hloop, hat'⟩ := h.loop hat
  refine ⟨m', k, fun fuel hfuel => ?_, hat'⟩
  rw [Walk.forEach, h.ahead hat, ok_bind]
  exact hloop fuel hfuel

end Keeps

end Links
