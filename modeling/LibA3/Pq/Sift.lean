import LibA3.Fuel
import LibA3.Heap.Sift
import LibA3.Pq.Basic
import Mathlib.Algebra.Group.Nat.Defs
import Mathlib.Data.Nat.Log

/-!
# The loops of `A3_PQ_ENQUEUE` and `A3_PQ_HEAPIFY`

`A3_PQ_ENQUEUE` moves a hole up until the item fits. `A3_PQ_HEAPIFY` moves one down, along the positions of
`minPos`, but its loop ends at `len / 2`, which may have children: they are not looked at. Whatever the comparator says, each
turn of the first halves the position, each turn of the second at least doubles it, and both only move elements. What a
turn keeps besides is for the caller to say (`Rises`, `Sinks`).
-/

namespace A3Pq

open BinHeap

variable {T : Type} {C : T → T → Int} {asserts : Bool} {q : Pq T} {a : Nat → T} {item v : T} {i m : Nat}
  {P : (Nat → T) → Nat → Prop}

/-! ## Accesses -/

theorem get_eq (h1 : 1 ≤ i) (hcap : i ≤ q.cap) (hlen : asserts → i ≤ q.len) :
    get asserts q i = .ok (at' q.data i) := by
  have hassert : ¬(asserts ∧ ¬(0 < i ∧ i - 1 < q.len)) := fun h => h.2 ⟨h1, by have := hlen h.1; omega⟩
  rw [get, if_neg hassert, if_pos ⟨h1, by omega⟩]
  rfl

theorem set_eq (h1 : 1 ≤ i) (hcap : i ≤ q.cap) : set asserts q i v = .ok { q with data := put q.data i v } := by
  have hin : 0 < i ∧ i - 1 < q.cap := ⟨h1, by omega⟩
  rw [set, if_neg (fun h => h.2 hin), if_pos hin]
  rfl

/-! ## Up -/

/-- A move of the hole from `i` to its parent keeps `P`. -/
def Rises (C : T → T → Int) (m : Nat) (item : T) (P : (Nat → T) → Nat → Prop) : Prop :=
  ∀ a i, 1 < i → i ≤ m → 0 < C (at' a (i / 2)) item → P a i → P (put a i (at' a (i / 2))) (i / 2)

theorem log_half (h : 1 < i) : Nat.log 2 i = Nat.log 2 (i / 2) + 1 := Nat.log_of_one_lt_of_le (by decide) h

/-- The loop of `A3_PQ_ENQUEUE` ends at the root, or below an element that the item is not to come before. -/
theorem enqueueLoop_spec (asserts : Bool) (hcap : q.len ≤ q.cap) (h1 : 1 ≤ i) (hlen : i ≤ q.len)
    (hrises : Rises C q.len item P) (hP : P q.data i) :
    ∃ a' i', (∀ fuel, Nat.log 2 i < fuel → enqueueLoop asserts C item fuel q i = .ok ({ q with data := a' }, i')) ∧
      1 ≤ i' ∧ i' ≤ q.len ∧ P a' i' ∧ (1 < i' → C (at' a' (i' / 2)) item ≤ 0) ∧
      items (put a' i' item) q.len = items (put q.data i item) q.len := by
  induction i using Nat.strongRecOn generalizing q with
  | ind i ih =>
    by_cases h2 : i > 1
    · have h21 : 1 ≤ i / 2 := by omega
      have hhalf : i / 2 ≤ q.len := by omega
      have hget : get asserts q (parent i) = .ok (at' q.data (i / 2)) := get_eq h21 (Nat.le_trans hhalf hcap) fun _ => hhalf
      by_cases hcmp : C (at' q.data (i / 2)) item > 0
      · -- the hole moves up
        have hset : set asserts q i (at' q.data (i / 2)) = .ok { q with data := put q.data i (at' q.data (i / 2)) } :=
          set_eq h1 (by omega)
        obtain ⟨a', i', hloop, h1', hlen', hP', hstop, hitems⟩ := ih (i / 2) (by omega)
          (q := { q with data := put q.data i (at' q.data (i / 2)) }) hcap h21 hhalf hrises (hrises _ _ h2 hlen hcmp hP)
        refine ⟨a', i', fun fuel hfuel => ?_, h1', hlen', hP', hstop, ?_⟩
        · obtain ⟨fuel, rfl⟩ := Fuel.succ_of_lt hfuel
          rw [log_half h2] at hfuel
          have hrest := hloop fuel (Nat.lt_of_succ_lt_succ hfuel)
          simp only [enqueueLoop, if_pos h2, hget, bind, Except.bind, if_pos hcmp, hset]
          exact hrest
        · rw [hitems]
          exact items_move h1 hlen h21 hhalf (by omega)
      · refine ⟨q.data, i, fun fuel hfuel => ?_, h1, hlen, hP, fun _ => Int.not_lt.1 hcmp, rfl⟩
        obtain ⟨fuel, rfl⟩ := Fuel.succ_of_lt hfuel
        simp [enqueueLoop, h2, hget, bind, Except.bind, hcmp, pure, Except.pure]
    · refine ⟨q.data, i, fun fuel hfuel => ?_, h1, hlen, hP, fun h => absurd h h2, rfl⟩
      obtain ⟨fuel, rfl⟩ := Fuel.succ_of_lt hfuel
      rw [enqueueLoop, if_neg h2]

/-! ## Down -/

/-- The position `A3_PQ_HEAPIFY` goes on to from position `i`. -/
def minPos (C : T → T → Int) (a : Nat → T) (i : Nat) : Nat :=
  if C (at' a (leftChild i)) (at' a (leftChild i + 1)) > 0 then leftChild i + 1 else leftChild i

theorem minPos_lt (h1 : 1 ≤ i) : i < minPos C a i := by
  rw [minPos, leftChild]
  split <;> omega

theorem minPos_parent : minPos C a i / 2 = i := by
  rw [minPos, leftChild]
  split <;> omega

theorem minPos_le (hm : i < m / 2) : minPos C a i ≤ m := by
  rw [minPos, leftChild]
  split <;> omega

theorem minPos_double : 2 * i ≤ minPos C a i := by
  unfold minPos leftChild
  split <;> omega

theorem minPos_congr {b : Nat → T} (h : ∀ j, i < j → at' b j = at' a j) (h1 : 1 ≤ i) : minPos C b i = minPos C a i := by
  have hl : i < leftChild i := by rw [leftChild]; omega
  rw [minPos, minPos, h _ hl, h _ (Nat.lt_succ_of_lt hl)]

theorem minChild_eq (asserts : Bool) (C : T → T → Int) (h1 : 1 ≤ i) (hm : i < q.len / 2) (hcap : q.len ≤ q.cap) :
    minChild asserts C q i = .ok (minPos C q.data i) := by
  have hlt : leftChild i < q.len := by rw [leftChild]; omega
  have hl1 : 1 ≤ leftChild i := by rw [leftChild]; omega
  have hget : get asserts q (leftChild i) = .ok (at' q.data (leftChild i)) := get_eq hl1 (by omega) fun _ => by omega
  have hget' : get asserts q (leftChild i + 1) = .ok (at' q.data (leftChild i + 1)) :=
    get_eq (by omega) (by omega) fun _ => by omega
  simp only [minChild, if_pos hlt, hget, hget', bind, Except.bind, minPos]
  split <;> rfl

/-- A move of the hole from `i` to the position of `minPos` keeps `P`. -/
def Sinks (C : T → T → Int) (m : Nat) (item : T) (P : (Nat → T) → Nat → Prop) : Prop :=
  ∀ a i, i < m / 2 → 0 < C item (at' a (minPos C a i)) → P a i → P (put a i (at' a (minPos C a i))) (minPos C a i)

/-- The loop of `A3_PQ_HEAPIFY` ends where it does not look at children, or where the item is not to come after them. From
position `i` there are less than `n + 1` turns if `2 ^ (n + 1) * i` is past the end. -/
theorem heapifyLoop_spec (asserts : Bool) (hcap : q.len ≤ q.cap) (h1 : 1 ≤ i) (hlen : i ≤ max 1 q.len) {n : Nat}
    (hn : q.len < 2 ^ (n + 1) * i) (hsinks : Sinks C q.len item P) (hP : P q.data i) :
    ∃ a' i', (∀ fuel, n < fuel → heapifyLoop asserts C item fuel q i = .ok ({ q with data := a' }, i')) ∧
      1 ≤ i' ∧ i' ≤ max 1 q.len ∧ P a' i' ∧ (i' < q.len / 2 → C item (at' a' (minPos C a' i')) ≤ 0) ∧
      items (put a' i' item) q.len = items (put q.data i item) q.len := by
  induction n generalizing q i with
  | zero =>
    have hm : ¬i < q.len / 2 := by omega
    refine ⟨q.data, i, fun fuel hfuel => ?_, h1, hlen, hP, fun h => absurd h hm, rfl⟩
    obtain ⟨fuel, rfl⟩ := Fuel.succ_of_lt hfuel
    rw [heapifyLoop, if_neg hm]
  | succ n ih =>
    by_cases hm : i < q.len / 2
    · have hmin := minChild_eq asserts C h1 hm hcap
      have hle := minPos_le (C := C) (a := q.data) hm
      have hlt := minPos_lt (C := C) (a := q.data) h1
      have h1' : 1 ≤ minPos C q.data i := Nat.le_trans h1 (Nat.le_of_lt hlt)
      have hget : get asserts q (minPos C q.data i) = .ok (at' q.data (minPos C q.data i)) :=
        get_eq h1' (Nat.le_trans hle hcap) fun _ => hle
      by_cases hcmp : C item (at' q.data (minPos C q.data i)) ≤ 0
      · refine ⟨q.data, i, fun fuel hfuel => ?_, h1, hlen, hP, fun _ => hcmp, rfl⟩
        obtain ⟨fuel, rfl⟩ := Fuel.succ_of_lt hfuel
        simp [heapifyLoop, hm, hmin, hget, bind, Except.bind, hcmp, pure, Except.pure]
      · -- the hole moves down
        have hi : i ≤ q.len := by omega
        have hset : set asserts q i (at' q.data (minPos C q.data i)) =
            .ok { q with data := put q.data i (at' q.data (minPos C q.data i)) } :=
          set_eq h1 (Nat.le_trans hi hcap)
        have hn' : q.len < 2 ^ (n + 1) * minPos C q.data i := by
          have hpow : 2 ^ (n + 1 + 1) * i = 2 ^ (n + 1) * (2 * i) := by rw [Nat.pow_succ, Nat.mul_assoc]
          exact Nat.lt_of_lt_of_le (hpow ▸ hn) (Nat.mul_le_mul_left _ minPos_double)
        obtain ⟨a', i', hloop, hpos', hlen', hP', hstop, hitems⟩ := ih (i := minPos C q.data i)
          (q := { q with data := put q.data i (at' q.data (minPos C q.data i)) }) hcap h1'
          (Nat.le_trans hle (Nat.le_max_right _ _)) hn' hsinks (hsinks _ _ hm (Int.not_le.1 hcmp) hP)
        refine ⟨a', i', fun fuel hfuel => ?_, hpos', hlen', hP', hstop, ?_⟩
        · obtain ⟨fuel, rfl⟩ := Fuel.succ_of_lt hfuel
          have hrest := hloop fuel (Nat.lt_of_succ_lt_succ hfuel)
          simp only [heapifyLoop, if_pos hm, hmin, hget, bind, Except.bind, if_neg hcmp, hset]
          exact hrest
        · rw [hitems]
          exact items_move h1 hi h1' hle (Nat.ne_of_gt hlt)
    · refine ⟨q.data, i, fun fuel hfuel => ?_, h1, hlen, hP, fun h => absurd h hm, rfl⟩
      obtain ⟨fuel, rfl⟩ := Fuel.succ_of_lt hfuel
      rw [heapifyLoop, if_neg hm]

end A3Pq
