import LibA3.Pq.Sift
import LibA3.Trans

/-!
# What is in the queue, whatever the comparator

Nothing here asks for an order: the comparator may be inconsistent, and the heap may be out of order after an
`A3_PQ_DEQUEUE`. What is stored is what has been enqueued and not dequeued (`elements_conserved`).
-/

namespace A3Pq

open Trans BinHeap

variable {T : Type} {C : T → T → Int} {q q' : Pq T} {item ret zero : T} {cap maxCap : Nat} {P : (Nat → T) → Nat → Prop}

/-- What is stored. -/
def stored (q : Pq T) : Multiset T := items q.data q.len

/-! ## One call -/

/-- `A3_PQ_ENQUEUE` adds the item where its loop ends, within `log2 (len + 1) + 1` turns. -/
theorem enqueue_spec (asserts : Bool) (hroom : q.len + 1 < q.cap) (hrises : Rises C (q.len + 1) item P)
    (hP : P q.data (q.len + 1)) :
    ∃ a' i', (∀ fuel, Nat.log 2 (q.len + 1) < fuel →
        enqueue asserts C fuel q item = .ok { q with data := put a' i' item, len := q.len + 1 }) ∧
      1 ≤ i' ∧ P a' i' ∧ (1 < i' → C (at' a' (i' / 2)) item ≤ 0) ∧ items (put a' i' item) (q.len + 1) = item ::ₘ stored q := by
  obtain ⟨a', i', hloop, h1, hlen, hP', hstop, hitems⟩ := enqueueLoop_spec (q := { q with len := q.len + 1 }) asserts
    (Nat.le_of_lt hroom) (Nat.le_add_left 1 q.len) (Nat.le_refl _) hrises hP
  have hset : set asserts { q with data := a', len := q.len + 1 } i' item =
      .ok { q with data := put a' i' item, len := q.len + 1 } := set_eq h1 (Nat.le_trans hlen (Nat.le_of_lt hroom))
  refine ⟨a', i', fun fuel hfuel => ?_, h1, hP', hstop, ?_⟩
  · have hassert : ¬(asserts ∧ ¬(q.len + 1 < q.cap)) := fun h => h.2 hroom
    simp only [enqueue, if_neg hassert, hloop fuel hfuel, bind, Except.bind]
    exact hset
  · have hput := items_put (a := q.data) (v := item) (Nat.le_add_left 1 q.len) (Nat.le_refl (q.len + 1))
    rw [items_succ (a := q.data), Multiset.cons_swap] at hput
    exact hitems.trans ((Multiset.cons_inj_right _).1 hput)

/-- `A3_PQ_DEQUEUE` takes the first element, and puts the last one where its loop ends, within `log2 (len - 1) + 1` turns. -/
theorem dequeue_spec (hcap : q.len ≤ q.cap) (hpos : 0 < q.len) (hsinks : Sinks C (q.len - 1) (at' q.data q.len) P)
    (hP : P (put q.data 1 (at' q.data q.len)) 1) :
    ∃ a' i', (∀ fuel, Nat.log 2 (q.len - 1) < fuel →
        dequeue false C fuel q = .ok (q.data 0, { q with data := put a' i' (at' q.data q.len), len := q.len - 1 })) ∧
      P a' i' ∧ (i' < (q.len - 1) / 2 → C (at' q.data q.len) (at' a' (minPos C a' i')) ≤ 0) ∧
      stored q = q.data 0 ::ₘ items (put a' i' (at' q.data q.len)) (q.len - 1) := by
  obtain ⟨m, hm⟩ := Nat.exists_eq_add_one_of_ne_zero (Nat.ne_of_gt hpos)
  have hlen : q.len - 1 = m := by omega
  rw [hlen] at hsinks ⊢
  have hcap1 : 1 ≤ q.cap := Nat.le_trans hpos hcap
  have hget : get false { q with len := m } q.len = .ok (at' q.data q.len) :=
    get_eq hpos hcap fun h => absurd h Bool.false_ne_true
  have hset : set false { q with len := m } 1 (at' q.data q.len) =
      .ok { q with data := put q.data 1 (at' q.data q.len), len := m } := set_eq (Nat.le_refl 1) hcap1
  have hget' : get false { q with data := put q.data 1 (at' q.data q.len), len := m } 1 = .ok (at' q.data q.len) :=
    get_eq (q := { q with data := put q.data 1 (at' q.data q.len), len := m }) (Nat.le_refl 1) hcap1 fun h =>
      absurd h Bool.false_ne_true
  have hbound : m < 2 ^ (Nat.log 2 m + 1) * 1 := by
    rw [Nat.mul_one]
    exact Nat.lt_pow_succ_log_self (by decide) m
  obtain ⟨a', i', hloop, h1, hlen', hP', hstop, hitems⟩ := heapifyLoop_spec
    (q := { q with data := put q.data 1 (at' q.data q.len), len := m }) false (by simp only; omega) (Nat.le_refl 1)
    (Nat.le_max_left 1 m) hbound hsinks hP
  have hset' : set false { q with data := a', len := m } i' (at' q.data q.len) =
      .ok { q with data := put a' i' (at' q.data q.len), len := m } := set_eq h1 (Nat.le_trans hlen' (by simp only; omega))
  refine ⟨a', i', fun fuel hfuel => ?_, hP', hstop, ?_⟩
  · have hpeek : peek q = some (q.data 0) := if_neg (Nat.ne_of_gt hpos)
    have hrest := hloop fuel hfuel
    simp only [dequeue, Bool.false_eq_true, false_and, if_false, hpeek, hlen, hget, hset, heapify, hget', hrest, hset', bind,
      Except.bind, pure, Except.pure]
  · have hstored : items (put a' i' (at' q.data q.len)) m = items (put q.data 1 (at' q.data (m + 1))) m := by
      rw [← hm]
      exact hitems.trans (congrArg (items · m) put_put)
    rw [hstored, stored, hm]
    exact items_replace

theorem enqueue_adds (asserts : Bool) (C : T → T → Int) (hroom : q.len + 1 < q.cap) (item : T) :
    ∃ q', (∀ fuel, Nat.log 2 (q.len + 1) < fuel → enqueue asserts C fuel q item = .ok q') ∧ q'.cap = q.cap ∧
      q'.len ≤ q'.cap ∧ stored q' = item ::ₘ stored q := by
  obtain ⟨a', i', hret, _, _, _, hitems⟩ := enqueue_spec (C := C) (P := fun _ _ => True) asserts hroom
    (fun _ _ _ _ _ _ => trivial) trivial
  exact ⟨_, hret, rfl, Nat.le_of_lt hroom, hitems⟩

theorem dequeue_takes (C : T → T → Int) (hcap : q.len ≤ q.cap) (hpos : 0 < q.len) :
    ∃ q', (∀ fuel, Nat.log 2 (q.len - 1) < fuel → dequeue false C fuel q = .ok (q.data 0, q')) ∧ q'.cap = q.cap ∧
      q'.len ≤ q'.cap ∧ stored q = q.data 0 ::ₘ stored q' := by
  obtain ⟨a', i', hret, _, _, hitems⟩ := dequeue_spec (C := C) (P := fun _ _ => True) hcap hpos
    (fun _ _ _ _ _ => trivial) trivial
  exact ⟨_, hret, rfl, Nat.le_trans (Nat.sub_le _ _) hcap, hitems⟩

/-! ## Runs -/

inductive Op (T : Type) where
  | enqueue (item : T)
  | dequeue (ret : T)

/-- A call, `assert` being compiled out, and what it returns. -/
inductive Step (C : T → T → Int) (q : Pq T) : Op T → Pq T → Prop
  | enqueue (item : T) (q' : Pq T) (k : Nat) : q.len + 1 < q.cap →
      (∀ fuel, k ≤ fuel → enqueue false C fuel q item = .ok q') → Step C q (.enqueue item) q'
  | dequeue (ret : T) (q' : Pq T) (k : Nat) : 0 < q.len →
      (∀ fuel, k ≤ fuel → dequeue false C fuel q = .ok (ret, q')) → Step C q (.dequeue ret) q'

def Op.added : Op T → Option T
  | .enqueue item => some item
  | .dequeue _ => none

def Op.taken : Op T → Option T
  | .enqueue _ => none
  | .dequeue ret => some ret

def enqueued (calls : List (Op T)) : Multiset T := ↑(calls.filterMap Op.added)

def dequeued (calls : List (Op T)) : Multiset T := ↑(calls.filterMap Op.taken)

theorem enqueued_concat (calls : List (Op T)) (op : Op T) :
    enqueued (calls ++ [op]) = enqueued calls + ↑op.added.toList := by
  rw [enqueued, List.filterMap_append, ← Multiset.coe_add]
  cases op <;> rfl

theorem dequeued_concat (calls : List (Op T)) (op : Op T) :
    dequeued (calls ++ [op]) = dequeued calls + ↑op.taken.toList := by
  rw [dequeued, List.filterMap_append, ← Multiset.coe_add]
  cases op <;> rfl

/-- What a call adds and takes. -/
theorem step_ledger {op : Op T} (hcap : q.len ≤ q.cap) (h : Step C q op q') :
    q'.cap = q.cap ∧ q'.len ≤ q'.cap ∧ ↑op.added.toList + stored q = ↑op.taken.toList + stored q' := by
  cases h with
  | enqueue item _ k hroom hret =>
    obtain ⟨q1, hret1, hsame, hcap', hstored⟩ := enqueue_adds false C hroom item
    have heq := Fuel.unique ⟨k, hret⟩ ⟨_, fun fuel hfuel => hret1 fuel (Nat.lt_of_succ_le hfuel)⟩
    rw [Except.ok.inj heq]
    refine ⟨hsame, hcap', ?_⟩
    rw [hstored]
    simp [Op.added, Op.taken]
  | dequeue ret _ k hpos hret =>
    obtain ⟨q1, hret1, hsame, hcap', hstored⟩ := dequeue_takes C hcap hpos
    have heq := Fuel.unique ⟨k, hret⟩ ⟨_, fun fuel hfuel => hret1 fuel (Nat.lt_of_succ_le hfuel)⟩
    obtain ⟨rfl, rfl⟩ := Prod.mk.inj (Except.ok.inj heq)
    refine ⟨hsame, hcap', ?_⟩
    rw [hstored]
    simp [Op.added, Op.taken]

theorem ledger_run {calls : List (Op T)} (h : Run (Step C) (init zero cap maxCap) calls q) :
    q.cap = cap ∧ q.len ≤ q.cap ∧ enqueued calls = dequeued calls + stored q := by
  have hinit : (init zero cap maxCap).cap = cap ∧ (init zero cap maxCap).len ≤ (init zero cap maxCap).cap ∧
      enqueued [] = dequeued [] + stored (init zero cap maxCap) := ⟨rfl, Nat.zero_le _, rfl⟩
  refine h.invariant_trace
    (P := fun q calls => q.cap = cap ∧ q.len ≤ q.cap ∧ enqueued calls = dequeued calls + stored q) ?_ hinit
  rintro q calls op q' ⟨hsame, hcap, hledger⟩ hstep
  obtain ⟨hsame', hcap', hstored⟩ := step_ledger hcap hstep
  refine ⟨hsame'.trans hsame, hcap', ?_⟩
  calc enqueued (calls ++ [op]) = dequeued calls + (↑op.added.toList + stored q) := by
        rw [enqueued_concat, hledger, Multiset.add_assoc, Multiset.add_comm (stored q)]
    _ = dequeued (calls ++ [op]) + stored q' := by
        rw [hstored, dequeued_concat, Multiset.add_assoc]

/-- **No element is lost or made up, whatever the comparator says.** In every run of calls the elements enqueued are those
dequeued and those stored, each as often; a further `A3_PQ_ENQUEUE` with room returns within `log2 (len + 1) + 1`
evaluations of its loop's condition, and a further `A3_PQ_DEQUEUE` of a queue that is not empty returns the first
element within `log2 (len - 1) + 1`. -/
theorem elements_conserved {calls : List (Op T)} (h : Run (Step C) (init zero cap maxCap) calls q) :
    enqueued calls = dequeued calls + stored q ∧
    (q.len + 1 < cap → ∀ item, ∃ q', stored q' = item ::ₘ stored q ∧
      ∀ fuel, Nat.log 2 (q.len + 1) < fuel → enqueue false C fuel q item = .ok q') ∧
    (0 < q.len → ∃ ret q', peek q = some ret ∧ stored q = ret ::ₘ stored q' ∧
      ∀ fuel, Nat.log 2 (q.len - 1) < fuel → dequeue false C fuel q = .ok (ret, q')) := by
  obtain ⟨hsame, hcap, hledger⟩ := ledger_run h
  refine ⟨hledger, fun hroom item => ?_, fun hpos => ?_⟩
  · obtain ⟨q', hret, _, _, hstored⟩ := enqueue_adds false C (hsame ▸ hroom) item
    exact ⟨q', hstored, hret⟩
  · obtain ⟨q', hret, _, _, hstored⟩ := dequeue_takes C hcap hpos
    exact ⟨q.data 0, q', if_neg (Nat.ne_of_gt hpos), hstored, hret⟩

/-- A comparator that puts every element after every other: each item rises to the root. -/
theorem elements_conserved_unordered : ∃ q : Pq Int, stored q = {2, 1} ∧
    enqueued [.enqueue 1, .enqueue 2, .enqueue 3, .dequeue 3] =
      dequeued [.enqueue 1, .enqueue 2, .enqueue 3, .dequeue 3] + stored q ∧
    (q.len + 1 < 5 → ∀ item, ∃ q', stored q' = item ::ₘ stored q ∧
      ∀ fuel, Nat.log 2 (q.len + 1) < fuel → enqueue false (fun _ _ => 1) fuel q item = .ok q') ∧
    (0 < q.len → ∃ ret q', peek q = some ret ∧ stored q = ret ::ₘ stored q' ∧
      ∀ fuel, Nat.log 2 (q.len - 1) < fuel → dequeue false (fun _ _ => 1) fuel q = .ok (ret, q')) := by
  have h : Run (Step fun _ _ => 1) (init (0 : Int) 5 5) [.enqueue 1, .enqueue 2, .enqueue 3, .dequeue 3] _ :=
    .cons (.enqueue _ _ 1 (by decide) (Fuel.from_add 1 fun _ => rfl)) <|
    .cons (.enqueue _ _ 2 (by decide) (Fuel.from_add 2 fun _ => rfl)) <|
    .cons (.enqueue _ _ 2 (by decide) (Fuel.from_add 2 fun _ => rfl)) <|
    .cons (.dequeue _ _ 1 (by decide) (Fuel.from_add 1 fun _ => rfl)) <| .nil _
  exact ⟨_, rfl, elements_conserved h⟩

end A3Pq
