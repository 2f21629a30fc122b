import Mathlib.Logic.Function.Basic

/-!
# The priority queue (`pq.h`)

| here | there |
| --- | --- |
| `Pq`        | `A3_PQ(TY)` (`pq.h:25`); `data` is read and written below `cap` only |
| `C`         | the comparator: negative, zero or positive |
| `asserts`   | whether `assert` is compiled in |
| `Fault`     | an `assert`, an access outside `data`, `A3_PANIC`, a loop that has not ended within its fuel |

Positions are counted from 1. Allocation succeeds; `zero` is what `calloc` makes of a `TY`.
-/

namespace A3Pq

variable {T : Type}

structure Pq (T : Type) where
  data : Nat → T
  len : Nat
  cap : Nat
  maxCap : Nat

inductive Fault where
  | assertion
  | outOfBounds
  | panic
  | diverges
deriving DecidableEq, Repr

/-- `a3_pq_parent` (`pq.h:42`) -/
def parent (i : Nat) : Nat := i / 2

/-- `a3_pq_left_child` (`pq.h:43`) -/
def leftChild (i : Nat) : Nat := i * 2

/-- `A3_PQ_INIT` (`pq.h:58`) -/
def init (zero : T) (initialCap maxCap : Nat) : Pq T := ⟨fun _ => zero, 0, initialCap, maxCap⟩

/-- `A3_PQ_PEEK` (`pq.h:66`), and what is found there -/
def peek (q : Pq T) : Option T := if q.len = 0 then none else some (q.data 0)

/-- `*A3_PQ_GET` (`pq.h:74`) -/
def get (asserts : Bool) (q : Pq T) (i : Nat) : Except Fault T :=
  if asserts ∧ ¬(0 < i ∧ i - 1 < q.len) then .error .assertion
  else if 0 < i ∧ i - 1 < q.cap then .ok (q.data (i - 1))
  else .error .outOfBounds

/-- `A3_PQ_SET` (`pq.h:81`) -/
def set (asserts : Bool) (q : Pq T) (i : Nat) (item : T) : Except Fault (Pq T) :=
  if asserts ∧ ¬(0 < i ∧ i - 1 < q.cap) then .error .assertion
  else if 0 < i ∧ i - 1 < q.cap then .ok { q with data := Function.update q.data (i - 1) item }
  else .error .outOfBounds

/-- The `while` of `A3_PQ_ENQUEUE` (`pq.h:93`) -/
def enqueueLoop (asserts : Bool) (C : T → T → Int) (item : T) : Nat → Pq T → Nat → Except Fault (Pq T × Nat)
  | 0, _, _ => .error .diverges
  | fuel + 1, q, i =>
    if i > 1 then do
      let p ← get asserts q (parent i)
      if C p item > 0 then
        let q ← set asserts q i (← get asserts q (parent i))
        enqueueLoop asserts C item fuel q (parent i)
      else return (q, i)
    else .ok (q, i)

/-- `A3_PQ_ENQUEUE` (`pq.h:88`) -/
def enqueue (asserts : Bool) (C : T → T → Int) (fuel : Nat) (q : Pq T) (item : T) : Except Fault (Pq T) := do
  if asserts ∧ ¬(q.len + 1 < q.cap) then throw .assertion
  let q := { q with len := q.len + 1 }
  let (q, i) ← enqueueLoop asserts C item fuel q q.len
  set asserts q i item

/-- `min_child` of `A3_PQ_HEAPIFY` (`pq.h:105`) -/
def minChild (asserts : Bool) (C : T → T → Int) (q : Pq T) (i : Nat) : Except Fault Nat := do
  let c := leftChild i
  if c < q.len then
    if C (← get asserts q c) (← get asserts q (c + 1)) > 0 then return c + 1
  return c

/-- The `while` of `A3_PQ_HEAPIFY` (`pq.h:104`) -/
def heapifyLoop (asserts : Bool) (C : T → T → Int) (item : T) : Nat → Pq T → Nat → Except Fault (Pq T × Nat)
  | 0, _, _ => .error .diverges
  | fuel + 1, q, i =>
    if i < q.len / 2 then do
      let c ← minChild asserts C q i
      if C item (← get asserts q c) ≤ 0 then return (q, i)
      else
        let q ← set asserts q i (← get asserts q c)
        heapifyLoop asserts C item fuel q c
    else .ok (q, i)

/-- `A3_PQ_HEAPIFY` (`pq.h:100`) -/
def heapify (asserts : Bool) (C : T → T → Int) (fuel : Nat) (q : Pq T) (i : Nat) : Except Fault (Pq T) := do
  let item ← get asserts q i
  let (q, i) ← heapifyLoop asserts C item fuel q i
  set asserts q i item

/-- `A3_PQ_DEQUEUE` (`pq.h:117`) -/
def dequeue (asserts : Bool) (C : T → T → Int) (fuel : Nat) (q : Pq T) : Except Fault (T × Pq T) := do
  if asserts ∧ ¬(q.len > 0) then throw .assertion
  match peek q with
  | none => throw .panic
  | some ret =>
    let i := q.len
    let q := { q with len := q.len - 1 }
    let q ← set asserts q 1 (← get asserts q i)
    let q ← heapify asserts C fuel q 1
    return (ret, q)

end A3Pq
