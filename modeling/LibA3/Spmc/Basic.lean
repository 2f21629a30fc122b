import LibA3.Trans
import Mathlib.Logic.Function.Basic

/-!
# The single-producer multiple-consumer queue (`spmc.c`)

One step is one atomic access of one thread; the threads interleave in any order. A producer or consumer
between two accesses is a constructor of `Producer` or `Consumer`, named after the access it makes next and
holding the local variables that are still used. A compare-exchange that fails reloads `head` in the same
step, or, as the one of `msvc.c`, in a step of its own (`split`).

| here | there |
| --- | --- |
| `Queue`         | `A3Spmc` (`spmc.h:20`); a slot is `none` for `NULL` |
| `Producer`      | `a3_spmc_enqueue` (`blocking`) and `a3_spmc_try_enqueue` (`spmc.c:89-120`) |
| `Consumer`      | `a3_spmc_try_dequeue` and `a3_spmc_dequeue` (`spmc.c:57-87`) |
| `wrap`          | what `size_t` addition does to a sum: `id` for counters without bound, `· % 2 ^ w` for `w` bits |

Allocation succeeds. Elements are not `NULL`.
-/

namespace A3Spmc

variable {E : Type}

structure Queue (E : Type) where
  data : List (Option E)
  cap : Nat
  mask : Nat
  head : Nat
  end_ : Nat

/-- The `while` of `a3_spmc_init` (`spmc.c:23`) -/
def initLoop (wrap : Nat → Nat) : Nat → Nat → Nat → Option Nat
  | 0, _, _ => none
  | fuel + 1, qcap, cap => if qcap < cap then initLoop wrap fuel (wrap (qcap <<< 1)) cap else some qcap

/-- `a3_spmc_init` (`spmc.c:19`) -/
def init (wrap : Nat → Nat) (cap : Nat) : Option (Queue E) :=
  (initLoop wrap (cap + 1) 1 cap).map fun qcap =>
    { data := List.replicate qcap none, cap := qcap, mask := qcap - 1, head := 0, end_ := 0 }

/-- `a3_spmc_index` (`spmc.c:51`) -/
def index (q : Queue E) (ticket : Nat) : Nat := ticket &&& q.mask

/-- `q->data[a3_spmc_index(q, ticket)]` -/
def slot (q : Queue E) (ticket : Nat) : Option E := q.data.getD (index q ticket) none

def setSlot (q : Queue E) (ticket : Nat) (v : Option E) : Queue E := { q with data := q.data.set (index q ticket) v }

/-! ## Threads between two accesses -/

inductive Producer (E : Type) where
  | idle
  | loadEnd (blocking : Bool) (elem : E)
  | loadHead (blocking : Bool) (elem : E) (end_ : Nat)
  | loadSlot (blocking : Bool) (elem : E) (end_ : Nat)
  | store (elem : E) (end_ : Nat)
  | fetchAdd (elem : E) (end_ : Nat)

inductive Consumer where
  | idle
  | loadEnd
  | loadHead (end_ : Nat)
  | compareExchange (end_ head i : Nat)
  | reload (end_ i : Nat)
  | fetchAdd
  | await (head : Nat)
  | exchange (head : Nat)

/-- What a step shows. -/
inductive Event (E : Type) where
  | internal
  /-- the producer stores `elem` into a slot that held `old` -/
  | stored (old : Option E) (elem : E)
  /-- `a3_spmc_enqueue`, or `a3_spmc_try_enqueue` with `true`, returns -/
  | enqueued (elem : E)
  /-- a consumer that obtained `ticket` returns `v` -/
  | returned (consumer ticket : Nat) (v : Option E)

/-- One access of the producer. -/
def producerStep (wrap : Nat → Nat) (q : Queue E) : Producer E → Queue E × Producer E × Event E
  | .idle => (q, .idle, .internal)
  | .loadEnd blocking elem => (q, .loadHead blocking elem q.end_, .internal)
  | .loadHead blocking elem end_ =>
    if end_ ≥ wrap (q.head + q.cap) then (q, if blocking then .loadHead blocking elem end_ else .idle, .internal)
    else (q, .loadSlot blocking elem end_, .internal)
  | .loadSlot blocking elem end_ =>
    if (slot q end_).isSome then (q, if blocking then .loadSlot blocking elem end_ else .idle, .internal)
    else (q, .store elem end_, .internal)
  | .store elem end_ => (setSlot q end_ (some elem), .fetchAdd elem end_, .stored (slot q end_) elem)
  | .fetchAdd elem _ => ({ q with end_ := wrap (q.end_ + 1) }, .idle, .enqueued elem)

/-- The head of the `for` of `a3_spmc_try_dequeue` (`spmc.c:63-65`): the next try, or `NULL`. -/
def retry (end_ head i : Nat) : Consumer :=
  if i < 5 then if head ≥ end_ then .idle else .compareExchange end_ head i else .idle

/-- One access of consumer `c`. -/
def consumerStep (wrap : Nat → Nat) (split : Bool) (q : Queue E) (c : Nat) : Consumer → Queue E × Consumer × Event E
  | .idle => (q, .idle, .internal)
  | .loadEnd => (q, .loadHead q.end_, .internal)
  | .loadHead end_ => (q, retry end_ q.head 0, .internal)
  | .compareExchange end_ head i =>
    if q.head = head then ({ q with head := wrap (head + 1) }, .exchange head, .internal)
    else (q, if split then .reload end_ i else retry end_ q.head (i + 1), .internal)
  | .reload end_ i => (q, retry end_ q.head (i + 1), .internal)
  | .fetchAdd => ({ q with head := wrap (q.head + 1) }, .await q.head, .internal)
  | .await head => (q, if head ≥ q.end_ then .await head else .exchange head, .internal)
  | .exchange head => (setSlot q head none, .idle, .returned c head (slot q head))

/-! ## The system -/

structure State (E : Type) where
  q : Queue E
  producer : Producer E
  consumer : Nat → Consumer

/-- One step of one thread: it calls a function of the queue, or makes its next access. -/
inductive Step (wrap : Nat → Nat) : State E → Event E → State E → Prop
  | enqueue (s : State E) (blocking : Bool) (elem : E) : s.producer = .idle →
      Step wrap s .internal { s with producer := .loadEnd blocking elem }
  | producer (s : State E) :
      Step wrap s (producerStep wrap s.q s.producer).2.2
        { s with q := (producerStep wrap s.q s.producer).1, producer := (producerStep wrap s.q s.producer).2.1 }
  | dequeue (s : State E) (c : Nat) (blocking : Bool) : s.consumer c = .idle →
      Step wrap s .internal
        { s with consumer := Function.update s.consumer c (if blocking then .fetchAdd else .loadEnd) }
  | consumer (s : State E) (c : Nat) (split : Bool) :
      Step wrap s (consumerStep wrap split s.q c (s.consumer c)).2.2
        { s with
          q := (consumerStep wrap split s.q c (s.consumer c)).1
          consumer := Function.update s.consumer c (consumerStep wrap split s.q c (s.consumer c)).2.1 }

/-- A queue no thread has called yet. -/
def start (q : Queue E) : State E := ⟨q, .idle, fun _ => .idle⟩

/-- No call is in progress. -/
def Quiescent (s : State E) : Prop := s.producer = .idle ∧ ∀ c, s.consumer c = .idle

/-! ## What a run has shown -/

def Event.element : Event E → Option E
  | .enqueued elem => some elem
  | _ => none

def Event.ticket : Event E → Option Nat
  | .returned _ ticket _ => some ticket
  | _ => none

/-- The elements enqueued so far, in order. -/
def enqueued (l : List (Event E)) : List E := l.filterMap Event.element

/-- The tickets consumers have returned with so far. -/
def returned (l : List (Event E)) : List Nat := l.filterMap Event.ticket

end A3Spmc
