import LibA3.Spmc.Basic
import LibA3.Weak.Access

/-!
# The queue with its memory orders

The accesses of `spmc.c` one by one, each with the order it is made in, on a memory where a read may be of an old value. The
threads and what is between their accesses are those of `Producer` and `Consumer`.

| here | there |
| --- | --- |
| `Loc`             | `head`, `end` and `data[i]` of `A3Spmc` (`spmc.h:20`); `other` is memory of the callers |
| `producerRequest` | the next access of `a3_spmc_try_enqueue` and `a3_spmc_enqueue` (`spmc.c:89-120`) |
| `consumerRequest` | the next access of `a3_spmc_try_dequeue` and `a3_spmc_dequeue` (`spmc.c:57-87`) |
| `Step.learn`      | what a thread comes to know between its calls, of its own or from others |

The counters have no bound. `cap` and `mask` are not written after `a3_spmc_init`, which is before everything else. A
compare-exchange that fails reloads `head` in the same access (`c11.h`, `gcc.h`).
-/

namespace A3Spmc.Orders

open Weak

variable {E K : Type} [DecidableEq K]

inductive Loc (K : Type) where
  | head
  | end_
  | data (i : Nat)
  | other (k : K)
deriving DecidableEq

@[reducible] def Cell (E : Type) {K : Type} : Loc K → Type
  | .head => Nat
  | .end_ => Nat
  | .data _ => Option E
  | .other _ => Unit

/-- What a step shows, and what its thread knows then. -/
inductive Event (E K : Type) where
  | internal
  /-- `a3_spmc_enqueue`, or `a3_spmc_try_enqueue` with `true`, returns -/
  | enqueued (elem : E) (view : View (Loc K))
  /-- a consumer that obtained `ticket` returns `v` -/
  | returned (ticket : Nat) (v : Option E) (view : View (Loc K))

/-- An access, and what follows the value that it gets. -/
structure Request (E K P : Type) where
  loc : Loc K
  act : Act (Cell E loc)
  resume : Cell E loc → P
  shown : Cell E loc → View (Loc K) → Event E K

def producerRequest (q : Queue E) : Producer E → Option (Request E K (Producer E))
  | .idle => none
  | .loadEnd blocking elem =>
    some
      { loc := .end_
        act := .load .relaxed
        resume := fun end_ => .loadHead blocking elem end_
        shown := fun _ _ => .internal }
  | .loadHead blocking elem end_ =>
    some
      { loc := .head
        act := .load .acquire
        resume := fun head =>
          if end_ ≥ head + q.cap then (if blocking then .loadHead blocking elem end_ else .idle) else .loadSlot blocking elem end_
        shown := fun _ _ => .internal }
  | .loadSlot blocking elem end_ =>
    some
      { loc := .data (index q end_)
        act := .load .acquire
        resume := fun v => if v.isSome then (if blocking then .loadSlot blocking elem end_ else .idle) else .store elem end_
        shown := fun _ _ => .internal }
  | .store elem end_ =>
    some
      { loc := .data (index q end_)
        act := .store (some elem) .release
        resume := fun _ => .fetchAdd elem end_
        shown := fun _ _ => .internal }
  | .fetchAdd elem _ =>
    some
      { loc := .end_
        act := .rmw (fun n => some (n + 1)) .release .relaxed
        resume := fun _ => .idle
        shown := fun _ => .enqueued elem }

def consumerRequest (q : Queue E) : Consumer → Option (Request E K Consumer)
  | .idle => none
  | .loadEnd => some { loc := .end_, act := .load .acquire, resume := fun end_ => .loadHead end_, shown := fun _ _ => .internal }
  | .loadHead end_ =>
    some { loc := .head, act := .load .acquire, resume := fun head => retry end_ head 0, shown := fun _ _ => .internal }
  | .compareExchange end_ head i =>
    some
      { loc := .head
        act := .rmw (fun n => if n = head then some (head + 1) else none) .acqRel .acquire
        resume := fun n => if n = head then .exchange head else retry end_ n (i + 1)
        shown := fun _ _ => .internal }
  | .reload _ _ => none
  | .fetchAdd =>
    some
      { loc := .head
        act := .rmw (fun n => some (n + 1)) .acqRel .relaxed
        resume := fun head => .await head
        shown := fun _ _ => .internal }
  | .await head =>
    some
      { loc := .end_
        act := .load .acquire
        resume := fun end_ => if head ≥ end_ then .await head else .exchange head
        shown := fun _ _ => .internal }
  | .exchange head =>
    some
      { loc := .data (index q head)
        act := .rmw (fun _ => some none) .acqRel .relaxed
        resume := fun _ => .idle
        shown := fun v => .returned head v }

/-! ## The system -/

structure Thread (K P : Type) where
  pc : P
  view : View (Loc K)

structure State (E K : Type) where
  mem : Memory (Loc K) (Cell E)
  producer : Thread K (Producer E)
  consumer : Nat → Thread K Consumer

def State.setConsumer (s : State E K) (c : Nat) (thread : Thread K Consumer) : State E K :=
  { s with consumer := Function.update s.consumer c thread }

/-- A thread calls a function of the queue, makes its next access, or does something else between two calls. -/
inductive Step (q : Queue E) : State E K → Event E K → State E K → Prop
  | enqueue (s : State E K) (blocking : Bool) (elem : E) : s.producer.pc = .idle →
      Step q s .internal { s with producer := ⟨.loadEnd blocking elem, s.producer.view⟩ }
  | producer (s : State E K) (r : Request E K (Producer E)) (v : Cell E r.loc) (mem : Memory (Loc K) (Cell E))
      (view : View (Loc K)) :
      producerRequest q s.producer.pc = some r → Access s.mem s.producer.view r.loc r.act v mem view →
      Step q s (r.shown v view) { s with mem := mem, producer := ⟨r.resume v, view⟩ }
  | learn (s : State E K) (view : View (Loc K)) : s.producer.pc = .idle → s.producer.view ≤ view →
      Step q s .internal { s with producer := ⟨.idle, view⟩ }
  | dequeue (s : State E K) (c : Nat) (blocking : Bool) : (s.consumer c).pc = .idle →
      Step q s .internal (s.setConsumer c ⟨if blocking then .fetchAdd else .loadEnd, (s.consumer c).view⟩)
  | consumer (s : State E K) (c : Nat) (r : Request E K Consumer) (v : Cell E r.loc) (mem : Memory (Loc K) (Cell E))
      (view : View (Loc K)) :
      consumerRequest q (s.consumer c).pc = some r → Access s.mem (s.consumer c).view r.loc r.act v mem view →
      Step q s (r.shown v view) { s.setConsumer c ⟨r.resume v, view⟩ with mem := mem }
  | consumerLearn (s : State E K) (c : Nat) (view : View (Loc K)) : (s.consumer c).pc = .idle → (s.consumer c).view ≤ view →
      Step q s .internal (s.setConsumer c ⟨.idle, view⟩)

/-- What `a3_spmc_init` has written. -/
def initial (E : Type) {K : Type} : Memory (Loc K) (Cell E)
  | .head => [⟨0, (0 : Nat), fun _ => 0⟩]
  | .end_ => [⟨0, (0 : Nat), fun _ => 0⟩]
  | .data _ => [⟨0, (none : Option E), fun _ => 0⟩]
  | .other _ => [⟨0, (), fun _ => 0⟩]

def start (E K : Type) : State E K := ⟨initial E, ⟨.idle, fun _ => 0⟩, fun _ => ⟨.idle, fun _ => 0⟩⟩

/-! ## What a run has shown -/

def Event.element : Event E K → Option (E × View (Loc K))
  | .enqueued elem view => some (elem, view)
  | _ => none

def Event.taking : Event E K → Option (Nat × Option E × View (Loc K))
  | .returned ticket v view => some (ticket, v, view)
  | _ => none

/-- The elements enqueued so far, in order, each with what the producer knew when the call returned. -/
def enqueued (l : List (Event E K)) : List (E × View (Loc K)) := l.filterMap Event.element

/-- The tickets consumers have returned with so far, with what they returned and knew then. -/
def returned (l : List (Event E K)) : List (Nat × Option E × View (Loc K)) := l.filterMap Event.taking

end A3Spmc.Orders
