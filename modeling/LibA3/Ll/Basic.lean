import LibA3.Links.Family
import LibA3.Trans

/-!
# The doubly-linked list (`ll.h`)

Any number of lists over one pool of nodes. The memory is what the lists' and the nodes' fields hold. A list has an
element of its own, `end`, behind its last node.

| here | there |
| --- | --- |
| `Ptr`         | a `TY*`: `NULL`, a node, `&(LIST)->end`, or an address at which there is no element |
| `Cell`        | a `TY**`: `NULL`, `&(LIST)->head`, `&(ELEM)->FIELD.next` |
| `Mem.head`, `Mem.dummy` | the fields of `A3_LL` (`ll.h:37`) |
| `Mem.next`, `Mem.prev`  | the fields of `A3_LL_LINK` (`ll.h:56`), of a node and of `end` |
| `erasedPrev`  | `((A3LLErasedLink_*)c)->prev` (`ll.h:28`): what lies behind the link at `c` |
| `Fault`       | an `assert`, an access through a pointer to no element, a loop that has not ended within its fuel |

The link is the only field of a node that is looked at.
-/

namespace A3Ll

open Links

variable {L N : Type}

inductive Ptr (L N : Type) where
  | null
  | node (n : N)
  | sentinel (l : L)
  | wild
deriving DecidableEq, Repr

inductive Cell (L N : Type) where
  | null
  | head (l : L)
  | next (n : N)
deriving DecidableEq, Repr

structure Mem (L N : Type) where
  head : L → Ptr L N
  dummy : L → Cell L N
  next : Ptr L N → Ptr L N
  prev : Ptr L N → Cell L N

inductive Fault where
  | assertion
  | badAccess
  | diverges
deriving DecidableEq, Repr

def Ptr.isElem : Ptr L N → Bool
  | .node _ | .sentinel _ => true
  | .null | .wild => false

/-- `A3_CONTAINER_OF(c, TY, FIELD)` of a link's address -/
def containerOf : Cell L N → Ptr L N
  | .next n => .node n
  | .null | .head _ => .wild

variable [DecidableEq L] [DecidableEq N]

/-! ## Accesses -/

def Mem.getNext (m : Mem L N) (p : Ptr L N) : Except Fault (Ptr L N) :=
  if p.isElem then .ok (m.next p) else .error .badAccess

def Mem.getPrev (m : Mem L N) (p : Ptr L N) : Except Fault (Cell L N) :=
  if p.isElem then .ok (m.prev p) else .error .badAccess

def erasedPrev (m : Mem L N) : Cell L N → Except Fault (Cell L N)
  | .head l => .ok (m.dummy l)
  | .next n => .ok (m.prev (.node n))
  | .null => .error .badAccess

def Mem.setHead (m : Mem L N) (l : L) (v : Ptr L N) : Mem L N := { m with head := Function.update m.head l v }

def Mem.putNext (m : Mem L N) (p v : Ptr L N) : Mem L N := { m with next := Function.update m.next p v }

def Mem.putPrev (m : Mem L N) (p : Ptr L N) (c : Cell L N) : Mem L N := { m with prev := Function.update m.prev p c }

/-- `(p)->FIELD.next = v` -/
def Mem.setNext (m : Mem L N) (p v : Ptr L N) : Except Fault (Mem L N) :=
  if p.isElem then .ok (m.putNext p v) else .error .badAccess

/-- `(p)->FIELD.prev = c` -/
def Mem.setPrev (m : Mem L N) (p : Ptr L N) (c : Cell L N) : Except Fault (Mem L N) :=
  if p.isElem then .ok (m.putPrev p c) else .error .badAccess

/-- `*c = v` -/
def Mem.write (m : Mem L N) (c : Cell L N) (v : Ptr L N) : Except Fault (Mem L N) :=
  match c with
  | .null => .error .badAccess
  | .head l => .ok (m.setHead l v)
  | .next n => m.setNext (.node n) v

/-! ## The operations -/

/-- `A3_LL_INIT` (`ll.h:63`), and `A3_LL_DESTROY` -/
def init (m : Mem L N) (l : L) : Except Fault (Mem L N) := do
  let m := m.setHead l .null
  let m := { m with dummy := Function.update m.dummy l .null }
  let m ← m.setNext (.sentinel l) .null
  m.setPrev (.sentinel l) (.head l)

/-- `A3_LL_IS_EMPTY` (`ll.h:77`) -/
def isEmpty (m : Mem L N) (l : L) : Bool := m.head l = .null ∨ m.head l = .sentinel l

/-- `A3_LL_HEAD` (`ll.h:80`) -/
def headElem (m : Mem L N) (l : L) : Ptr L N := if isEmpty m l then .null else m.head l

/-- `A3_LL_END` (`ll.h:83`) -/
def endElem (m : Mem L N) (l : L) : Ptr L N := if isEmpty m l then .null else containerOf (m.prev (.sentinel l))

/-- `A3_LL_IS_LAST` (`ll.h:87`) -/
def isLast (m : Mem L N) (elem : Ptr L N) : Except Fault Bool := do
  let p ← m.getNext elem
  if p = .null then throw .assertion
  return (← m.getNext p) = .null

/-- `A3_LL_NEXT` (`ll.h:90`) -/
def nextElem (m : Mem L N) (elem : Ptr L N) : Except Fault (Ptr L N) := do
  if (← m.getNext elem) = .null then return .null
  else if ← isLast m elem then return .null
  else m.getNext elem

/-- `A3_LL_IS_FIRST` (`ll.h:94`) -/
def isFirst (m : Mem L N) (elem : Ptr L N) : Except Fault Bool := do
  return (← erasedPrev m (← m.getPrev elem)) = .null

/-- `A3_LL_PREV` (`ll.h:97`) -/
def prevElem (m : Mem L N) (elem : Ptr L N) : Except Fault (Ptr L N) := do
  if ← isFirst m elem then return .null
  else return containerOf (← m.getPrev elem)

/-- `A3_LL_INSERT_AFTER` (`ll.h:101`) -/
def insertAfter (m : Mem L N) (elem nextElem : N) : Except Fault (Mem L N) := do
  let m ← m.setNext (.node nextElem) (← m.getNext (.node elem))
  let m ← m.setPrev (.node nextElem) (.next elem)
  let m ← m.setPrev (← m.getNext (.node elem)) (.next nextElem)
  m.setNext (.node elem) (.node nextElem)

/-- `A3_LL_INSERT_BEFORE` (`ll.h:113`) -/
def insertBefore (m : Mem L N) (elem prevElem : N) : Except Fault (Mem L N) := do
  let m ← m.setNext (.node prevElem) (.node elem)
  let m ← m.setPrev (.node prevElem) (← m.getPrev (.node elem))
  let m ← m.write (← m.getPrev (.node elem)) (.node prevElem)
  m.setPrev (.node elem) (.next prevElem)

/-- `A3_LL_REMOVE` (`ll.h:125`) -/
def remove (m : Mem L N) (elem : N) : Except Fault (Mem L N) := do
  let m ← m.setPrev (← m.getNext (.node elem)) (← m.getPrev (.node elem))
  m.write (← m.getPrev (.node elem)) (← m.getNext (.node elem))

/-- `A3_LL_PUSH` (`ll.h:134`) -/
def push (m : Mem L N) (l : L) (elem : N) : Except Fault (Mem L N) := do
  let m ←
    if isEmpty m l then do
      let m ← m.setPrev (.sentinel l) (.next elem)
      m.setNext (.node elem) (.sentinel l)
    else do
      let m ← m.setPrev (headElem m l) (.next elem)
      m.setNext (.node elem) (headElem m l)
  let m ← m.setPrev (.node elem) (.head l)
  return m.setHead l (.node elem)

/-- `A3_LL_ENQUEUE` (`ll.h:152`) -/
def enqueue (m : Mem L N) (l : L) (elem : N) : Except Fault (Mem L N) := do
  let m ← m.setNext (.node elem) (.sentinel l)
  let m ← m.setPrev (.node elem) (← m.getPrev (.sentinel l))
  let m ← m.write (← m.getPrev (.sentinel l)) (.node elem)
  m.setPrev (.sentinel l) (.next elem)

/-- `A3_LL_POP` (`ll.h:164`), and `A3_LL_DEQUEUE` -/
def pop (m : Mem L N) (l : L) : Except Fault (Mem L N) := do
  let m := m.setHead l (← nextElem m (headElem m l))
  if isEmpty m l then m.setPrev (.sentinel l) (.head l)
  else m.setPrev (headElem m l) (.head l)

/-- The loops of `A3_LL_FOR_EACH` (`ll.h:179`) and `A3_LL_FOR_EACH_REV` (`ll.h:185`), `follow` being `A3_LL_NEXT` or
`A3_LL_PREV`, with a body that changes no link: the items it is run on -/
def iterate (follow : Ptr L N → Except Fault (Ptr L N)) : Nat → Ptr L N → Ptr L N → Except Fault (List (Ptr L N))
  | 0, _, _ => .error .diverges
  | fuel + 1, item, itemNext =>
    if item = .null then .ok []
    else do
      let rest ← iterate follow fuel itemNext (← if itemNext = .null then .ok .null else follow itemNext)
      return item :: rest

def forEachFrom (follow : Ptr L N → Except Fault (Ptr L N)) (fuel : Nat) (item : Ptr L N) :
    Except Fault (List (Ptr L N)) := do
  iterate follow fuel item (← if item = .null then .ok .null else follow item)

def forEach (fuel : Nat) (m : Mem L N) (l : L) : Except Fault (List (Ptr L N)) :=
  forEachFrom (nextElem m) fuel (headElem m l)

def forEachRev (fuel : Nat) (m : Mem L N) (l : L) : Except Fault (List (Ptr L N)) :=
  forEachFrom (prevElem m) fuel (endElem m l)

/-! ## Calls -/

inductive Op (L N : Type) where
  | init (l : L)
  | push (l : L) (elem : N)
  | pop (l : L)
  | enqueue (l : L) (elem : N)
  | insertAfter (elem nextElem : N)
  | insertBefore (elem prevElem : N)
  | remove (elem : N)

def exec (m : Mem L N) : Op L N → Except Fault (Mem L N)
  | .init l => init m l
  | .push l elem => push m l elem
  | .pop l => pop m l
  | .enqueue l elem => enqueue m l elem
  | .insertAfter elem nextElem => insertAfter m elem nextElem
  | .insertBefore elem prevElem => insertBefore m elem prevElem
  | .remove elem => remove m elem

/-- What each call is to do to the sequences, and when it may be made. -/
inductive ListStep (A : Lists L N) : Op L N → Lists L N → Prop
  | init (l : L) : ListStep A (.init l) (Function.update A l (some []))
  | push (l : L) (elem : N) (xs : List N) : A l = some xs → Free A elem →
      ListStep A (.push l elem) (Function.update A l (some (elem :: xs)))
  | pop (l : L) (x : N) (xs : List N) : A l = some (x :: xs) → ListStep A (.pop l) (Function.update A l (some xs))
  | enqueue (l : L) (elem : N) (xs : List N) : A l = some xs → Free A elem →
      ListStep A (.enqueue l elem) (Function.update A l (some (xs ++ [elem])))
  | insertAfter (l : L) (elem nextElem : N) (as bs : List N) : A l = some (as ++ elem :: bs) → Free A nextElem →
      ListStep A (.insertAfter elem nextElem) (Function.update A l (some (as ++ elem :: nextElem :: bs)))
  | insertBefore (l : L) (elem prevElem : N) (as bs : List N) : A l = some (as ++ elem :: bs) → Free A prevElem →
      ListStep A (.insertBefore elem prevElem) (Function.update A l (some (as ++ prevElem :: elem :: bs)))
  | remove (l : L) (elem : N) (as bs : List N) : A l = some (as ++ elem :: bs) →
      ListStep A (.remove elem) (Function.update A l (some (as ++ bs)))

end A3Ll
