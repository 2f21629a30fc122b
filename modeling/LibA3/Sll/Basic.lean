import LibA3.Trans
import Mathlib.Logic.Function.Basic

/-!
# The singly-linked list (`sll.h`)

Any number of lists over one pool of nodes. The memory is what the lists' and the nodes' fields hold; a list's `end` is
the address of a link, which is its own `head` or some node's `next`.

| here | there |
| --- | --- |
| `Mem.head`, `Mem.end_` | the two fields of `A3_SLL` (`sll.h:26`) |
| `Mem.next`    | `A3_SLL_LINK` (`sll.h:33`) |
| `Cell`        | a `TY**`; `read` and `write` dereference it |
| `Fault`       | an `assert`, an access through `NULL`, a loop that has not ended within its fuel |

The link is the only field of a node that is looked at.
-/

namespace A3Sll

variable {L N : Type}

inductive Cell (L N : Type) where
  | head (l : L)
  | next (n : N)
deriving DecidableEq, Repr

structure Mem (L N : Type) where
  head : L → Option N
  end_ : L → Cell L N
  next : N → Option N

inductive Fault where
  | assertion
  | nullDeref
  | diverges
deriving DecidableEq, Repr

/-- An element, `NULL`, or an address at which there is no element. -/
inductive Elem (N : Type) where
  | null
  | node (n : N)
  | wild
deriving DecidableEq, Repr

def Mem.read (m : Mem L N) : Cell L N → Option N
  | .head l => m.head l
  | .next n => m.next n

theorem head_eq (m : Mem L N) (l : L) : m.head l = m.read (.head l) := rfl

theorem next_eq (m : Mem L N) (n : N) : m.next n = m.read (.next n) := rfl

variable [DecidableEq L] [DecidableEq N]

def Mem.write (m : Mem L N) (c : Cell L N) (v : Option N) : Mem L N :=
  match c with
  | .head l => { m with head := Function.update m.head l v }
  | .next n => { m with next := Function.update m.next n v }

/-- `(LIST)->end = c` -/
def Mem.setEnd (m : Mem L N) (l : L) (c : Cell L N) : Mem L N := { m with end_ := Function.update m.end_ l c }

/-- `A3_CONTAINER_OF(c, TY, FIELD)` of a link's address -/
def containerOf : Cell L N → Elem N
  | .head _ => .wild
  | .next n => .node n

/-! ## The operations -/

/-- `A3_SLL_INIT` (`sll.h:39`), and `A3_SLL_DESTROY` -/
def init (m : Mem L N) (l : L) : Mem L N := (m.write (.head l) none).setEnd l (.head l)

/-- `A3_SLL_IS_EMPTY` (`sll.h:54`) -/
def isEmpty (m : Mem L N) (l : L) : Bool := m.head l = none

/-- `A3_SLL_END` (`sll.h:58`) -/
def endElem (m : Mem L N) (l : L) : Elem N := if isEmpty m l then .null else containerOf (m.end_ l)

/-- `A3_SLL_INSERT_AFTER` (`sll.h:65`) -/
def insertAfter (m : Mem L N) (elem nextElem : N) : Mem L N :=
  (m.write (.next nextElem) (m.next elem)).write (.next elem) (some nextElem)

/-- `A3_SLL_POP` (`sll.h:75`), and `A3_SLL_DEQUEUE` -/
def pop (m : Mem L N) (l : L) : Except Fault (Mem L N) :=
  match m.head l with
  | none => .error .assertion
  | some h =>
    let m := m.write (.head l) (m.next h)
    .ok (if m.head l = none then m.setEnd l (.head l) else m)

/-- The `while` of `A3_SLL_REMOVE` (`sll.h:97`): the element before `elem` -/
def findLoop (m : Mem L N) (elem : N) : Nat → Option N → Except Fault (Option N)
  | 0, _ => .error .diverges
  | _ + 1, none => .ok none
  | fuel + 1, some it => if m.next it = some elem then .ok (some it) else findLoop m elem fuel (m.next it)

/-- `A3_SLL_REMOVE` (`sll.h:86`) -/
def remove (fuel : Nat) (m : Mem L N) (l : L) (elem : N) : Except Fault (Mem L N) :=
  if m.head l = some elem then pop m l
  else do
    match ← findLoop m elem fuel (m.head l) with
    | none => throw .assertion
    | some it =>
      match m.next it with
      | none => throw .nullDeref
      | some x =>
        let m := m.write (.next it) (m.next x)
        return if m.next it = none then m.setEnd l (.next it) else m

/-- `A3_SLL_PUSH` (`sll.h:107`) -/
def push (m : Mem L N) (l : L) (elem : N) : Mem L N :=
  let m := m.write (.next elem) (m.head l)
  let m := if m.next elem = none then m.setEnd l (.next elem) else m
  m.write (.head l) (some elem)

/-- `A3_SLL_FIXUP` (`sll.h:119`) -/
def fixup (l : L) : Nat → Mem L N → Except Fault (Mem L N)
  | 0, _ => .error .diverges
  | fuel + 1, m =>
    match m.read (m.end_ l) with
    | none => .ok m
    | some n => fixup l fuel (m.setEnd l (.next n))

/-- `A3_SLL_ENQUEUE` (`sll.h:131`) -/
def enqueue (fuel : Nat) (m : Mem L N) (l : L) (elem : N) : Except Fault (Mem L N) := do
  let m ← fixup l fuel m
  let m := m.write (.next elem) none
  let m := m.write (m.end_ l) (some elem)
  return m.setEnd l (.next elem)

/-- The loop of `A3_SLL_FOR_EACH` (`sll.h:146`), with a body that changes no link: the items it is run on -/
def forEachLoop (m : Mem L N) : Nat → Option N → Option N → Except Fault (List N)
  | 0, _, _ => .error .diverges
  | _ + 1, none, _ => .ok []
  | fuel + 1, some item, itemNext => do
    let rest ← forEachLoop m fuel itemNext (itemNext.bind m.next)
    return item :: rest

def forEach (fuel : Nat) (m : Mem L N) (l : L) : Except Fault (List N) :=
  forEachLoop m fuel (m.head l) ((m.head l).bind m.next)

/-- The cells `A3_SLL_FIXUP` reads starting from `c`; the last is the one `A3_SLL_ENQUEUE` writes. -/
def fixupReads (m : Mem L N) : Nat → Cell L N → List (Cell L N)
  | 0, _ => []
  | fuel + 1, c =>
    match m.read c with
    | none => [c]
    | some n => c :: fixupReads m fuel (.next n)

/-! ## Calls -/

inductive Op (L N : Type) where
  | init (l : L)
  | push (l : L) (elem : N)
  | pop (l : L)
  | remove (l : L) (elem : N)
  | insertAfter (elem nextElem : N)
  | enqueue (l : L) (elem : N)

def exec (fuel : Nat) (m : Mem L N) : Op L N → Except Fault (Mem L N)
  | .init l => .ok (init m l)
  | .push l elem => .ok (push m l elem)
  | .pop l => pop m l
  | .remove l elem => remove fuel m l elem
  | .insertAfter elem nextElem => .ok (insertAfter m elem nextElem)
  | .enqueue l elem => enqueue fuel m l elem

/-- The call ends, in `m'`. -/
def Returns (m : Mem L N) (op : Op L N) (m' : Mem L N) : Prop := ∃ k, ∀ fuel, k ≤ fuel → exec fuel m op = .ok m'

/-- `A3_SLL_FOR_EACH` over the list ends, and visits `xs`. -/
def Traverses (m : Mem L N) (l : L) (xs : List N) : Prop := ∃ k, ∀ fuel, k ≤ fuel → forEach fuel m l = .ok xs

/-! ## The memory after an access -/

variable (m : Mem L N) (l : L) (c : Cell L N) (v : Option N)

@[simp] theorem read_write : (m.write c v).read = Function.update m.read c v := by
  funext d
  cases c <;> cases d <;> simp [Mem.write, Mem.read, Function.update_apply]

omit [DecidableEq N] in
@[simp] theorem read_setEnd : (m.setEnd l c).read = m.read := by
  funext d
  cases d <;> rfl

@[simp] theorem end_write : (m.write c v).end_ = m.end_ := by cases c <;> rfl

omit [DecidableEq N] in
@[simp] theorem end_setEnd : (m.setEnd l c).end_ = Function.update m.end_ l c := rfl

end A3Sll
