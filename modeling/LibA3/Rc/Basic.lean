import Mathlib.Algebra.Group.Nat.Defs

/-!
# Reference counting (`rc.hh`, `rc.h`)

One type `T` with a count of `w` bits: the objects made so far, numbered as they are made, and the `Rc` handles, numbered
as they are constructed.

| here | there |
| --- | --- |
| `RefCounted` | the base of an object (`rc.hh:33`): `_ref_count`, and whether the object has been deleted |
| `Rc`         | a handle (`rc.hh:63`): `ptr` is `NULL` or the number of an object |
| `handles`    | none once the handle's destructor has run |
| `deleted`    | the objects that `destroy` was called on, the last one first |
| `Fault`      | an `assert`, an access to a deleted object, the use of what is not there |

Handles are not part of an object, so `delete` runs no code of `Rc`. `operator=(Rc&&)` returns `*this`.
-/

namespace A3Rc

structure RefCounted where
  refCount : Nat
  destroyed : Bool
deriving DecidableEq, Repr

structure Rc where
  ptr : Option Nat
deriving DecidableEq, Repr

structure St where
  objects : List RefCounted
  handles : List (Option Rc)
  deleted : List Nat
deriving DecidableEq, Repr

inductive Fault where
  | assertion
  | useAfterFree
  | wild
deriving DecidableEq, Repr

/-! ## The count -/

/-- `A3_REF_COUNT` (`rc.h:45`) -/
def refCount (s : St) (o : Nat) : Except Fault Nat :=
  match s.objects[o]? with
  | none => .error .wild
  | some obj => if obj.destroyed then .error .useAfterFree else .ok obj.refCount

def St.setCount (s : St) (o count : Nat) : St := { s with objects := s.objects.set o ⟨count, false⟩ }

/-- `A3_REF` (`rc.h:51`) -/
def ref (w : Nat) (s : St) (o : Nat) : Except Fault St := do
  let count ← refCount s o
  return s.setCount o ((count + 1) % 2 ^ w)

/-- `RefCounted::destroy` (`rc.hh:40`), with the destructor's assertion (`rc.hh:54`) -/
def destroy (s : St) (o : Nat) : Except Fault St := do
  let count ← refCount s o
  if count ≠ 0 then throw .assertion
  return { s with objects := s.objects.set o ⟨count, true⟩, deleted := o :: s.deleted }

/-- `A3_UNREF_D` (`rc.h:54`) with `destroy` -/
def unref (s : St) (o : Nat) : Except Fault St := do
  let count ← refCount s o
  if ¬count > 0 then throw .assertion
  let s := s.setCount o (count - 1)
  if count - 1 = 0 then destroy s o else return s

/-- `if (ptr) ptr->ref();` -/
def refPtr (w : Nat) (s : St) : Option Nat → Except Fault St
  | none => .ok s
  | some o => ref w s o

/-- `if (ptr) ptr->unref();` -/
def unrefPtr (s : St) : Option Nat → Except Fault St
  | none => .ok s
  | some o => unref s o

/-! ## Handles -/

def St.ptr (s : St) (h : Nat) : Except Fault (Option Nat) :=
  match s.handles[h]? with
  | some (some rc) => .ok rc.ptr
  | _ => .error .wild

def St.setPtr (s : St) (h : Nat) (p : Option Nat) : St := { s with handles := s.handles.set h (some ⟨p⟩) }

/-- The lifetime of a new handle begins. -/
def St.construct (s : St) (p : Option Nat) : St := { s with handles := s.handles ++ [some ⟨p⟩] }

/-- The lifetime of a handle ends. -/
def St.drop (s : St) (h : Nat) : St := { s with handles := s.handles.set h none }

/-- `new T { .. }`: the constructor of the base sets the count (`rc.hh:52`, `A3_REF_INIT`). -/
def newObject (w : Nat) (s : St) : St := { s with objects := s.objects ++ [⟨1 % 2 ^ w, false⟩] }

/-- `Rc(T*)` (`rc.hh:71`) -/
def ofPtr (w : Nat) (s : St) (target : Option Nat) : Except Fault St := refPtr w (s.construct target) target

/-- `Rc(const Rc&)` (`rc.hh:77`) -/
def copy (w : Nat) (s : St) (other : Nat) : Except Fault St := do
  let p ← s.ptr other
  refPtr w (s.construct p) p

/-- `Rc(Rc&&)` (`rc.hh:83`) -/
def move (s : St) (other : Nat) : Except Fault St := do
  let p ← s.ptr other
  return (s.construct p).setPtr other none

/-- `operator=(const Rc&)` (`rc.hh:87`) -/
def copyAssign (w : Nat) (s : St) (this other : Nat) : Except Fault St := do
  if other = this then return s
  let s ← unrefPtr s (← s.ptr this)
  let s := s.setPtr this (← s.ptr other)
  refPtr w s (← s.ptr this)

/-- `operator=(Rc&&)` (`rc.hh:100`) -/
def moveAssign (s : St) (this other : Nat) : Except Fault St := do
  let s ← unrefPtr s (← s.ptr this)
  let s := s.setPtr this (← s.ptr other)
  return s.setPtr other none

/-- `~Rc` (`rc.hh:107`) -/
def destruct (s : St) (this : Nat) : Except Fault St := do
  match ← s.ptr this with
  | none => return s.drop this
  | some o =>
    if (← refCount s o) = 0 then throw .assertion
    return (← unref s o).drop this

/-- `Rc::adopt` (`rc.hh:116`); the handle returned is `ret`. -/
def adopt (s : St) (target : Option Nat) : St := (s.construct none).setPtr s.handles.length target

/-- `Rc::create` (`rc.hh:124`) -/
def create (w : Nat) (s : St) : St := adopt (newObject w s) (some s.objects.length)

/-! ## Operations -/

inductive Op where
  | new
  | adopt (target : Option Nat)
  | create
  | ofPtr (target : Option Nat)
  | copy (other : Nat)
  | move (other : Nat)
  | copyAssign (this other : Nat)
  | moveAssign (this other : Nat)
  | destruct (this : Nat)
deriving DecidableEq, Repr

def exec (w : Nat) (s : St) : Op → Except Fault St
  | .new => .ok (newObject w s)
  | .adopt target => .ok (adopt s target)
  | .create => .ok (create w s)
  | .ofPtr target => ofPtr w s target
  | .copy other => copy w s other
  | .move other => move s other
  | .copyAssign this other => copyAssign w s this other
  | .moveAssign this other => moveAssign s this other
  | .destruct this => destruct s this

end A3Rc
