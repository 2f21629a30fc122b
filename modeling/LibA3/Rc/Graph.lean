import LibA3.Rc.Basic

/-!
# Objects that hold handles (`rc.hh`, `rc.h`)

The same code for a type `T` with members of type `Rc<T>`. A handle is a variable or a member of an object; the members of
an object are destructed when the object is, the last one first, before the destructor of the base, and to destruct a member
may destroy the object it points to.

| here | there |
| --- | --- |
| `Rc`      | a handle: the object it is a member of, or `none` for a variable, and `ptr` |
| `handles` | none once the handle's destructor has run |
| `owner`   | where a handle is constructed |
| `Fault`   | an `assert`, an access to what is deleted, destructed or not there, an `unref` not ended within its fuel |

`operator=(Rc&&)` returns `*this`. `T` has no destructor of its own.
-/

namespace A3RcGraph

open A3Rc (RefCounted)

structure Rc where
  owner : Option Nat
  ptr : Option Nat
deriving DecidableEq, Repr

structure St where
  objects : List RefCounted
  handles : List (Option Rc)
deriving DecidableEq, Repr

inductive Fault where
  | assertion
  | useAfterFree
  | wild
  | diverges
deriving DecidableEq, Repr

/-! ## Handles -/

/-- A handle whose lifetime has begun and not ended. -/
def St.rc? (s : St) (h : Nat) : Option Rc := (s.handles[h]?).join

def owner (s : St) (h : Nat) : Option Nat := (s.rc? h).bind Rc.owner

/-- What handle `h` points to. -/
def pointee (s : St) (h : Nat) : Option Nat := (s.rc? h).bind Rc.ptr

def St.ptr (s : St) (h : Nat) : Except Fault (Option Nat) :=
  match s.handles[h]? with
  | some (some rc) => .ok rc.ptr
  | some none => .error .useAfterFree
  | none => .error .wild

def St.setPtr (s : St) (h : Nat) (p : Option Nat) : Except Fault St :=
  match s.handles[h]? with
  | some (some rc) => .ok { s with handles := s.handles.set h (some { rc with ptr := p }) }
  | some none => .error .useAfterFree
  | none => .error .wild

def St.construct (s : St) (owner p : Option Nat) : St := { s with handles := s.handles ++ [some ⟨owner, p⟩] }

def St.drop (s : St) (h : Nat) : St := { s with handles := s.handles.set h none }

/-! ## The count -/

/-- `A3_REF_COUNT` (`rc.h:45`) -/
def refCount (s : St) (o : Nat) : Except Fault Nat :=
  match s.objects[o]? with
  | none => .error .wild
  | some obj => if obj.destroyed then .error .useAfterFree else .ok obj.refCount

def St.setCount (s : St) (o count : Nat) : St := { s with objects := s.objects.set o ⟨count, false⟩ }

/-- `A3_REF` (`rc.h:51`) -/
def ref (w : Nat) (s : St) (o : Nat) : Except Fault St := do
  let count ← refCount s o
  return s.setCount o ((count + 1) % 2 ^ w)

/-- `if (ptr) ptr->ref();` -/
def refPtr (w : Nat) (s : St) : Option Nat → Except Fault St
  | none => .ok s
  | some o => ref w s o

/-- `~Rc` (`rc.hh:107`), by what `ptr->unref()` does -/
def destruct (unref : St → Nat → Except Fault St) (s : St) (this : Nat) : Except Fault St := do
  match ← s.ptr this with
  | none => return s.drop this
  | some o =>
    if (← refCount s o) = 0 then throw .assertion
    return (← unref s o).drop this

/-- The members of an object, in the order in which they are destructed. -/
def members (s : St) (o : Nat) : List Nat :=
  ((List.range s.handles.length).filter fun h => owner s h == some o).reverse

/-- `RefCounted::destroy` (`rc.hh:40`): the members' destructors, and then the base's with its assertion (`rc.hh:54`) -/
def destroy (unref : St → Nat → Except Fault St) (s : St) (o : Nat) : Except Fault St := do
  let s ← (members s o).foldlM (destruct unref) s
  let count ← refCount s o
  if count ≠ 0 then throw .assertion
  return { s with objects := s.objects.set o ⟨count, true⟩ }

/-- `A3_UNREF_D` (`rc.h:54`) with `destroy` -/
def unref : Nat → St → Nat → Except Fault St
  | 0, _, _ => .error .diverges
  | fuel + 1, s, o => do
    let count ← refCount s o
    if ¬count > 0 then throw .assertion
    let s := s.setCount o (count - 1)
    if count - 1 = 0 then destroy (unref fuel) s o else return s

/-- `if (ptr) ptr->unref();` -/
def unrefPtr (fuel : Nat) (s : St) : Option Nat → Except Fault St
  | none => .ok s
  | some o => unref fuel s o

/-! ## `RefCounted` and `Rc` -/

/-- `new T { .. }`: the constructor of the base sets the count (`rc.hh:52`, `A3_REF_INIT`). -/
def newObject (w : Nat) (s : St) : St := { s with objects := s.objects ++ [⟨1 % 2 ^ w, false⟩] }

/-- `Rc(T*)` (`rc.hh:71`) -/
def ofPtr (w : Nat) (s : St) (owner target : Option Nat) : Except Fault St := refPtr w (s.construct owner target) target

/-- `Rc(const Rc&)` (`rc.hh:77`) -/
def copy (w : Nat) (s : St) (owner : Option Nat) (other : Nat) : Except Fault St := do
  let p ← s.ptr other
  refPtr w (s.construct owner p) p

/-- `Rc(Rc&&)` (`rc.hh:83`) -/
def move (s : St) (owner : Option Nat) (other : Nat) : Except Fault St := do
  let p ← s.ptr other
  (s.construct owner p).setPtr other none

/-- `operator=(const Rc&)` (`rc.hh:87`) -/
def copyAssign (w fuel : Nat) (s : St) (this other : Nat) : Except Fault St := do
  if other = this then return s
  let s ← unrefPtr fuel s (← s.ptr this)
  let s ← s.setPtr this (← s.ptr other)
  refPtr w s (← s.ptr this)

/-- `operator=(Rc&&)` (`rc.hh:100`) -/
def moveAssign (fuel : Nat) (s : St) (this other : Nat) : Except Fault St := do
  let s ← unrefPtr fuel s (← s.ptr this)
  let s ← s.setPtr this (← s.ptr other)
  s.setPtr other none

/-- `Rc::adopt` (`rc.hh:116`); the handle returned is `ret`. -/
def adopt (s : St) (owner target : Option Nat) : Except Fault St := (s.construct owner none).setPtr s.handles.length target

/-- `Rc::create` (`rc.hh:124`) -/
def create (w : Nat) (s : St) (owner : Option Nat) : Except Fault St := adopt (newObject w s) owner (some s.objects.length)

/-! ## Operations -/

inductive Op where
  | new
  | adopt (owner target : Option Nat)
  | create (owner : Option Nat)
  | ofPtr (owner target : Option Nat)
  | copy (owner : Option Nat) (other : Nat)
  | move (owner : Option Nat) (other : Nat)
  | copyAssign (this other : Nat)
  | moveAssign (this other : Nat)
  | destruct (this : Nat)
deriving DecidableEq, Repr

def exec (w fuel : Nat) (s : St) : Op → Except Fault St
  | .new => .ok (newObject w s)
  | .adopt owner target => adopt s owner target
  | .create owner => create w s owner
  | .ofPtr owner target => ofPtr w s owner target
  | .copy owner other => copy w s owner other
  | .move owner other => move s owner other
  | .copyAssign this other => copyAssign w fuel s this other
  | .moveAssign this other => moveAssign fuel s this other
  | .destruct this => destruct (unref fuel) s this

end A3RcGraph
