import LibA3.Mem.Chunk
import Mathlib.Algebra.Group.Nat.Defs

/-!
# The vector (`vec.c`, `vec.h`)

One vector and the blocks that have been allocated for it.

| here | there |
| --- | --- |
| `SizeT`     | the arithmetic of `size_t` |
| `Block`     | what one `a3_shim_aligned_alloc` returned: its bytes, and whether it has not been freed yet |
| `Vec`       | `A3Vec` (`vec.h:29`); `buf` is `NULL` or the number of a block |
| `Ptr`       | a `void*` into a block: its number and an offset |
| `junk`      | what freshly allocated storage holds |
| `Fault`     | an `assert`, an access through `NULL`, outside a block or to a freed one, a second `free`, a loop out of fuel |

Allocation succeeds. The element pushed is given by its bytes.
-/

namespace A3Vec

open Mem

structure SizeT where
  add : Nat → Nat → Nat
  sub : Nat → Nat → Nat
  mul : Nat → Nat → Nat

/-- `size_t` of `w` bits -/
def SizeT.bits (w : Nat) : SizeT where
  add a b := (a + b) % 2 ^ w
  sub a b := (a + 2 ^ w - b) % 2 ^ w
  mul a b := a * b % 2 ^ w

/-- `size_t` as long as nothing overflows -/
def SizeT.exact : SizeT where
  add a b := a + b
  sub a b := a - b
  mul a b := a * b

structure Block where
  bytes : List UInt8
  live : Bool

structure Vec where
  cap : Nat
  len : Nat
  elemSize : Nat
  elemAlign : Nat
  buf : Option Nat

structure St where
  vec : Vec
  heap : List Block

abbrev Ptr := Nat × Nat

inductive Fault where
  | assertion
  | nullDeref
  | outOfBounds
  | useAfterFree
  | doubleFree
  | diverges
deriving DecidableEq, Repr

/-! ## Storage -/

/-- What block `b` holds at first. -/
def fresh (junk : Nat → Nat → UInt8) (b n : Nat) : List UInt8 := (List.range n).map (junk b)

/-- `a3_shim_aligned_alloc` (`shim/aligned_alloc.c:17`) -/
def alloc (junk : Nat → Nat → UInt8) (heap : List Block) (size align : Nat) : Except Fault (List Block × Nat) :=
  if 0 < size ∧ 0 < align then
    .ok (heap ++ [⟨fresh junk heap.length size, true⟩], heap.length)
  else .error .assertion

/-- `a3_shim_aligned_free` (`shim/aligned_alloc.c:32`) -/
def free (heap : List Block) (b : Nat) : Except Fault (List Block) :=
  match heap[b]? with
  | none => .error .outOfBounds
  | some block => if block.live then .ok (heap.set b { block with live := false }) else .error .doubleFree

def load (heap : List Block) (p : Ptr) (n : Nat) : Except Fault (List UInt8) :=
  match heap[p.1]? with
  | none => .error .outOfBounds
  | some block =>
    if !block.live then .error .useAfterFree
    else if p.2 + n ≤ block.bytes.length then .ok (window block.bytes p.2 (p.2 + n))
    else .error .outOfBounds

def store (heap : List Block) (p : Ptr) (bytes : List UInt8) : Except Fault (List Block) :=
  match heap[p.1]? with
  | none => .error .outOfBounds
  | some block =>
    if !block.live then .error .useAfterFree
    else if p.2 + bytes.length ≤ block.bytes.length then
      .ok (heap.set p.1 { block with bytes := splice block.bytes p.2 bytes })
    else .error .outOfBounds

/-! ## The operations -/

/-- `align_down` (`vec.c:17`): `v & ~(align - 1)` -/
def alignDown (z : SizeT) (v align : Nat) : Nat := v - (v &&& z.sub align 1)

/-- `align_up` (`vec.c:18`) -/
def alignUp (z : SizeT) (v align : Nat) : Nat := alignDown z (z.sub (z.add v align) 1) align

/-- `a3_vec_index` (`vec.c:20`) -/
def index (z : SizeT) (vec : Vec) (i : Nat) : Option Ptr :=
  match vec.buf with
  | none => none
  | some b => if i > vec.cap then none else some (b, z.mul i vec.elemSize)

/-- `a3_vec_init_` (`vec.c:29`) -/
def init (z : SizeT) (junk : Nat → Nat → UInt8) (elemSize elemAlign cap : Nat) : Except Fault St := do
  if ¬(0 < elemSize ∧ 0 < elemAlign) then throw .assertion
  let vec : Vec := ⟨cap, 0, alignUp z elemSize elemAlign, elemAlign, none⟩
  if cap ≠ 0 then
    let (heap, b) ← alloc junk [] (z.mul cap elemSize) elemAlign
    return ⟨{ vec with buf := some b }, heap⟩
  else return ⟨vec, []⟩

/-- The `while` of `a3_vec_reserve` (`vec.c:71`) -/
def growCap (z : SizeT) (len additional : Nat) : Nat → Nat → Except Fault Nat
  | 0, _ => .error .diverges
  | fuel + 1, cap =>
    if z.sub cap len < additional then growCap z len additional fuel (z.mul cap 2) else .ok cap

/-- `a3_vec_reserve` (`vec.c:59`) -/
def reserve (z : SizeT) (junk : Nat → Nat → UInt8) (fuel : Nat) (s : St) (additional : Nat) : Except Fault St :=
  if z.add s.vec.len additional ≤ s.vec.cap then .ok s
  else
    match s.vec.buf with
    | none => do
      let (heap, b) ← alloc junk s.heap (z.mul additional s.vec.elemSize) s.vec.elemAlign
      return ⟨{ s.vec with cap := additional, buf := some b }, heap⟩
    | some b => do
      let cap ← growCap z s.vec.len additional fuel s.vec.cap
      let (heap, newBuf) ← alloc junk s.heap (z.mul cap s.vec.elemSize) s.vec.elemAlign
      let bytes ← load heap (b, 0) (z.mul s.vec.len s.vec.elemSize)
      let heap ← store heap (newBuf, 0) bytes
      let heap ← free heap b
      return ⟨{ s.vec with cap := cap, buf := some newBuf }, heap⟩

/-- `a3_vec_write_ptr_` (`vec.c:43`) -/
def writePtr (z : SizeT) (junk : Nat → Nat → UInt8) (fuel : Nat) (s : St) : Except Fault (St × Option Ptr) := do
  let s ← reserve z junk fuel s 1
  return ({ s with vec := { s.vec with len := z.add s.vec.len 1 } }, index z s.vec s.vec.len)

/-- `a3_vec_pop_` (`vec.c:50`) -/
def popPtr (z : SizeT) (s : St) : St × Option Ptr :=
  if s.vec.buf = none ∨ s.vec.len = 0 then (s, none)
  else
    let vec := { s.vec with len := s.vec.len - 1 }
    ({ s with vec := vec }, index z vec vec.len)

/-- `a3_vec_destroy` (`vec.c:80`), and `A3_VEC_CLEAR` -/
def destroy (s : St) : Except Fault St := do
  let heap ←
    match s.vec.buf with
    | none => .ok s.heap
    | some b => free s.heap b
  return ⟨{ s.vec with len := 0, cap := 0 }, heap⟩

/-- `a3_vec_at` (`vec.c:89`) -/
def atPtr (z : SizeT) (s : St) (i : Nat) : Except Fault (Option Ptr) :=
  if i ≥ s.vec.len then .ok none
  else
    match s.vec.buf with
    | none => .error .nullDeref
    | some b => .ok (some (b, z.mul i s.vec.elemSize))

/-- `A3_VEC_PUSH` (`vec.h:71`): `elem_size` of the bytes at the element's address -/
def push (z : SizeT) (junk : Nat → Nat → UInt8) (fuel : Nat) (s : St) (elem : List UInt8) : Except Fault St := do
  let (s, p) ← writePtr z junk fuel s
  match p with
  | none => throw .nullDeref
  | some p =>
    if elem.length < s.vec.elemSize then throw .outOfBounds
    let heap ← store s.heap p (elem.take s.vec.elemSize)
    return { s with heap := heap }

/-- `A3_VEC_POP` (`vec.h:77`), for a type of the given size and alignment -/
def pop (z : SizeT) (size align : Nat) (s : St) : Except Fault (St × List UInt8) := do
  if ¬(size = s.vec.elemSize ∧ align = s.vec.elemAlign ∧ s.vec.len ≠ 0) then throw .assertion
  let (s, p) := popPtr z s
  match p with
  | none => throw .nullDeref
  | some p => return (s, ← load s.heap p size)

/-! ## Calls -/

inductive Call where
  | push (elem : List UInt8)
  | pop
  | reserve (additional : Nat)
  | at' (i : Nat)
  | clear

inductive Out where
  | done
  | null
  | elem (bytes : List UInt8)
deriving DecidableEq, Repr

/-- One call on a vector of a type of the given size and alignment. The element found by `a3_vec_at` is read. -/
def exec (z : SizeT) (junk : Nat → Nat → UInt8) (size align fuel : Nat) (s : St) : Call → Except Fault (St × Out)
  | .push elem => do return (← push z junk fuel s elem, .done)
  | .pop => do
    let (s, bytes) ← pop z size align s
    return (s, .elem bytes)
  | .reserve additional => do return (← reserve z junk fuel s additional, .done)
  | .at' i => do
    match ← atPtr z s i with
    | none => return (s, .null)
    | some p => return (s, .elem (← load s.heap p size))
  | .clear => do return (← destroy s, .done)

end A3Vec
