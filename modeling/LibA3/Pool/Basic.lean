import LibA3.Mem.Block
import LibA3.Mem.Word

/-!
# The pool allocator (`pool.c`)

Addresses, pointers and `size_t` are of 64 bits. The storage is the bytes from address `data` on; a free block's link to
the next one is in its last bytes.

| here | there |
| --- | --- |
| `Pool`     | `A3Pool` (`pool.c:31`); 0 is `NULL` |
| `bytes`    | the storage, `cap` bytes from `data` on |
| `base`     | what `a3_shim_aligned_alloc` returns |
| `Callback` | an `A3PoolCallback`: what it leaves in the object, given what it finds there |
| `inits`    | the objects that the init callback has been called with, the last one first |
| `Fault`    | an `assert`, an access outside of the storage |
-/

namespace A3Pool

open Mem

/-- `size_t` and `uintptr_t` -/
def wrap (n : Nat) : Nat := n % 2 ^ 64

structure Callback where
  run : Nat → List UInt8 → List UInt8
  length_run : ∀ obj bytes, (run obj bytes).length = bytes.length

structure Pool where
  data : Nat
  free : Nat
  objSize : Nat
  cap : Nat
  zeroBlocks : Bool
  freeCb : Option Callback

structure St where
  pool : Pool
  bytes : List UInt8
  inits : List Nat

inductive Fault where
  | assertion
  | outOfBounds
deriving DecidableEq, Repr

def load (s : St) (addr n : Nat) : Except Fault (List UInt8) :=
  if s.pool.data ≤ addr ∧ addr + n ≤ s.pool.data + s.bytes.length then
    .ok (window s.bytes (addr - s.pool.data) (addr - s.pool.data + n))
  else .error .outOfBounds

def store (s : St) (addr : Nat) (bytes : List UInt8) : Except Fault St :=
  if s.pool.data ≤ addr ∧ addr + bytes.length ≤ s.pool.data + s.bytes.length then
    .ok { s with bytes := splice s.bytes (addr - s.pool.data) bytes }
  else .error .outOfBounds

def St.withFree (s : St) (free : Nat) : St := { s with pool := { s.pool with free := free } }

/-! ## Layout -/

/-- `align_down` (`pool.c:20`): `v & ~(align - 1)` -/
def alignDown (v align : Nat) : Nat := v - (v &&& wrap (align + 2 ^ 64 - 1))

/-- `align_up` (`pool.c:21`) -/
def alignUp (v align : Nat) : Nat := alignDown (wrap (v + align + 2 ^ 64 - 1)) align

/-- `SLOT_OFFSET`, `alignof(A3PoolSlot)` being 8 -/
def slotOffset (objSize : Nat) : Nat := alignUp objSize 8

/-- `SLOT_OBJ` -/
def slotObj (objSize slot : Nat) : Nat := wrap (slot + 2 ^ 64 - slotOffset objSize)

/-- `OBJ_SLOT` -/
def objSlot (objSize obj : Nat) : Nat := wrap (obj + slotOffset objSize)

/-- `block_size` (`pool.c:44`), `sizeof(A3PoolSlot)` being 8 -/
def blockSize (objSize align : Nat) : Nat := alignUp (wrap (slotOffset objSize + 8)) align

/-- `cap` (`pool.c:51`) -/
def capacity (objSize blocks align : Nat) : Nat := wrap (blocks * blockSize objSize align)

/-! ## The operations -/

def callInit (initCb : Option Callback) (s : St) (obj : Nat) : Except Fault St :=
  match initCb with
  | none => .ok s
  | some cb => do
    let s ← store s obj (cb.run obj (← load s obj s.pool.objSize))
    return { s with inits := obj :: s.inits }

/-- The loop of `a3_pool_new` (`pool.c:57`), from block `i` on -/
def linkSlots (blockSize : Nat) (initCb : Option Callback) : Nat → Nat → St → Except Fault St
  | 0, _, s => .ok s
  | n + 1, i, s => do
    let slot := wrap (s.pool.data + blockSize * i + slotOffset s.pool.objSize)
    let s ← store s slot (toBytes 8 (wrap (s.pool.data + (i + 1) * blockSize + slotOffset s.pool.objSize)))
    let s ← callInit initCb s (slotObj s.pool.objSize slot)
    linkSlots blockSize initCb n (i + 1) s

/-- `a3_pool_new` (`pool.c:41`); the assertions are those of `a3_shim_aligned_alloc`. -/
def newPool (base objSize blocks align : Nat) (zeroBlocks : Bool) (initCb freeCb : Option Callback) : Except Fault St := do
  let cap := capacity objSize blocks align
  if ¬(0 < cap ∧ 0 < align) then throw .assertion
  let pool : Pool := ⟨base, objSlot objSize base, objSize, cap, zeroBlocks, freeCb⟩
  linkSlots (blockSize objSize align) initCb (wrap (blocks + 2 ^ 64 - 1)) 0 ⟨pool, List.replicate cap 0, []⟩

/-- `a3_pool_alloc_block` (`pool.c:66`) -/
def allocBlock (s : St) : Except Fault (St × Option Nat) := do
  if s.pool.free = 0 then return (s, none)
  let slot := s.pool.free
  let next ← load s slot 8
  let s ← store (s.withFree (ofBytes next)) slot (toBytes 8 0)
  return (s, some (slotObj s.pool.objSize slot))

/-- The `memset` of `a3_pool_free_block` -/
def zeroBlock (s : St) (block : Nat) : Except Fault St :=
  if s.pool.zeroBlocks then store s block (List.replicate s.pool.objSize 0) else .ok s

/-- `a3_pool_free_block` (`pool.c:79`) -/
def freeBlock (s : St) (block : Nat) : Except Fault St := do
  if block = 0 then throw .assertion
  let s ← zeroBlock s block
  let slot := objSlot s.pool.objSize block
  let s ← store s slot (toBytes 8 s.pool.free)
  return s.withFree slot

/-! ## Calls -/

inductive Call where
  | alloc
  | free (block : Nat)
  | write (block offset : Nat) (bytes : List UInt8)
deriving DecidableEq, Repr

/-- A call, or what a client writes into an object. -/
def exec (s : St) : Call → Except Fault (St × Option Nat)
  | .alloc => allocBlock s
  | .free block => do return (← freeBlock s block, none)
  | .write block offset bytes => do return (← store s (wrap (block + offset)) bytes, none)

end A3Pool
