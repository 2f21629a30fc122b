import LibA3.Ht.Basic

/-!
# The cache (`cache.h`)

A hash table that may not grow, with one "accessed" bit per slot in words of `size_t` (64 bits) and an
index where the last eviction stopped. An entry that finds the table full takes the place of the first
occupied slot from there on whose bit is clear.

| here | there |
| --- | --- |
| `Cache`         | `A3_CACHE(K, V)` (`cache.h:33`) |
| `Handed`        | one call of the eviction callback: what it is given, and the table at that moment |
| `Fault`         | a panic or assertion of `cache.h`, a word index outside `accessed`, a table loop that does not return |
| `Except Fault`  | a call that ends in one of these, or returns |

The word array is as long as `calloc` was asked to make it. The table's own operations are those of
`LibA3.Ht.Basic`.
-/

namespace A3Cache

open A3Ht

variable {K V : Type}

inductive Fault where
  | diverge
  | outOfBounds
  | assertion
  /-- "Unable to evict an entry. This shouldn't be possible." -/
  | unableToEvict
  /-- "Unable to insert after eviction." -/
  | unableToInsert
deriving DecidableEq, Repr

structure Handed (K V : Type) where
  key : K
  value : V
  table : HT K V

structure Cache (K V : Type) where
  evictionIndex : Nat
  /-- whether `eviction_callback` is set -/
  evictionCallback : Bool
  accessed : List (BitVec 64)
  table : HT K V

/-- `A3_CACHE_ENTRIES_PER_BLOCK` -/
def entriesPerBlock : Nat := 64

/-- `A3_CACHE_BLOCK_FULL` -/
def blockFull : BitVec 64 := BitVec.allOnes 64

variable [Inhabited K] [Inhabited V]

/-- A call into the table. -/
def returns {α : Type} : Option α → Except Fault α
  | none => .error .diverge
  | some a => .ok a

/-- `cache->accessed[w]` -/
def word (c : Cache K V) (w : Nat) : Except Fault (BitVec 64) :=
  match c.accessed[w]? with
  | none => .error .outOfBounds
  | some block => .ok block

/-- `memset(cache->accessed, 0, cache->table.cap / A3_CACHE_ENTRIES_PER_BLOCK * sizeof(size_t))` -/
def resetAccessed (c : Cache K V) : Except Fault (Cache K V) :=
  if c.table.cap / entriesPerBlock ≤ c.accessed.length then
    .ok { c with accessed := List.replicate (c.table.cap / entriesPerBlock) 0#64 ++
      c.accessed.drop (c.table.cap / entriesPerBlock) }
  else .error .outOfBounds

/-- `A3_CACHE_INIT` (`cache.h:72`). It asserts `capacity > 0`, and `A3_HT_RESIZE` that it is more than the
    initial capacity of the table. -/
def init (M : Methods K) (rand : Nat → UInt8) (capacity : Nat) (evictionCallback : Bool) :
    Except Fault (Cache K V) := do
  if 0 < capacity ∧ M.initialCap < capacity then
    let table ← returns (resize M (A3Ht.init M none rand false) capacity)
    return { evictionIndex := 0, evictionCallback := evictionCallback,
             accessed := List.replicate (capacity / entriesPerBlock) 0#64, table := table }
  else throw .assertion

/-- `A3_CACHE_ACCESS` (`cache.h:110`) -/
def access (c : Cache K V) (index : Nat) : Except Fault (Cache K V) := do
  let block ← word c (index / entriesPerBlock)
  let bit := 1#64 <<< (index % entriesPerBlock)
  let kept := if block ||| bit = blockFull then 0#64 else block
  return { c with accessed := c.accessed.set (index / entriesPerBlock) (kept ||| bit) }

/-- `A3_CACHE_ACCESSED` (`cache.h:119`) -/
def accessed (c : Cache K V) (index : Nat) : Except Fault Bool := do
  let block ← word c (index / entriesPerBlock)
  return block &&& 1#64 <<< (index % entriesPerBlock) ≠ 0

/-- `A3_CACHE_FIND` (`cache.h:125`): the value the returned pointer points at. -/
def find (M : Methods K) (c : Cache K V) (key : K) : Except Fault (Cache K V × Option V) := do
  match ← returns (findIndex M c.table key) with
  | none => return (c, none)
  | some i =>
    if i < c.table.cap then
      let c' ← access c i
      return (c', some (c'.table.entry i).value)
    else throw .assertion

/-- The eviction callback, if set, on the entry in slot `i`. -/
def callback (set : Bool) (t : HT K V) (i : Nat) : List (Handed K V) :=
  if set then [⟨(t.entry i).key, (t.entry i).value, t⟩] else []

/-- The `do … while` of `A3_CACHE_EVICT` (`cache.h:141`): `found`, and where `eviction_index` stopped. -/
def evictLoop : Nat → Cache K V → Nat → Nat → Except Fault (Bool × Nat)
  | 0, _, _, _ => .error .diverge
  | fuel + 1, c, start, i => do
    let recent ← accessed c i
    if recent = false ∧ (c.table.entry i).hash ≠ 0 then return (true, i)
    else if (i + 1) % c.table.cap ≠ start then evictLoop fuel c start ((i + 1) % c.table.cap)
    else return (false, (i + 1) % c.table.cap)

/-- `A3_CACHE_EVICT` (`cache.h:136`) -/
def evict (c : Cache K V) : Except Fault (Cache K V × List (Handed K V)) := do
  let start := c.evictionIndex
  let (found, i) ← evictLoop (c.table.cap + 1) c start start
  if i = start ∧ found = false then throw .unableToEvict
  else
    let table ← returns (deleteIndex c.table i)
    let c' ← resetAccessed { c with evictionIndex := i, table := table }
    return (c', callback c.evictionCallback c.table i)

/-- `A3_CACHE_INSERT` (`cache.h:163`) -/
def insert (M : Methods K) (c : Cache K V) (key : K) (value : V) :
    Except Fault (Cache K V × List (Handed K V)) := do
  let (table, inserted) ← returns (A3Ht.insert M c.table key value)
  if inserted then
    let (c', _) ← find M { c with table := table } key
    return (c', [])
  else
    let (c1, handed) ← evict { c with table := table }
    let (table, inserted) ← returns (A3Ht.insert M c1.table key value)
    if inserted then
      let (c', _) ← find M { c1 with table := table } key
      return (c', handed)
    else throw .unableToInsert

/-- The `for` of `A3_CACHE_CLEAR` (`cache.h:177`), with `i + n = cap`. -/
def clearLoop (set : Bool) : Nat → HT K V → Nat → Except Fault (HT K V × List (Handed K V))
  | 0, t, _ => .ok (t, [])
  | n + 1, t, i =>
    if (t.entry i).hash = 0 then clearLoop set n t (i + 1)
    else do
      let t' ← returns (deleteIndex t i)
      let (t'', handed) ← clearLoop set n t' (i + 1)
      return (t'', callback set t i ++ handed)

/-- `A3_CACHE_CLEAR` (`cache.h:174`) -/
def clear (c : Cache K V) : Except Fault (Cache K V × List (Handed K V)) := do
  let (table, handed) ← clearLoop c.evictionCallback c.table.cap c.table 0
  let c' ← resetAccessed { c with table := table }
  return (c', handed)

end A3Cache
