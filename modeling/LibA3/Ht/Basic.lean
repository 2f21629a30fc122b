/-!
# The hash table (`ht.h`)

Open addressing with Robin Hood displacement. A slot is empty iff its stored hash is 0
(`A3_HT_HASH` never returns 0); what a deleted slot keeps as key and value is never read.

| here | there |
| --- | --- |
| `Methods`     | one use of `A3_HT_DEFINE_METHODS_HASHER(K, V, H, C)` (`ht.h:209`), with the tunables of `ht.h:34-42` |
| `Entry`, `HT` | `A3_HT_ENTRY(K, V)`, `A3_HT(K, V)` (`ht.h:75-89`) |
| `Option`      | a loop that has not returned within its fuel is `none`; `cap + 1` iterations are always enough |

`size_t` and `uint64_t` values are `Nat`: capacities are those for which `size * 100` and `cap * 100`
do not overflow. `A3_SSIZE_T` results are `Option Nat`, `-1` being `none`. Allocation succeeds.
-/

namespace A3Ht

variable {K V : Type}

/-- The hash and comparator a table is instantiated with. `H` sees of the table its hash key only. -/
structure Methods (K : Type) where
  /-- `A3_HT_INITIAL_CAP` -/
  initialCap : Nat
  /-- `A3_HT_LOAD_FACTOR` -/
  loadFactor : Nat
  H : List UInt8 → K → Nat
  C : K → K → Int
  initialCap_pos : 1 ≤ initialCap
  loadFactor_le : loadFactor ≤ 100
  /-- `C` is zero exactly for equal keys: "equal" is an equivalence of the caller's. -/
  C_equiv : Equivalence fun a b => C a b = 0
  /-- Equal keys have equal hashes. -/
  H_congr : ∀ (hashKey : List UInt8) (a b : K), C a b = 0 → H hashKey a = H hashKey b

/-- The load factor of `ht.h`, where none is given. -/
theorem defaultLoadFactor_le : 90 ≤ 100 := by decide

/-- A `C` that does not tell keys apart. -/
theorem equivalence_zero (K : Type) : Equivalence fun _ _ : K => (0 : Int) = 0 :=
  ⟨fun _ => rfl, fun _ => rfl, fun _ _ => rfl⟩

/-- `A3_HT_ENTRY(K, V)` -/
structure Entry (K V : Type) where
  key : K
  value : V
  hash : Nat
deriving DecidableEq, Repr

/-- A zeroed entry, as `calloc` hands it out. -/
instance [Inhabited K] [Inhabited V] : Inhabited (Entry K V) := ⟨⟨default, default, 0⟩⟩

/-- `A3_HT(K, V)`. A duplicate callback gets the stored value by reference and the new one, and returns
    what it leaves in the first and its result. -/
structure HT (K V : Type) where
  canGrow : Bool
  size : Nat
  cap : Nat
  hashKey : List UInt8
  duplicateCb : Option (V → V → V × Bool)
  entries : List (Entry K V)

/-- `A3_HT_HASH_KEY_SIZE` -/
def hashKeySize : Nat := 4

/-- `sizeof(table->hash_key[0])` -/
def hashWordSize : Nat := 8

variable [Inhabited K] [Inhabited V]

namespace HT

/-- `table->entries[i]` -/
def entry (t : HT K V) (i : Nat) : Entry K V := t.entries.getD i default

/-- `table->entries[i] = e` -/
def setEntry (t : HT K V) (i : Nat) (e : Entry K V) : HT K V := { t with entries := t.entries.set i e }

/-- `table->entries[i].hash = 0` -/
def clearHash (t : HT K V) (i : Nat) : HT K V := t.setEntry i { t.entry i with hash := 0 }

/-- `A3_HT_PROBE_COUNT` (`ht.h:216`) -/
def probeCount (t : HT K V) (index hash : Nat) : Nat := (index + t.cap - hash % t.cap) % t.cap

end HT

/-- `A3_HT_HASH` (`ht.h:210`) -/
def hash (M : Methods K) (t : HT K V) (key : K) : Nat :=
  let ret := M.H t.hashKey key
  if ret ≠ 0 then ret else 1

/-! ## `A3_HT_INSERT_AT` -/

/-- The `for (;;)` of `A3_HT_INSERT_AT` (`ht.h:227`); `e` is the triple `key`, `value`, `hash` in hand. -/
def insertAtLoop (M : Methods K) : Nat → HT K V → Nat → Nat → Entry K V → Option (HT K V × Bool)
  | 0, _, _, _, _ => none
  | fuel + 1, t, i, probeCount, e =>
    let current := t.entry i
    if current.hash = 0 then some (t.setEntry i e, true)
    else if e.hash = current.hash ∧ M.C e.key current.key = 0 then
      match t.duplicateCb with
      | none => some (t, false)
      | some cb =>
        let (value, ret) := cb current.value e.value
        some (t.setEntry i { current with value := value }, ret)
    else if t.probeCount i current.hash < probeCount then
      -- take the slot, and go on with its old occupant
      insertAtLoop M fuel (t.setEntry i e) ((i + 1) % t.cap) (t.probeCount i current.hash + 1) current
    else insertAtLoop M fuel t ((i + 1) % t.cap) (probeCount + 1) e

/-- `A3_HT_INSERT_AT` (`ht.h:221`) -/
def insertAt (M : Methods K) (t : HT K V) (hash : Nat) (key : K) (value : V) : Option (HT K V × Bool) :=
  insertAtLoop M (t.cap + 1) t (hash % t.cap) 0 ⟨key, value, hash⟩

/-! ## `A3_HT_NEXT_ENTRY`, `A3_HT_FOR_EACH` -/

/-- `A3_HT_NEXT_ENTRY` (`ht.h:259`), with `index + n = cap`. -/
def nextEntryLoop (t : HT K V) : Nat → Nat → Option Nat
  | 0, _ => none
  | n + 1, index => if (t.entry index).hash ≠ 0 then some index else nextEntryLoop t n (index + 1)

def nextEntry (t : HT K V) (index : Nat) : Option Nat := nextEntryLoop t (t.cap - index) index

/-- The loop of `A3_HT_FOR_EACH` (`ht.h:427`): the entries whose `key` and `value` the body is run on. -/
def forEachLoop (t : HT K V) : Nat → Option Nat → List (Entry K V)
  | 0, _ => []
  | _ + 1, none => []
  | fuel + 1, some i => if i < t.cap then t.entry i :: forEachLoop t fuel (nextEntry t (i + 1)) else []

def forEach (t : HT K V) : List (Entry K V) := forEachLoop t (t.cap + 1) (nextEntry t 0)

/-! ## `A3_HT_RESIZE`, `A3_HT_GROW` -/

/-- The reinsertion loop of `A3_HT_RESIZE` (`ht.h:275`), over the previous entries. -/
def reinsert (M : Methods K) : HT K V → List (Entry K V) → Option (HT K V)
  | t, [] => some t
  | t, current :: rest =>
    if current.hash = 0 then reinsert M t rest
    else match insertAt M t current.hash current.key current.value with
      | none => none
      | some (t', _) => reinsert M t' rest

/-- `A3_HT_RESIZE` (`ht.h:266`). It asserts `new_cap > table->cap`. -/
def resize (M : Methods K) (t : HT K V) (newCap : Nat) : Option (HT K V) :=
  reinsert M { t with cap := newCap, entries := List.replicate newCap default } (t.entries.take t.cap)

/-- `A3_HT_GROW` (`ht.h:286`) -/
def grow (M : Methods K) (t : HT K V) : Option (HT K V × Bool) :=
  if t.canGrow = false then some (t, false)
  else (resize M t (t.cap * 2)).map fun t' => (t', true)

/-! ## `A3_HT_FIND` -/

/-- The `for (;;)` of `A3_HT_FIND_INDEX` (`ht.h:298`) -/
def findIndexLoop (M : Methods K) : Nat → HT K V → Nat → Nat → Nat → K → Option (Option Nat)
  | 0, _, _, _, _, _ => none
  | fuel + 1, t, i, probeCount, hash, key =>
    let current := t.entry i
    if current.hash = 0 ∨ t.probeCount i current.hash < probeCount then some none
    else if hash = current.hash ∧ M.C key current.key = 0 then some (some i)
    else findIndexLoop M fuel t ((i + 1) % t.cap) (probeCount + 1) hash key

/-- `A3_HT_FIND_INDEX` (`ht.h:294`) -/
def findIndex (M : Methods K) (t : HT K V) (key : K) : Option (Option Nat) :=
  findIndexLoop M (t.cap + 1) t (hash M t key % t.cap) 0 (hash M t key) key

/-- `A3_HT_FIND_ENTRY` (`ht.h:309`) -/
def findEntry (M : Methods K) (t : HT K V) (key : K) : Option (Option (Entry K V)) :=
  (findIndex M t key).map fun i => i.map t.entry

/-- `A3_HT_FIND` (`ht.h:369`): the value the returned pointer points at. -/
def find (M : Methods K) (t : HT K V) (key : K) : Option (Option V) :=
  (findEntry M t key).map fun e => e.map Entry.value

/-! ## `A3_HT_INIT`, `A3_HT_SET_DUPLICATE_CB`, `A3_HT_INSERT` -/

/-- The bytes of `table->hash_key` after `A3_HT_INIT` (`ht.h:323-330`): the first `A3_HT_HASH_KEY_SIZE`
    bytes of the caller's key over zeroes, or one random byte after another. -/
def initHashKey (key : Option (List UInt8)) (rand : Nat → UInt8) : List UInt8 :=
  match key with
  | some k => k.take hashKeySize ++ List.replicate (hashKeySize * hashWordSize - hashKeySize) 0
  | none => (List.range (hashKeySize * hashWordSize)).map rand

/-- `A3_HT_INIT` (`ht.h:317`) -/
def init (M : Methods K) (key : Option (List UInt8)) (rand : Nat → UInt8) (canGrow : Bool) : HT K V :=
  { canGrow := canGrow, size := 0, cap := M.initialCap, hashKey := initHashKey key rand, duplicateCb := none,
    entries := List.replicate M.initialCap default }

/-- `A3_HT_SET_DUPLICATE_CB` (`ht.h:341`) -/
def setDuplicateCb (t : HT K V) (cb : Option (V → V → V × Bool)) : HT K V := { t with duplicateCb := cb }

/-- The last two statements of `A3_HT_INSERT` (`ht.h:365-366`). -/
def insertCounted (M : Methods K) (t : HT K V) (key : K) (value : V) : Option (HT K V × Bool) :=
  insertAt M { t with size := t.size + 1 } (hash M t key) key value

/-- `A3_HT_INSERT` (`ht.h:358`) -/
def insert (M : Methods K) (t : HT K V) (key : K) (value : V) : Option (HT K V × Bool) :=
  if t.size * 100 ≥ t.cap * M.loadFactor then
    match grow M t with
    | none => none
    | some (t', grown) =>
      if grown = false ∧ t'.size ≥ t'.cap then some (t', false) else insertCounted M t' key value
  else insertCounted M t key value

/-! ## `A3_HT_DELETE` -/

/-- The `while` of `A3_HT_DELETE_INDEX` (`ht.h:388`): `index` is the slot of `entry`, `i` the one of
    `next_entry`. -/
def deleteIndexLoop : Nat → HT K V → Nat → Nat → Option (HT K V)
  | 0, _, _, _ => none
  | fuel + 1, t, index, i =>
    let next := t.entry i
    if next.hash ≠ 0 ∧ t.probeCount i next.hash ≠ 0 then
      let t' := t.clearHash index
      deleteIndexLoop fuel (t'.setEntry index (t'.entry i)) i ((i + 1) % t.cap)
    else some (t.clearHash index)

/-- `A3_HT_DELETE_INDEX` (`ht.h:377`). It always returns `true`. -/
def deleteIndex (t : HT K V) (index : Nat) : Option (HT K V) :=
  let t' := { t.clearHash index with size := t.size - 1 }
  deleteIndexLoop (t.cap + 1) t' index ((index + 1) % t.cap)

/-- `A3_HT_DELETE` (`ht.h:400`) -/
def delete (M : Methods K) (t : HT K V) (key : K) : Option (HT K V × Bool) :=
  match findIndex M t key with
  | none => none
  | some none => some (t, false)
  | some (some index) => (deleteIndex t index).map fun t' => (t', true)

end A3Ht
