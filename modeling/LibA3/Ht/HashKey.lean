import LibA3.Ht.Basic
import LibA3.Mem.Block
import LibA3.Mem.Word

/-!
# The hash key

`A3_HT_DEFAULT_HASH` hands all four words of `table->hash_key` to HighwayHash64. `A3_HT_INIT` copies as many bytes of the
caller's key as there are words: the other 28 bytes are zero, whatever the key.

* `hash_under_key_iff` — the table's hashes are those under the caller's key exactly if the bytes not copied are zero
-/

namespace A3Ht

open Mem

variable {K V : Type} {key key' : List UInt8} {i : Nat}

/-- `table->hash_key`, the array of `uint64_t` -/
def hashKeyWords (hashKey : List UInt8) : List Nat :=
  (List.range hashKeySize).map fun i => ofBytes (window hashKey (i * hashWordSize) (i * hashWordSize + hashWordSize))

/-- `A3_HT_DEFAULT_HASH` (`ht.h:417`); `KEY_BYTES` and `KEY_SIZE` are `keyBytes`. -/
def defaultHash (highwayHash64 : List UInt8 → List Nat → Nat) (keyBytes : K → List UInt8) (hashKey : List UInt8) (key : K) :
    Nat :=
  highwayHash64 (keyBytes key) (hashKeyWords hashKey)

/-- 0 replaced by 1 -/
def nonzero (n : Nat) : Nat := if n ≠ 0 then n else 1

/-- The hashes of a table that `A3_HT_INIT` was given `hashKey` for are HighwayHash64 under the words of `hashKey`. -/
def HashesUnder (K V : Type) [Inhabited K] [Inhabited V] (hashKey : List UInt8) : Prop :=
  ∀ (highwayHash64 : List UInt8 → List Nat → Nat) (keyBytes : K → List UInt8) (M : Methods K) (rand : Nat → UInt8)
    (canGrow : Bool) (key : K), M.H = defaultHash highwayHash64 keyBytes →
    hash M (init M (some hashKey) rand canGrow : HT K V) key = nonzero (highwayHash64 (keyBytes key) (hashKeyWords hashKey))

/-! ## Words and bytes -/

theorem hashKeyWords_inj (hlen : key.length = 32) (hlen' : key'.length = 32) (h : hashKeyWords key = hashKeyWords key') :
    key = key' := by
  have hword : ∀ i < 4, window key (i * 8) (i * 8 + 8) = window key' (i * 8) (i * 8 + 8) := by
    intro i hi
    refine ofBytes_inj ?_ (List.map_inj_left.1 h i (List.mem_range.2 hi))
    rw [length_window (by omega), length_window (by omega)]
  apply List.ext_getElem?
  intro j
  by_cases hj : j < 32
  · have hsplit : j / 8 * 8 + j % 8 = j := by omega
    have hin : j < j / 8 * 8 + 8 := by omega
    have hbyte := congrArg (·[j % 8]?) (hword (j / 8) (by omega))
    simp only [getElem?_window, hsplit] at hbyte
    rwa [if_pos hin, if_pos hin] at hbyte
  · rw [List.getElem?_eq_none (by omega), List.getElem?_eq_none (by omega)]

theorem length_initHashKey (hlen : key.length = 32) (rand : Nat → UInt8) : (initHashKey (some key) rand).length = 32 := by
  simp [initHashKey, hashKeySize, hashWordSize, hlen]

/-- The key is kept if what is not copied of it is zero. -/
theorem initHashKey_eq_iff (rand : Nat → UInt8) :
    initHashKey (some key) rand = key ↔ key.drop 4 = List.replicate 28 0 := by
  have hsplit : key.take 4 ++ key.drop 4 = key := List.take_append_drop 4 key
  constructor
  · intro h
    have h' : key.take 4 ++ List.replicate 28 0 = key.take 4 ++ key.drop 4 := h.trans hsplit.symm
    exact (List.append_cancel_left h').symm
  · intro h
    rw [h] at hsplit
    exact hsplit

theorem initHashKey_congr_iff (rand : Nat → UInt8) :
    initHashKey (some key) rand = initHashKey (some key') rand ↔ key.take 4 = key'.take 4 := by
  constructor
  · exact fun h => List.append_cancel_right h
  · intro h
    simp only [initHashKey, hashKeySize, h]

/-! ## The table's hashes -/

section
variable [Inhabited K] [Inhabited V]

/-- A hash that tells one array of words from all others. -/
def telling (K : Type) (ws : List Nat) : Methods K where
  initialCap := 1
  loadFactor := 90
  H := defaultHash (fun _ ws' => if ws' = ws then 2 else 3) fun _ => []
  C := fun _ _ => 0
  initialCap_pos := Nat.le_refl 1
  loadFactor_le := defaultLoadFactor_le
  C_equiv := equivalence_zero K
  H_congr := fun _ _ _ _ => rfl

theorem hashesUnder_iff (hlen : key.length = 32) : HashesUnder K V key ↔ key.drop 4 = List.replicate 28 0 := by
  rw [← initHashKey_eq_iff fun _ => 0]
  constructor
  · intro h
    have htell := h (fun _ ws => if ws = hashKeyWords key then 2 else 3) (fun _ => []) (telling K (hashKeyWords key))
      (fun _ => 0) true default rfl
    simp only [hash, init, telling, defaultHash, nonzero] at htell
    refine hashKeyWords_inj (length_initHashKey hlen _) hlen ?_
    by_contra hne
    simp [hne] at htell
  · intro h highwayHash64 keyBytes M rand canGrow k hM
    have hkey : initHashKey (some key) rand = key := h
    simp only [hash, init, hM, defaultHash, hkey, nonzero]

/-- **The hash key is four bytes.** For a key of 32 bytes, `A3_HT_HASH` is HighwayHash64 under the key, whatever the latter
function, if and only if the bytes after the first four are zero; two keys give the same `hash_key` if and only if they agree
in the first four. -/
theorem hash_under_key_iff (K V : Type) [Inhabited K] [Inhabited V] (M : Methods K) (rand : Nat → UInt8) (canGrow : Bool)
    (hlen : key.length = 32) (key' : List UInt8) :
    (HashesUnder K V key ↔ key.drop 4 = List.replicate 28 0) ∧
      ((init M (some key) rand canGrow : HT K V).hashKey = (init M (some key') rand canGrow : HT K V).hashKey ↔
        key.take 4 = key'.take 4) :=
  ⟨hashesUnder_iff hlen, initHashKey_congr_iff rand⟩

end

/-- A key of which everything is copied that is not zero, and one that begins as it does. -/
theorem hash_under_key_iff_four :
    HashesUnder Nat Nat ([1, 2, 3, 4] ++ List.replicate 28 0) ∧
      ∀ rest rand canGrow,
        (init (telling Nat []) (some ([1, 2, 3, 4] ++ List.replicate 28 0)) rand canGrow : HT Nat Nat).hashKey =
          (init (telling Nat []) (some ([1, 2, 3, 4] ++ rest)) rand canGrow : HT Nat Nat).hashKey :=
  ⟨(hash_under_key_iff Nat Nat (telling Nat []) (fun _ => 0) true rfl []).1.2 rfl, fun rest rand canGrow =>
    (hash_under_key_iff Nat Nat (telling Nat []) rand canGrow rfl ([1, 2, 3, 4] ++ rest)).2.2 rfl⟩

/-- Two keys that differ in byte 4 only. -/
theorem hash_key_truncated :
    ¬HashesUnder Nat Nat ([0, 0, 0, 0, 1] ++ List.replicate 27 0) ∧
      ∀ M rand canGrow, (init M (some ([0, 0, 0, 0, 1] ++ List.replicate 27 0)) rand canGrow : HT Nat Nat).hashKey =
        (init M (some (List.replicate 32 0)) rand canGrow : HT Nat Nat).hashKey := by
  refine ⟨fun h => ?_, fun M rand canGrow => rfl⟩
  exact absurd ((hashesUnder_iff rfl).1 h) (by decide)

end A3Ht
