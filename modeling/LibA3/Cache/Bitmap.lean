import LibA3.Cache.Basic
import LibA3.RobinHood.Layout
import Mathlib.Tactic.ByContra

/-!
# The accessed bits and the eviction scan

No word of the bitmap is ever full: setting the last clear bit of a word clears the others first. So a
cache whose capacity is a multiple of the word size has a slot with a clear bit in every word, and the scan
of `A3_CACHE_EVICT` over a full table finds one. `victim c` is where it stops: the first slot from
`eviction_index` on, going round, that is occupied and whose bit is clear.
-/

namespace A3Cache

open A3Ht

variable {K V : Type}

/-! ## Words -/

theorem getLsbD_bit {k j : Nat} (hk : k < 64) : (1#64 <<< k).getLsbD j = decide (j = k) := by
  rw [BitVec.getLsbD_shiftLeft]
  by_cases hj : j = k
  · subst hj; simp [hk]
  · rcases Nat.lt_or_ge j k with h | h
    · simp [h, hj]
    · have : j - k ≠ 0 := by omega
      simp [BitVec.getLsbD_one, this, hj]

theorem and_bit_ne_zero (x : BitVec 64) {k : Nat} (hk : k < 64) :
    (x &&& 1#64 <<< k ≠ 0) ↔ x.getLsbD k = true := by
  constructor
  · intro h
    by_contra hx
    refine h (BitVec.eq_of_getLsbD_eq fun j hj => ?_)
    rw [BitVec.getLsbD_and, getLsbD_bit hk]
    by_cases hjk : j = k
    · subst hjk; simp [hx]
    · simp [hjk]
  · intro hx h0
    have := congrArg (fun y => y.getLsbD k) h0
    simp [BitVec.getLsbD_and, getLsbD_bit hk, hx] at this

theorem getLsbD_full {j : Nat} (hj : j < 64) : blockFull.getLsbD j = true := by
  rw [blockFull, BitVec.getLsbD_allOnes, decide_eq_true hj]

theorem bit_ne_full {k : Nat} (hk : k < 64) : 1#64 <<< k ≠ blockFull := by
  intro h
  obtain ⟨j, hj, hjk⟩ : ∃ j, j < 64 ∧ j ≠ k := by
    by_cases h0 : k = 0
    · exact ⟨1, by decide, by omega⟩
    · exact ⟨0, by decide, by omega⟩
  have hbit := getLsbD_full hj
  rw [← h, getLsbD_bit hk] at hbit
  exact hjk (of_decide_eq_true hbit)

theorem exists_clear_bit {x : BitVec 64} (h : x ≠ blockFull) : ∃ k, k < 64 ∧ x.getLsbD k = false := by
  by_contra hall
  refine h (BitVec.eq_of_getLsbD_eq fun j hj => ?_)
  rw [getLsbD_full hj]
  by_contra hne
  exact hall ⟨j, hj, Bool.eq_false_of_not_eq_true hne⟩

/-! ## The bits of a cache -/

/-- The bit of slot `i`. -/
def bit (c : Cache K V) (i : Nat) : Bool := (c.accessed.getD (i / entriesPerBlock) 0#64).getLsbD (i % entriesPerBlock)

/-- What the bitmap is like between calls. -/
structure Bitmap (c : Cache K V) : Prop where
  words : c.accessed.length = c.table.cap / entriesPerBlock
  not_full : ∀ block ∈ c.accessed, block ≠ blockFull

theorem mod_block_lt (i : Nat) : i % entriesPerBlock < 64 := Nat.mod_lt _ (by decide)

/-- With a capacity that is a multiple of the word size, every slot has a bit. -/
theorem block_lt {cap i : Nat} (hdvd : entriesPerBlock ∣ cap) (hi : i < cap) :
    i / entriesPerBlock < cap / entriesPerBlock := by
  obtain ⟨k, rfl⟩ := hdvd
  rw [Nat.mul_div_cancel_left _ (by decide : 0 < entriesPerBlock)]
  exact Nat.div_lt_of_lt_mul hi

theorem word_eq {c : Cache K V} {w : Nat} (h : w < c.accessed.length) : word c w = .ok (c.accessed.getD w 0#64) := by
  simp [word, h]

/-- **`A3_CACHE_ACCESSED` (`cache.h:119`)** inside the bitmap. -/
theorem accessed_eq {c : Cache K V} {i : Nat} (h : i / entriesPerBlock < c.accessed.length) :
    accessed c i = .ok (bit c i) := by
  have hb := and_bit_ne_zero (c.accessed.getD (i / entriesPerBlock) 0#64) (mod_block_lt i)
  simp only [accessed, word_eq h, bind, Except.bind, pure, Except.pure, bit]
  exact congrArg Except.ok (Bool.eq_iff_iff.2 (by simpa using hb))

/-- **`A3_CACHE_ACCESS` (`cache.h:110`)** inside the bitmap leaves no word full. -/
theorem access_spec {c : Cache K V} (b : Bitmap c) {i : Nat} (h : i / entriesPerBlock < c.accessed.length) :
    ∃ blocks, access c i = .ok { c with accessed := blocks } ∧ Bitmap { c with accessed := blocks } := by
  refine ⟨c.accessed.set (i / entriesPerBlock) ((if c.accessed.getD (i / entriesPerBlock) 0#64 |||
    1#64 <<< (i % entriesPerBlock) = blockFull then 0#64 else c.accessed.getD (i / entriesPerBlock) 0#64) |||
    1#64 <<< (i % entriesPerBlock)), ?_, ?_, ?_⟩
  · simp only [access, word_eq h, bind, Except.bind, pure, Except.pure]
  · simpa using b.words
  · intro block hblock
    rcases List.mem_or_eq_of_mem_set hblock with hmem | rfl
    · exact b.not_full block hmem
    · -- the word was about to fill up, and was cleared; or it was not
      split
      · rw [BitVec.zero_or]; exact bit_ne_full (mod_block_lt i)
      · assumption

/-- All bits are clear after a reset. -/
def AllClear (c : Cache K V) : Prop := ∀ i, i < c.table.cap → accessed c i = .ok false

theorem reset_spec {c : Cache K V} (hwords : c.accessed.length = c.table.cap / entriesPerBlock) :
    resetAccessed c = .ok { c with accessed := List.replicate (c.table.cap / entriesPerBlock) 0#64 } ∧
      Bitmap { c with accessed := List.replicate (c.table.cap / entriesPerBlock) 0#64 } := by
  refine ⟨?_, by simp, fun block hblock => ?_⟩
  · have hdrop : c.accessed.drop (c.table.cap / entriesPerBlock) = [] := List.drop_of_length_le (Nat.le_of_eq hwords)
    rw [resetAccessed, if_pos (Nat.le_of_eq hwords.symm), hdrop, List.append_nil]
  · rw [(List.mem_replicate.1 hblock).2]; decide

theorem allClear_replicate {c : Cache K V} (hdvd : entriesPerBlock ∣ c.table.cap)
    (h : c.accessed = List.replicate (c.table.cap / entriesPerBlock) 0#64) : AllClear c := by
  intro i hi
  have hlt := block_lt hdvd hi
  rw [accessed_eq (by rw [h, List.length_replicate]; exact hlt), bit, h]
  simp [hlt]

/-! ## The scan of `A3_CACHE_EVICT` -/

variable [Inhabited K] [Inhabited V]

/-- A slot the scan stops at. -/
def candidate (c : Cache K V) (i : Nat) : Bool := !bit c i && decide ((c.table.entry i).hash ≠ 0)

/-- The first such slot from `eviction_index` on. -/
def victim (c : Cache K V) : Option Nat :=
  ((List.range c.table.cap).map fun m => (c.evictionIndex + m) % c.table.cap).find? (candidate c)

/-- What is left of the scan `m` slots on. -/
def scanFrom (c : Cache K V) (n m : Nat) : Option Nat :=
  ((List.range' m n).map fun m => (c.evictionIndex + m) % c.table.cap).find? (candidate c)

theorem victim_eq_scanFrom (c : Cache K V) : victim c = scanFrom c c.table.cap 0 := by
  rw [victim, scanFrom, List.range_eq_range']

/-- **The loop of `A3_CACHE_EVICT` (`cache.h:141`)** stops at the first candidate, or goes all the way
    round. -/
theorem evictLoop_eq {c : Cache K V} (hbits : ∀ i, i < c.table.cap → accessed c i = .ok (bit c i))
    (hidx : c.evictionIndex < c.table.cap) : ∀ (n fuel m : Nat), m + (n + 1) = c.table.cap → n < fuel →
    evictLoop fuel c c.evictionIndex ((c.evictionIndex + m) % c.table.cap) =
      match scanFrom c (n + 1) m with
      | some i => .ok (true, i)
      | none => .ok (false, c.evictionIndex)
  | n, 0, m, hm, hf => by omega
  | n, fuel + 1, m, hm, hf => by
    have hslot : (c.evictionIndex + m) % c.table.cap < c.table.cap := Nat.mod_lt _ (by omega)
    have hsucc : ((c.evictionIndex + m) % c.table.cap + 1) % c.table.cap = (c.evictionIndex + (m + 1)) % c.table.cap := by
      rw [Nat.mod_add_mod, Nat.add_assoc]
    rw [evictLoop, hbits _ hslot]
    simp only [bind, Except.bind, pure, Except.pure, hsucc]
    have hscan : scanFrom c (n + 1) m =
        if candidate c ((c.evictionIndex + m) % c.table.cap) then some ((c.evictionIndex + m) % c.table.cap)
        else scanFrom c n (m + 1) := by
      simp only [scanFrom, List.range'_succ, List.map_cons, List.find?_cons]
      cases candidate c ((c.evictionIndex + m) % c.table.cap) <;> rfl
    have hcand : candidate c ((c.evictionIndex + m) % c.table.cap) = true ↔
        bit c ((c.evictionIndex + m) % c.table.cap) = false ∧
          (c.table.entry ((c.evictionIndex + m) % c.table.cap)).hash ≠ 0 := by
      simp [candidate]
    rw [hscan]
    by_cases hc : candidate c ((c.evictionIndex + m) % c.table.cap) = true
    · rw [if_pos (hcand.1 hc), if_pos hc]
    · rw [if_neg (mt hcand.2 hc), if_neg hc]
      cases n with
      | zero =>
        -- the next slot is the first one again
        have hlap : (c.evictionIndex + (m + 1)) % c.table.cap = c.evictionIndex := by
          rw [show m + 1 = c.table.cap by omega, Nat.add_mod_right, Nat.mod_eq_of_lt hidx]
        rw [if_neg (fun h => h hlap), hlap]; rfl
      | succ n =>
        have hne : (c.evictionIndex + (m + 1)) % c.table.cap ≠ c.evictionIndex := by
          intro h
          have h0 : (c.evictionIndex + (m + 1)) % c.table.cap = (c.evictionIndex + 0) % c.table.cap := by
            rw [h, Nat.add_zero, Nat.mod_eq_of_lt hidx]
          have := RobinHood.offset_inj (by omega) (by omega) h0
          omega
        rw [if_pos hne]
        exact evictLoop_eq hbits hidx n fuel (m + 1) (by omega) (by omega)

theorem victim_spec {c : Cache K V} {i : Nat} (h : victim c = some i) :
    i < c.table.cap ∧ bit c i = false ∧ (c.table.entry i).hash ≠ 0 := by
  have hc := List.find?_some h
  have hmem := List.mem_of_find?_eq_some h
  obtain ⟨m, hm, rfl⟩ := List.mem_map.1 hmem
  have hcap : 0 < c.table.cap := by have := List.mem_range.1 hm; omega
  simp only [candidate, Bool.and_eq_true, Bool.not_eq_true', decide_eq_true_eq] at hc
  exact ⟨Nat.mod_lt _ hcap, hc.1, hc.2⟩

/-- There is a victim if there is any slot to stop at. -/
theorem victim_exists {c : Cache K V} {i : Nat} (hi : i < c.table.cap) (hbit : bit c i = false)
    (hocc : (c.table.entry i).hash ≠ 0) : ∃ j, victim c = some j := by
  obtain ⟨m, hm, hmi⟩ := RobinHood.exists_offset (n := c.table.cap) (by omega) c.evictionIndex i
  rw [Nat.mod_eq_of_lt hi] at hmi
  cases hv : victim c with
  | some j => exact ⟨j, rfl⟩
  | none =>
    have := List.find?_eq_none.1 hv i (List.mem_map.2 ⟨m, List.mem_range.2 hm, hmi⟩)
    simp [candidate, hbit, hocc] at this

/-- A full table always has a victim. -/
theorem victim_of_full {c : Cache K V} (b : Bitmap c) (hdvd : entriesPerBlock ∣ c.table.cap) (hpos : 0 < c.table.cap)
    (hfull : ∀ i, i < c.table.cap → (c.table.entry i).hash ≠ 0) : ∃ i, victim c = some i := by
  have hle : entriesPerBlock ≤ c.table.cap := Nat.le_of_dvd hpos hdvd
  have h0 : 0 < c.accessed.length := by
    have := block_lt hdvd hpos
    rw [b.words]; exact Nat.lt_of_le_of_lt (Nat.zero_le _) this
  have hne : c.accessed.getD 0 0#64 ≠ blockFull := by
    have hget : c.accessed.getD 0 0#64 = c.accessed[0] := by simp [List.getD_eq_getElem?_getD, h0]
    rw [hget]; exact b.not_full _ (List.getElem_mem h0)
  -- the first word has a clear bit, and its slots are in the table
  obtain ⟨k, hk, hclear⟩ := exists_clear_bit hne
  have hkcap : k < c.table.cap := Nat.lt_of_lt_of_le hk hle
  refine victim_exists hkcap ?_ (hfull k hkcap)
  have hdiv : k / entriesPerBlock = 0 := Nat.div_eq_of_lt hk
  have hmod : k % entriesPerBlock = k := Nat.mod_eq_of_lt hk
  rw [bit, hdiv, hmod]; exact hclear

end A3Cache
