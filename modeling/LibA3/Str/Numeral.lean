import LibA3.Str.Itoa

/-!
# The decimal numeral

`Canonical` says what a decimal numeral of a number is; what `a3_string_itoa_into` writes is one where it fits
(`itoaInto_canonical`). Where it does not, the loop writes one digit more than there is room for (`itoaInto_confined`).
-/

namespace A3Str

open Fallible Mem

variable {dst : A3String} {v : Nat}

/-- The value of a decimal digit. -/
def digitValue (c : UInt8) : Option Nat := if 48 ≤ c ∧ c ≤ 57 then some (c.toNat - 48) else none

/-- A decimal number read from left to right. -/
def parseDecimal (text : List UInt8) : Option Nat := text.foldlM (fun v c => (digitValue c).map (10 * v + ·)) 0

/-- `text` is the decimal numeral of `v`, the only one. -/
structure Canonical (text : List UInt8) (v : Nat) : Prop where
  value : parseDecimal text = some v
  noLeadingZero : text.head? = some (digit 0) → text = [digit 0]
  length : text.length = Nat.log 10 v + 1

/-! ## Reading back -/

theorem digitValue_digit {d : Nat} (h : d < 10) : digitValue (digit d) = some d := by
  have hall : ∀ e ∈ List.range 10, digitValue (digit e) = some e := by decide
  exact hall d (List.mem_range.2 h)

theorem digit_zero_iff {d : Nat} (h : d < 10) : digit d = digit 0 ↔ d = 0 := by
  have hall : ∀ e ∈ List.range 10, digit e = digit 0 ↔ e = 0 := by decide
  exact hall d (List.mem_range.2 h)

theorem parseDecimal_append {text : List UInt8} {d : Nat} (h : parseDecimal text = some v) (hd : d < 10) :
    parseDecimal (text ++ [digit d]) = some (10 * v + d) := by
  unfold parseDecimal at h ⊢
  rw [List.foldlM_append, h]
  simp [digitValue_digit hd]

theorem parseDecimal_decimal (v : Nat) : parseDecimal (decimal v) = some v := by
  induction v using Nat.strong_induction_on with
  | _ v ih =>
    have hmod : v % 10 < 10 := Nat.mod_lt v (by omega)
    rw [decimal_eq]
    split
    · next h10 =>
      have hsmall : parseDecimal ([] ++ [digit (v % 10)]) = some (10 * 0 + v % 10) := parseDecimal_append rfl hmod
      have hv : 10 * 0 + v % 10 = v := by omega
      rwa [List.nil_append, hv] at hsmall
    · next h10 =>
      have hrest := parseDecimal_append (ih (v / 10) (by omega)) hmod
      rwa [Nat.div_add_mod] at hrest

/-- Only the numeral of 0 starts with a zero. -/
theorem decimal_head (v : Nat) (h : (decimal v).head? = some (digit 0)) : v = 0 := by
  induction v using Nat.strong_induction_on with
  | _ v ih =>
    rw [decimal_eq] at h
    split at h
    · have hmod : v % 10 = 0 := (digit_zero_iff (Nat.mod_lt v (by omega))).1 (Option.some.inj h)
      omega
    · have hne : decimal (v / 10) ≠ [] := List.ne_nil_of_length_pos (length_decimal_pos _)
      rw [List.head?_append_of_ne_nil _ hne] at h
      have hzero := ih (v / 10) (by omega) h
      contradiction

theorem length_decimal (v : Nat) : (decimal v).length = Nat.log 10 v + 1 := by
  rw [decimal]
  split
  · next h =>
    rw [h, Nat.log_zero_right]
    rfl
  · next h => rw [List.length_reverse, List.length_map, Nat.length_digits 10 v (by omega) h]

theorem canonical_decimal (v : Nat) : Canonical (decimal v) v := by
  refine ⟨parseDecimal_decimal v, fun h => ?_, length_decimal v⟩
  rw [decimal_head v h]
  rfl

/-! ## Where the numeral fits -/

theorem itoaInto_canonical (hp : dst.ptr ≠ 0) (hblk : dst.len ≤ dst.bytes.length) (hroom : Nat.log 10 v + 1 ≤ dst.len) :
    ∃ r, itoaInto dst v = .ok r ∧ r.ptr = dst.ptr ∧ r.len = Nat.log 10 v + 1 ∧ Canonical (r.bytes.take r.len) v ∧
      r.bytes.length = dst.bytes.length ∧ r.bytes.drop r.len = dst.bytes.drop r.len := by
  rw [← length_decimal] at hroom ⊢
  refine ⟨_, itoaInto_eq hp hblk hroom, rfl, rfl, ?_, ?_, ?_⟩
  · simp only
    rw [List.take_left]
    exact canonical_decimal v
  · simp only
    rw [List.length_append, List.length_drop]
    omega
  · simp only
    rw [List.drop_left]

/-! ## Where it does not -/

/-- The call stays within the first `len` bytes: it returns a string of at most that length, leaves the bytes behind it
alone, and needs none of them. -/
structure Confined (dst : A3String) (v : Nat) : Prop where
  returns : ∃ r, itoaInto dst v = .ok r ∧ r.len ≤ dst.len ∧ r.bytes.drop dst.len = dst.bytes.drop dst.len
  within : ∃ r, itoaInto { dst with bytes := dst.bytes.take dst.len } v = .ok r

/-- The loop runs off a block that ends with the string, if the digits do not fit. -/
theorem itoaLoop_overrun : ∀ (fuel : Nat) (dst : A3String) (i v : Nat), dst.ptr ≠ 0 → dst.bytes.length = dst.len →
    i ≤ dst.len → dst.len < i + (decimal v).length → dst.len - i < fuel →
    itoaLoop fuel dst i v = .error .outOfBounds := by
  intro fuel
  induction fuel with
  | zero => exact fun _ _ _ _ _ _ _ hfuel => absurd hfuel (Nat.not_lt_zero _)
  | succ fuel ih =>
    intro dst i v hp hblk hi hlong hfuel
    rcases Nat.eq_or_lt_of_le hi with rfl | hlt
    · -- the store behind the last byte
      have hout : ¬dst.len + [digit (v % 10)].length ≤ dst.bytes.length := by
        rw [hblk, List.length_singleton]
        omega
      rw [itoaLoop, A3String.store, if_neg hp, if_neg hout]
      rfl
    · have hone : i + [digit (v % 10)].length ≤ dst.bytes.length := by
        rw [hblk]
        exact hlt
      have hv : v / 10 ≠ 0 := by
        intro h
        rw [decimal_eq, if_pos h, List.length_singleton] at hlong
        omega
      rw [decimal_eq, if_neg hv, List.length_append, List.length_singleton] at hlong
      have hblk' : (splice dst.bytes i [digit (v % 10)]).length = dst.len := by rw [length_splice hone, hblk]
      rw [itoaLoop, A3String.store_eq hp hone, ok_bind]
      simp only
      rw [if_pos ⟨hlt, hv⟩]
      exact ih ⟨dst.ptr, dst.len, splice dst.bytes i [digit (v % 10)]⟩ (i + 1) (v / 10) hp hblk' hlt
        (by simp only; omega) (by simp only; omega)

theorem length_decimal_le_iff {k : Nat} (hk : 0 < k) : (decimal v).length ≤ k ↔ v < 10 ^ k := by
  constructor
  · intro h
    rw [length_decimal] at h
    exact Nat.lt_pow_of_log_lt (by omega) h
  · exact length_decimal_le hk

/-- **`a3_string_itoa_into` stays within its destination if and only if the digits fit.** -/
theorem itoaInto_confined (hp : dst.ptr ≠ 0) (hlen : 1 ≤ dst.len) (hblk : dst.len ≤ dst.bytes.length) :
    Confined dst v ↔ v < 10 ^ dst.len := by
  have htake : (dst.bytes.take dst.len).length = dst.len := by rw [List.length_take, Nat.min_eq_left hblk]
  rw [← length_decimal_le_iff hlen]
  constructor
  · intro h
    obtain ⟨r, hr⟩ := h.within
    by_contra hlong
    have hloop : itoaLoop (dst.len + 1) ⟨dst.ptr, dst.len, dst.bytes.take dst.len⟩ 0 v = .error .outOfBounds :=
      itoaLoop_overrun _ _ _ _ hp htake (Nat.zero_le _) (by simp only; omega) (by simp only; omega)
    rw [itoaInto, hloop] at hr
    cases hr
  · intro hroom
    refine ⟨⟨_, itoaInto_eq hp hblk hroom, hroom, ?_⟩, ⟨_, itoaInto_eq hp (Nat.le_of_eq htake.symm) hroom⟩⟩
    simp only
    rw [List.drop_append, List.drop_eq_nil_of_le hroom, List.nil_append, List.drop_drop, Nat.add_sub_cancel' hroom]

/-- 42 in the first two bytes of three -/
theorem itoaInto_confined_42 : Confined ⟨4096, 2, [0, 0, 120]⟩ 42 :=
  (itoaInto_confined (by decide) (by decide) (by decide)).2 (by decide)

/-- 42 in the first byte of two: the byte behind it is overwritten, and the string that comes back is 2 bytes long. -/
theorem itoaInto_one_more : itoaInto ⟨4096, 1, [0, 120]⟩ 42 = .ok ⟨4096, 2, [52, 50]⟩ ∧
    ¬∀ (dst : A3String) (v : Nat), dst.ptr ≠ 0 → 1 ≤ dst.len → dst.len ≤ dst.bytes.length → v < 2 ^ 64 →
      Confined dst v := by
  have hret : itoaInto ⟨4096, 1, [0, 120]⟩ 42 = .ok ⟨4096, 2, [52, 50]⟩ := by decide
  refine ⟨hret, fun h => ?_⟩
  obtain ⟨r, hr, hle, -⟩ := (h ⟨4096, 1, [0, 120]⟩ 42 (by decide) (by decide) (by decide) (by decide)).returns
  rw [hret] at hr
  cases hr
  exact absurd hle (by decide)

end A3Str
