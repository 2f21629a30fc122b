import LibA3.Str.Basic
import Mathlib.Data.Nat.Digits.Lemmas

/-!
# `a3_string_itoa_into`

The digits come out of the loop last one first (`itoaLoop_eq`); `a3_string_reverse` turns them round
(`stringReverse_eq`), and what is left is the decimal numeral (`itoaInto_eq`).
-/

namespace A3Str

open Fallible Mem

/-! ## `a3_string_reverse` -/

/-- After `i` swaps of the first `len` cells of `xs`, the outer `i` on either side have changed places. -/
def Swapped (xs : List UInt8) (len i : Nat) (ys : List UInt8) : Prop :=
  ys.length = xs.length ∧
    ∀ k, ys[k]? = if k < len ∧ (k < i ∨ len ≤ k + i) then xs[len - 1 - k]? else xs[k]?

theorem Swapped.zero (xs : List UInt8) (len : Nat) : Swapped xs len 0 xs := by
  refine ⟨rfl, fun k => ?_⟩
  rw [if_neg (by omega)]

/-- One more swap. -/
theorem Swapped.step {xs ys : List UInt8} {len i : Nat} (h : Swapped xs len i ys) (hi : i < len / 2)
    (hi1 : i < ys.length) (hj1 : len - 1 - i < ys.length) :
    Swapped xs len (i + 1) ((ys.set i (ys.get ⟨len - 1 - i, hj1⟩)).set (len - 1 - i) (ys.get ⟨i, hi1⟩)) := by
  obtain ⟨hys, hget⟩ := h
  -- neither of the two cells has been swapped yet
  have hi2 : some (ys.get ⟨i, hi1⟩) = xs[i]? := by
    rw [List.get_eq_getElem, ← List.getElem?_eq_getElem hi1, hget i, if_neg (by omega)]
  have hj2 : some (ys.get ⟨len - 1 - i, hj1⟩) = xs[len - 1 - i]? := by
    rw [List.get_eq_getElem, ← List.getElem?_eq_getElem hj1, hget (len - 1 - i), if_neg (by omega)]
  refine ⟨by rw [List.length_set, List.length_set, hys], fun k => ?_⟩
  rw [List.getElem?_set, List.getElem?_set, List.length_set]
  by_cases hkj : len - 1 - i = k
  · rw [if_pos hkj, if_pos (hkj ▸ hj1), hi2, if_pos (by omega)]
    congr 1
    omega
  · rw [if_neg hkj]
    by_cases hki : i = k
    · rw [if_pos hki, if_pos (hki ▸ hi1), hj2, if_pos (by omega), hki]
    · rw [if_neg hki, hget k]
      have hiff : (k < len ∧ (k < i ∨ len ≤ k + i)) ↔ (k < len ∧ (k < i + 1 ∨ len ≤ k + (i + 1))) := by omega
      simp only [hiff]

theorem reverseLoop_eq {xs : List UInt8} {ptr len : Nat} (hp : ptr ≠ 0) (hlen : len ≤ xs.length) :
    ∀ (n i : Nat) (ys : List UInt8), Swapped xs len i ys → i + n = len / 2 →
      ∃ zs, reverseLoop n i ⟨ptr, len, ys⟩ = .ok ⟨ptr, len, zs⟩ ∧ Swapped xs len (len / 2) zs := by
  intro n
  induction n with
  | zero =>
    intro i ys hsw hi
    rw [← hi]
    exact ⟨ys, rfl, hsw⟩
  | succ n ih =>
    intro i ys hsw hi
    have hi1 : i < ys.length := by rw [hsw.1]; omega
    have hj1 : len - 1 - i < ys.length := by rw [hsw.1]; omega
    have hj2 : len - 1 - i < (ys.set i (ys.get ⟨len - 1 - i, hj1⟩)).length := by rw [List.length_set]; exact hj1
    obtain ⟨zs, hzs, hsw'⟩ := ih (i + 1) _ (hsw.step (by omega) hi1 hj1) (by omega)
    refine ⟨zs, ?_, hsw'⟩
    rw [← hzs, reverseLoop, A3String.load_eq hp hi1, ok_bind, window_singleton hi1, A3String.load_eq hp hj1, ok_bind,
      window_singleton hj1, A3String.store_eq hp hi1, ok_bind, splice_singleton hi1]
    have hstore : (A3String.mk ptr len (ys.set i (ys.get ⟨len - 1 - i, hj1⟩))).store (len - 1 - i) [ys.get ⟨i, hi1⟩] =
        .ok ⟨ptr, len, splice (ys.set i (ys.get ⟨len - 1 - i, hj1⟩)) (len - 1 - i) [ys.get ⟨i, hi1⟩]⟩ :=
      A3String.store_eq hp hj2
    rw [hstore, ok_bind, splice_singleton hj2]

/-- **`a3_string_reverse` (`str.c:75`)** -/
theorem stringReverse_eq {str : A3String} (hp : str.ptr ≠ 0) (hlen : str.len ≤ str.bytes.length) :
    stringReverse str =
      .ok { str with bytes := (str.bytes.take str.len).reverse ++ str.bytes.drop str.len } := by
  obtain ⟨ys, hys, hlen', hget⟩ := reverseLoop_eq hp hlen (str.len / 2) 0 str.bytes (Swapped.zero _ _) (Nat.zero_add _)
  have htake : (str.bytes.take str.len).length = str.len := by rw [List.length_take, Nat.min_eq_left hlen]
  have heq : ys = (str.bytes.take str.len).reverse ++ str.bytes.drop str.len := by
    apply List.ext_getElem?
    intro k
    rw [hget k]
    by_cases hk : k < str.len
    · rw [List.getElem?_append_left (by rw [List.length_reverse, htake]; exact hk),
        List.getElem?_reverse (by rw [htake]; exact hk), htake, List.getElem?_take_of_lt (by omega)]
      split
      · rfl
      · -- the middle cell
        congr 1
        omega
    · rw [if_neg (by omega), List.getElem?_append_right (by rw [List.length_reverse, htake]; omega),
        List.length_reverse, htake, List.getElem?_drop]
      congr 1
      omega
  rw [stringReverse, hys, heq]

/-! ## The decimal numeral -/

/-- The decimal numeral of `v`. -/
def decimal (v : Nat) : List UInt8 :=
  if v = 0 then [digit 0] else ((Nat.digits 10 v).map digit).reverse

/-- The last digit comes first out of the loop. -/
theorem decimal_eq (v : Nat) :
    decimal v = if v / 10 = 0 then [digit (v % 10)] else decimal (v / 10) ++ [digit (v % 10)] := by
  by_cases h0 : v = 0
  · subst h0; rfl
  · have hdigits : Nat.digits 10 v = v % 10 :: Nat.digits 10 (v / 10) :=
      Nat.digits_def' (by omega) (Nat.pos_of_ne_zero h0)
    rw [decimal, if_neg h0, hdigits, List.map_cons, List.reverse_cons]
    split
    · next h10 => rw [h10, Nat.digits_zero]; rfl
    · next h10 => rw [decimal, if_neg h10]

theorem length_decimal_pos (v : Nat) : 0 < (decimal v).length := by
  rw [decimal_eq]
  split
  · exact Nat.one_pos
  · rw [List.length_append]; exact Nat.succ_pos _

/-- A number below `10 ^ k` has at most `k` digits. -/
theorem length_decimal_le {v k : Nat} (hk : 0 < k) (h : v < 10 ^ k) : (decimal v).length ≤ k := by
  rw [decimal]
  split
  · exact hk
  · rw [List.length_reverse, List.length_map]
    exact (Nat.digits_length_le_iff (by omega) v).2 h

/-- The 20 bytes of `a3_buf_write_num` are enough (`buffer.c:110`). -/
theorem length_decimal_uint64 (v : UInt64) : (decimal v.toNat).length ≤ 20 :=
  length_decimal_le (by omega) (Nat.lt_trans v.toNat_lt (by norm_num))

/-! ## `a3_string_itoa_into` -/

theorem itoaLoop_eq : ∀ (fuel : Nat) (dst : A3String) (i v : Nat), dst.ptr ≠ 0 → dst.len ≤ dst.bytes.length →
    i + (decimal v).length ≤ dst.len → (decimal v).length ≤ fuel →
    itoaLoop fuel dst i v =
      .ok ({ dst with bytes := splice dst.bytes i (decimal v).reverse }, i + (decimal v).length) := by
  intro fuel
  induction fuel with
  | zero =>
    intro dst i v _ _ _ hfuel
    exact absurd (length_decimal_pos v) (by omega)
  | succ fuel ih =>
    intro dst i v hp hblk hroom hfuel
    have hpos := length_decimal_pos v
    have hi : i + [digit (v % 10)].length ≤ dst.bytes.length := by
      rw [List.length_singleton]; omega
    rw [itoaLoop, A3String.store_eq hp hi, ok_bind]
    simp only
    by_cases hv : v / 10 = 0
    · have hdec : decimal v = [digit (v % 10)] := by rw [decimal_eq, if_pos hv]
      rw [if_neg (fun h => h.2 hv), hdec]
      rfl
    · have hdec : decimal v = decimal (v / 10) ++ [digit (v % 10)] := by rw [decimal_eq, if_neg hv]
      have hlen : (decimal v).length = (decimal (v / 10)).length + 1 := by rw [hdec, List.length_append]; rfl
      have hpos' := length_decimal_pos (v / 10)
      have hblk' : dst.len ≤ (splice dst.bytes i [digit (v % 10)]).length := by rw [length_splice hi]; exact hblk
      have hnext := ih ⟨dst.ptr, dst.len, splice dst.bytes i [digit (v % 10)]⟩ (i + 1) (v / 10) hp hblk'
        (by simp only; omega) (by omega)
      have hsplice : splice (splice dst.bytes i [digit (v % 10)]) (i + 1) (decimal (v / 10)).reverse =
          splice dst.bytes i ([digit (v % 10)] ++ (decimal (v / 10)).reverse) := splice_splice hi
      have hcount : i + (decimal v).length = i + 1 + (decimal (v / 10)).length := by omega
      have hrev : (decimal v).reverse = [digit (v % 10)] ++ (decimal (v / 10)).reverse := by
        rw [hdec, List.reverse_append]; rfl
      rw [if_pos ⟨by omega, hv⟩, hnext, hsplice, hcount, hrev]

/-- **`a3_string_itoa_into` (`str.c:94`)** writes the decimal numeral where it fits, and nothing after it. -/
theorem itoaInto_eq {dst : A3String} {v : Nat} (hp : dst.ptr ≠ 0) (hblk : dst.len ≤ dst.bytes.length)
    (hroom : (decimal v).length ≤ dst.len) :
    itoaInto dst v =
      .ok ⟨dst.ptr, (decimal v).length, decimal v ++ dst.bytes.drop (decimal v).length⟩ := by
  have hrev : (decimal v).reverse.length = (decimal v).length := List.length_reverse
  have hfit : 0 + (decimal v).reverse.length ≤ dst.bytes.length := by omega
  rw [itoaInto, itoaLoop_eq (dst.len + 1) dst 0 v hp hblk (by omega) (by omega), ok_bind]
  simp only [Nat.zero_add]
  have htake : (splice dst.bytes 0 (decimal v).reverse).take (decimal v).length = (decimal v).reverse := by
    have h : (splice dst.bytes 0 (decimal v).reverse).take (0 + (decimal v).reverse.length) =
        dst.bytes.take 0 ++ (decimal v).reverse := take_splice_end (Nat.zero_le _)
    rwa [Nat.zero_add, hrev, List.take_zero, List.nil_append] at h
  have hlen : (decimal v).length ≤ (splice dst.bytes 0 (decimal v).reverse).length := by
    rw [length_splice hfit]; omega
  have hreverse : stringReverse ⟨dst.ptr, (decimal v).length, splice dst.bytes 0 (decimal v).reverse⟩ = _ :=
    stringReverse_eq hp hlen
  rw [hreverse]
  simp only
  rw [htake, List.reverse_reverse, drop_splice (by omega) hfit]

end A3Str
