import LibA3.Fuel
import LibA3.Mem.Align
import LibA3.Vec.Basic
import Mathlib.Data.Nat.Bitwise

/-!
# What a vector holds

`Holds` ties a vector to the list of its elements: the elements lie at the start of the block allocated last, which
has room for `cap` of them and has not been freed. A vector that has never had storage has `NULL` and capacity 0.
-/

namespace A3Vec

open Mem

variable {junk : Nat → Nat → UInt8} {size align b n m i cap : Nat} {s s' : St} {heap heap' : List Block}
  {xs as bs : List (List UInt8)} {x bytes data : List UInt8} {p : Ptr}

@[simp] theorem exact_add : SizeT.exact.add m n = m + n := rfl

@[simp] theorem exact_sub : SizeT.exact.sub m n = m - n := rfl

@[simp] theorem exact_mul : SizeT.exact.mul m n = m * n := rfl

/-! ## Storage -/

/-- Block `b` has not been freed, and holds `data`. -/
def Owns (heap : List Block) (b : Nat) (data : List UInt8) : Prop := heap[b]? = some ⟨data, true⟩

theorem Owns.lt (h : Owns heap b data) : b < heap.length := (List.getElem?_eq_some_iff.1 h).1

theorem alloc_eq (junk : Nat → Nat → UInt8) (heap : List Block) (hn : 0 < n) (ha : 0 < align) :
    alloc junk heap n align = .ok (heap ++ [⟨fresh junk heap.length n, true⟩], heap.length) :=
  if_pos ⟨hn, ha⟩

@[simp] theorem length_fresh : (fresh junk b n).length = n := by simp [fresh]

theorem owns_alloc : Owns (heap ++ [⟨data, true⟩]) heap.length data := List.getElem?_concat_length

theorem Owns.append (h : Owns heap b data) : Owns (heap ++ heap') b data := by
  rw [Owns, List.getElem?_append_left h.lt]
  exact h

theorem load_eq (h : Owns heap p.1 data) (hle : p.2 + n ≤ data.length) :
    load heap p n = .ok (window data p.2 (p.2 + n)) := by
  rw [load, h]
  exact if_pos hle

theorem store_eq (h : Owns heap p.1 data) (hle : p.2 + bytes.length ≤ data.length) :
    store heap p bytes = .ok (heap.set p.1 ⟨splice data p.2 bytes, true⟩) := by
  rw [store, h]
  exact if_pos hle

theorem free_eq (h : Owns heap b data) : free heap b = .ok (heap.set b ⟨data, false⟩) := by
  rw [free, h]
  rfl

theorem owns_set (hb : b < heap.length) : Owns (heap.set b ⟨data, true⟩) b data := List.getElem?_set_self hb

theorem Owns.set_ne {block : Block} (h : Owns heap b data) (hne : n ≠ b) : Owns (heap.set n block) b data :=
  (List.getElem?_set_ne hne).trans h

/-! ## Elements -/

structure Holds (size align : Nat) (s : St) (xs : List (List UInt8)) : Prop where
  size_pos : 0 < size
  align_pos : 0 < align
  elemSize : s.vec.elemSize = size
  elemAlign : s.vec.elemAlign = align
  len : s.vec.len = xs.length
  sized : Sized size xs
  len_le : s.vec.len ≤ s.vec.cap
  unset : s.vec.buf = none → s.vec.cap = 0
  storage : ∀ b, s.vec.buf = some b → b + 1 = s.heap.length ∧ 0 < s.vec.cap ∧
    ∃ data, Owns s.heap b data ∧ data.length = s.vec.cap * size ∧ data.take (xs.length * size) = xs.flatten

namespace Holds

theorem bytes_le (h : Holds size align s xs) (hcap : data.length = s.vec.cap * size) : xs.length * size ≤ data.length := by
  rw [hcap, ← h.len]
  exact Nat.mul_le_mul_right size h.len_le

theorem buf_of_ne_nil (h : Holds size align s xs) (hne : xs ≠ []) : ∃ b, s.vec.buf = some b := by
  cases hb : s.vec.buf with
  | none =>
    have hcap := h.unset hb
    have hlen := h.len_le
    rw [hcap, h.len] at hlen
    exact absurd (List.eq_nil_of_length_eq_zero (Nat.le_zero.1 hlen)) hne
  | some b => exact ⟨b, rfl⟩

/-- Element `i` can be read where `a3_vec_at` and `a3_vec_index` say. -/
theorem load_elem (h : Holds size align s (as ++ x :: bs)) (hb : s.vec.buf = some b) :
    load s.heap (b, as.length * size) size = .ok x := by
  obtain ⟨_, _, data, howns, hcap, hdata⟩ := h.storage b hb
  have hle := h.bytes_le hcap
  have hroom : as.length * size + size ≤ data.length := by
    refine Nat.le_trans ?_ hle
    rw [List.length_append, List.length_cons, ← Nat.succ_mul]
    exact Nat.mul_le_mul_right size (by omega)
  rw [load_eq (p := (b, as.length * size)) howns hroom, window_chunk h.sized hdata]

/-- All elements are copied by `a3_vec_reserve`. -/
theorem load_all (h : Holds size align s xs) (hb : s.vec.buf = some b) (heap' : List Block) :
    load (s.heap ++ heap') (b, 0) (s.vec.len * size) = .ok xs.flatten := by
  obtain ⟨_, _, data, howns, hcap, hdata⟩ := h.storage b hb
  have hle : 0 + xs.length * size ≤ data.length := by
    rw [Nat.zero_add]
    exact h.bytes_le hcap
  rw [h.len, load_eq (p := (b, 0)) howns.append hle, Nat.zero_add, window_zero, hdata]

end Holds

/-! ## Growing -/

theorem growCap_spec (hpos : 0 < cap) (hlen : m ≤ cap) :
    ∃ k cap', (∀ fuel, k ≤ fuel → growCap .exact m n fuel cap = .ok cap') ∧ cap ≤ cap' ∧ n ≤ cap' - m := by
  induction hd : m + n - cap using Nat.strongRecOn generalizing cap with
  | ind d ih =>
    by_cases hlt : cap - m < n
    · obtain ⟨k, cap', hgrow, hle, hroom⟩ := ih (m + n - cap * 2) (by omega) (by omega) (by omega) rfl
      refine ⟨k + 1, cap', fun fuel hfuel => ?_, by omega, hroom⟩
      obtain ⟨fuel, rfl⟩ := Fuel.succ_of_lt hfuel
      unfold growCap
      exact (if_pos hlt).trans (hgrow fuel (Nat.le_of_succ_le_succ hfuel))
    · refine ⟨1, cap, fun fuel hfuel => ?_, Nat.le_refl cap, Nat.not_lt.1 hlt⟩
      obtain ⟨fuel, rfl⟩ := Fuel.succ_of_lt hfuel
      unfold growCap
      exact if_neg hlt

/-- Without capacity the loop does not end: twice nothing is nothing. -/
theorem growCap_zero {z : SizeT} (hsub : z.sub 0 0 = 0) (hmul : z.mul 0 2 = 0) (hn : 0 < n) (fuel : Nat) :
    growCap z 0 n fuel 0 = .error .diverges := by
  induction fuel with
  | zero => rfl
  | succ fuel ih =>
    have hlt : z.sub 0 0 < n := by rwa [hsub]
    rw [growCap, if_pos hlt, hmul]
    exact ih

theorem alignUp_eq {k : Nat} (h : 2 ^ k ∣ size) : alignUp .exact size (2 ^ k) = size := by
  have hround : alignUp .exact size (2 ^ k) = roundUp size (2 ^ k) := sub_mask_eq_roundUp size k
  rw [hround, roundUp_eq (Nat.two_pow_pos k) h]

end A3Vec
