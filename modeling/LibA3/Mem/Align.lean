import Mathlib.Algebra.Order.Floor.Div
import Mathlib.Data.Nat.Bitwise

/-!
# Rounding up to a multiple

`roundUp v a` is the least multiple of `a` that is at least `v`. For a power of two the low bits are masked off instead of
dividing.
-/

namespace Mem

variable {v a m k : Nat}

def roundUp (v a : Nat) : Nat := a * (v ⌈/⌉ a)

theorem dvd_roundUp (v a : Nat) : a ∣ roundUp v a := Nat.dvd_mul_right a _

theorem le_roundUp (ha : 0 < a) (v : Nat) : v ≤ roundUp v a := le_smul_ceilDiv ha

theorem roundUp_le (ha : 0 < a) (hdvd : a ∣ m) (hle : v ≤ m) : roundUp v a ≤ m := by
  obtain ⟨c, rfl⟩ := hdvd
  exact Nat.mul_le_mul_left a ((ceilDiv_le_iff_le_mul ha).2 hle)

theorem isLeast_roundUp (ha : 0 < a) (v : Nat) : IsLeast {m | a ∣ m ∧ v ≤ m} (roundUp v a) :=
  ⟨⟨dvd_roundUp v a, le_roundUp ha v⟩, fun _ hm => roundUp_le ha hm.1 hm.2⟩

/-- What is a multiple already stays. -/
theorem roundUp_eq (ha : 0 < a) (hdvd : a ∣ v) : roundUp v a = v :=
  Nat.le_antisymm (roundUp_le ha hdvd (Nat.le_refl v)) (le_roundUp ha v)

theorem lt_roundUp (ha : 0 < a) (hdvd : ¬a ∣ v) : v < roundUp v a := by
  refine Nat.lt_of_le_of_ne (le_roundUp ha v) fun heq => hdvd ?_
  rw [heq]
  exact dvd_roundUp v a

/-- `(v + a - 1) & ~(a - 1)` -/
theorem sub_mask_eq_roundUp (v k : Nat) :
    v + 2 ^ k - 1 - ((v + 2 ^ k - 1) &&& (2 ^ k - 1)) = roundUp v (2 ^ k) := by
  rw [Nat.and_two_pow_sub_one_eq_mod, roundUp, Nat.ceilDiv_eq_add_pred_div]
  exact Nat.sub_eq_of_eq_add (Nat.div_add_mod _ _).symm

end Mem
