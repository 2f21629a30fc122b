import Mathlib.Algebra.Group.Nat.Defs
import Mathlib.Data.List.Basic

/-!
# Words in memory

A number as bytes, the lowest byte first.
-/

namespace Mem

variable {k n : Nat}

def toBytes : Nat → Nat → List UInt8
  | 0, _ => []
  | k + 1, n => UInt8.ofNat n :: toBytes k (n / 256)

def ofBytes : List UInt8 → Nat
  | [] => 0
  | b :: bs => b.toNat + 256 * ofBytes bs

@[simp] theorem length_toBytes : (toBytes k n).length = k := by
  induction k generalizing n with
  | zero => rfl
  | succ k ih => rw [toBytes, List.length_cons, ih]

theorem ofBytes_toBytes (h : n < 256 ^ k) : ofBytes (toBytes k n) = n := by
  induction k generalizing n with
  | zero => rw [Nat.lt_one_iff.1 h]; rfl
  | succ k ih =>
    have hdiv : n / 256 < 256 ^ k := Nat.div_lt_of_lt_mul (by rwa [← Nat.pow_succ'])
    rw [toBytes, ofBytes, ih hdiv, UInt8.toNat_ofNat']
    exact Nat.mod_add_div n 256

theorem ofBytes_replicate_zero : ofBytes (List.replicate k 0) = 0 := by
  induction k with
  | zero => rfl
  | succ k ih => rw [List.replicate_succ, ofBytes, ih]; rfl

/-- As many bytes as there are determine the number, and it them. -/
theorem ofBytes_inj {as bs : List UInt8} (hlen : as.length = bs.length) (h : ofBytes as = ofBytes bs) : as = bs := by
  induction as generalizing bs with
  | nil => exact (List.length_eq_zero_iff.1 hlen.symm).symm
  | cons a as ih =>
    cases bs with
    | nil => cases hlen
    | cons b bs =>
      rw [ofBytes, ofBytes] at h
      have ha := a.toNat_lt
      have hb := b.toNat_lt
      have hhead : a.toNat = b.toNat := by omega
      have htail : ofBytes as = ofBytes bs := by omega
      rw [UInt8.toNat_inj.1 hhead, ih (Nat.succ.inj hlen) htail]

end Mem
