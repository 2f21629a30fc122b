import LibA3.Mem.Align
import LibA3.Pool.Layout
import Mathlib.Order.CompletePartialOrder
import Mathlib.Order.Interval.Set.Disjoint

/-!
# Where the objects and the slots lie

`align_up` twice: the slot is behind the object, and the next block behind the slot. The ranges are offsets into the
storage.
-/

namespace A3Pool

open Mem

variable {objSize blocks align base i j k v : Nat}

/-- The object of block `i`. -/
def objRange (objSize align i : Nat) : Set Nat :=
  Set.Ico (i * blockSize objSize align) (i * blockSize objSize align + objSize)

/-- The slot of block `i`, `sizeof(A3PoolSlot)` being 8. -/
def slotRange (objSize align i : Nat) : Set Nat :=
  Set.Ico (i * blockSize objSize align + slotOffset objSize) (i * blockSize objSize align + slotOffset objSize + 8)

/-! ## Rounding -/

theorem alignUp_eq_roundUp (h : v + (2 ^ k - 1) < 2 ^ 64) : alignUp v (2 ^ k) = roundUp v (2 ^ k) := by
  have hpos : 0 < 2 ^ k := Nat.two_pow_pos k
  have hmask : wrap (2 ^ k + 2 ^ 64 - 1) = 2 ^ k - 1 := wrap_sub hpos (by omega)
  have hup : wrap (v + 2 ^ k + 2 ^ 64 - 1) = v + 2 ^ k - 1 := wrap_sub (by omega) (by omega)
  rw [alignUp, alignDown, hmask, hup, sub_mask_eq_roundUp]

theorem slotOffset_eq (h : objSize + 7 < 2 ^ 64) : slotOffset objSize = roundUp objSize 8 :=
  alignUp_eq_roundUp (k := 3) h

namespace NoOverflow

theorem objSize_le (h : NoOverflow objSize blocks (2 ^ k)) : objSize ≤ slotOffset objSize := by
  rw [slotOffset_eq h.offset]
  exact le_roundUp (by decide) objSize

theorem blockSize_eq (h : NoOverflow objSize blocks (2 ^ k)) :
    blockSize objSize (2 ^ k) = roundUp (slotOffset objSize + 8) (2 ^ k) := by
  have hblock := h.block
  rw [blockSize, wrap_eq (by omega)]
  exact alignUp_eq_roundUp hblock

theorem slot_le (h : NoOverflow objSize blocks (2 ^ k)) : slotOffset objSize + 8 ≤ blockSize objSize (2 ^ k) := by
  rw [h.blockSize_eq]
  exact le_roundUp (Nat.two_pow_pos k) _

theorem dvd_blockSize (h : NoOverflow objSize blocks (2 ^ k)) : 2 ^ k ∣ blockSize objSize (2 ^ k) := by
  rw [h.blockSize_eq]
  exact dvd_roundUp _ _

end NoOverflow

/-! ## Ranges -/

/-- Block `i`, with all it holds. -/
def blockRange (objSize align i : Nat) : Set Nat :=
  Set.Ico (i * blockSize objSize align) (i * blockSize objSize align + blockSize objSize align)

theorem objRange_subset (h : NoOverflow objSize blocks (2 ^ k)) (i : Nat) :
    objRange objSize (2 ^ k) i ⊆ blockRange objSize (2 ^ k) i := by
  have hobj := h.objSize_le
  have hslot := h.slot_le
  exact Set.Ico_subset_Ico_right (by omega)

theorem slotRange_subset (h : NoOverflow objSize blocks (2 ^ k)) (i : Nat) :
    slotRange objSize (2 ^ k) i ⊆ blockRange objSize (2 ^ k) i := by
  have hslot := h.slot_le
  exact Set.Ico_subset_Ico (by omega) (by omega)

theorem blockRange_disjoint (objSize align : Nat) (hne : i ≠ j) :
    Disjoint (blockRange objSize align i) (blockRange objSize align j) := by
  rw [blockRange, blockRange, Set.Ico_disjoint_Ico]
  rcases Nat.lt_or_gt_of_ne hne with hlt | hlt
  · have hchunk := chunk_le (n := blockSize objSize align) hlt
    omega
  · have hchunk := chunk_le (n := blockSize objSize align) hlt
    omega

theorem blockRange_inside (h : NoOverflow objSize blocks align) (hi : i < blocks) :
    blockRange objSize align i ⊆ Set.Iio (capacity objSize blocks align) := by
  have hchunk := chunk_le (n := blockSize objSize align) hi
  rw [capacity, wrap_eq h.cap]
  exact fun x hx => Nat.lt_of_lt_of_le hx.2 hchunk

/-- An object ends before its slot. -/
theorem objRange_disjoint_slotRange (h : NoOverflow objSize blocks (2 ^ k)) (i j : Nat) :
    Disjoint (objRange objSize (2 ^ k) i) (slotRange objSize (2 ^ k) j) := by
  by_cases heq : i = j
  · subst heq
    have hobj := h.objSize_le
    rw [objRange, slotRange, Set.Ico_disjoint_Ico]
    omega
  · exact (blockRange_disjoint objSize (2 ^ k) heq).mono (objRange_subset h i) (slotRange_subset h j)

/-! ## Addresses -/

theorem objSlot_obj {obj : Nat} (h : obj + slotOffset objSize < 2 ^ 64) : objSlot objSize obj = obj + slotOffset objSize :=
  wrap_eq h

theorem slotObj_slot {obj : Nat} (h : obj < 2 ^ 64) : slotObj objSize (obj + slotOffset objSize) = obj := by
  rw [slotObj, wrap_sub (Nat.le_add_left _ _) (by omega), Nat.add_sub_cancel]

theorem slot_in_memory (h : NoOverflow objSize blocks (2 ^ k)) (hspace : base + capacity objSize blocks (2 ^ k) ≤ 2 ^ 64)
    (hi : i < blocks) : base + i * blockSize objSize (2 ^ k) + slotOffset objSize < 2 ^ 64 := by
  have hslot := h.slot_le
  have hchunk := chunk_le (n := blockSize objSize (2 ^ k)) hi
  rw [capacity, wrap_eq h.cap] at hspace
  omega

/-- **Nothing overlaps.** `align_up` is the least multiple that is not less, as long as there is one in a `size_t`. If the sizes
of `a3_pool_new` do not overflow, every object is aligned, no two objects or slots have a byte in common, all lie within the
storage, and `OBJ_SLOT` and `SLOT_OBJ` lead from an object to its slot and back. -/
theorem layout_disjoint (hfits : NoOverflow objSize blocks (2 ^ k)) (haligned : 2 ^ k ∣ base)
    (hspace : base + capacity objSize blocks (2 ^ k) ≤ 2 ^ 64) :
    (∀ v m, v + (2 ^ m - 1) < 2 ^ 64 → IsLeast {n | 2 ^ m ∣ n ∧ v ≤ n} (alignUp v (2 ^ m))) ∧
      (∀ i < blocks, 2 ^ k ∣ base + i * blockSize objSize (2 ^ k) ∧
        objRange objSize (2 ^ k) i ⊆ Set.Iio (capacity objSize blocks (2 ^ k)) ∧
        slotRange objSize (2 ^ k) i ⊆ Set.Iio (capacity objSize blocks (2 ^ k)) ∧
        objSlot objSize (base + i * blockSize objSize (2 ^ k)) =
          base + i * blockSize objSize (2 ^ k) + slotOffset objSize ∧
        slotObj objSize (base + i * blockSize objSize (2 ^ k) + slotOffset objSize) =
          base + i * blockSize objSize (2 ^ k)) ∧
      ∀ i j, Disjoint (objRange objSize (2 ^ k) i) (slotRange objSize (2 ^ k) j) ∧
        (i ≠ j → Disjoint (objRange objSize (2 ^ k) i) (objRange objSize (2 ^ k) j) ∧
          Disjoint (slotRange objSize (2 ^ k) i) (slotRange objSize (2 ^ k) j)) := by
  refine ⟨fun v m hv => ?_, fun i hi => ⟨?_, ?_, ?_, ?_, ?_⟩, fun i j => ⟨objRange_disjoint_slotRange hfits i j, fun hne => ?_⟩⟩
  · rw [alignUp_eq_roundUp hv]
    exact isLeast_roundUp (Nat.two_pow_pos m) v
  · exact Nat.dvd_add haligned (Nat.dvd_mul_left_of_dvd hfits.dvd_blockSize i)
  · exact (objRange_subset hfits i).trans (blockRange_inside hfits hi)
  · exact (slotRange_subset hfits i).trans (blockRange_inside hfits hi)
  · exact objSlot_obj (slot_in_memory hfits hspace hi)
  · have hlt := slot_in_memory hfits hspace hi
    exact slotObj_slot (by omega)
  · have hblocks := blockRange_disjoint objSize (2 ^ k) hne
    exact ⟨hblocks.mono (objRange_subset hfits i) (objRange_subset hfits j),
      hblocks.mono (slotRange_subset hfits i) (slotRange_subset hfits j)⟩

/-- Three objects of 20 bytes, aligned to 16. -/
theorem layout_disjoint_three :
    (∀ v m, v + (2 ^ m - 1) < 2 ^ 64 → IsLeast {n | 2 ^ m ∣ n ∧ v ≤ n} (alignUp v (2 ^ m))) ∧
      (∀ i < 3, 2 ^ 4 ∣ 4096 + i * blockSize 20 (2 ^ 4) ∧
        objRange 20 (2 ^ 4) i ⊆ Set.Iio (capacity 20 3 (2 ^ 4)) ∧ slotRange 20 (2 ^ 4) i ⊆ Set.Iio (capacity 20 3 (2 ^ 4)) ∧
        objSlot 20 (4096 + i * blockSize 20 (2 ^ 4)) = 4096 + i * blockSize 20 (2 ^ 4) + slotOffset 20 ∧
        slotObj 20 (4096 + i * blockSize 20 (2 ^ 4) + slotOffset 20) = 4096 + i * blockSize 20 (2 ^ 4)) ∧
      ∀ i j, Disjoint (objRange 20 (2 ^ 4) i) (slotRange 20 (2 ^ 4) j) ∧
        (i ≠ j → Disjoint (objRange 20 (2 ^ 4) i) (objRange 20 (2 ^ 4) j) ∧
          Disjoint (slotRange 20 (2 ^ 4) i) (slotRange 20 (2 ^ 4) j)) :=
  layout_disjoint ⟨by decide, by decide, by decide⟩ (by decide) (by decide)

/-- Two objects of `SIZE_MAX` bytes: 0 is no multiple of 8 that is large enough, and the blocks are 8 bytes apart. -/
theorem layout_overlaps :
    alignUp (2 ^ 64 - 1) 8 = 0 ∧ 2 * blockSize (2 ^ 64 - 1) 8 = 16 ∧
      ¬Disjoint (objRange (2 ^ 64 - 1) 8 0) (objRange (2 ^ 64 - 1) 8 1) ∧
      ¬objRange (2 ^ 64 - 1) 8 0 ⊆ Set.Iio (capacity (2 ^ 64 - 1) 2 8) := by
  have hsize : blockSize (2 ^ 64 - 1) 8 = 8 := by decide
  have hcap : capacity (2 ^ 64 - 1) 2 8 = 16 := by decide
  refine ⟨by decide, by decide, fun h => ?_, fun h => ?_⟩
  · rw [objRange, objRange, hsize, Set.Ico_disjoint_Ico] at h
    omega
  · rw [objRange, hsize, hcap] at h
    have hin : (16 : Nat) ∈ Set.Iio 16 := h ⟨Nat.zero_le 16, by omega⟩
    exact Nat.lt_irrefl 16 hin

end A3Pool
