import LibA3.Links.Segment
import LibA3.Mem.Chunk
import LibA3.Pool.Basic

/-!
# The blocks of a pool

`Layout` is where everything is: an object at the start of each block, and behind it, in the same block, the slot with the
link. A link is read from the bytes of its slot (`link`); storing into an object changes none, and storing into a slot
that one only.
-/

namespace A3Pool

open Mem

/-! ## Arithmetic without overflow -/

theorem wrap_eq {n : Nat} (h : n < 2 ^ 64) : wrap n = n := Nat.mod_eq_of_lt h

theorem wrap_add {n : Nat} (h : n < 2 ^ 64) : wrap (n + 2 ^ 64) = n := by rw [wrap, Nat.add_mod_right, Nat.mod_eq_of_lt h]

theorem wrap_sub {n m : Nat} (hle : m ≤ n) (hn : n - m < 2 ^ 64) : wrap (n + 2 ^ 64 - m) = n - m := by
  rw [Nat.sub_add_comm hle, wrap_add hn]

/-- Rounding up, to any alignment there is. -/
theorem le_alignUp {v align : Nat} (ha : 0 < align) (h : v + (align - 1) < 2 ^ 64) : v ≤ alignUp v align := by
  have hmask : wrap (align + 2 ^ 64 - 1) = align - 1 := wrap_sub ha (by omega)
  have hup : wrap (v + align + 2 ^ 64 - 1) = v + align - 1 := wrap_sub (by omega) (by omega)
  have hand : (v + align - 1) &&& (align - 1) ≤ align - 1 := Nat.and_le_right
  rw [alignUp, alignDown, hmask, hup]
  omega

/-- The sums and products of `a3_pool_new` are at most `SIZE_MAX`. -/
structure NoOverflow (objSize blocks align : Nat) : Prop where
  offset : objSize + 7 < 2 ^ 64
  block : slotOffset objSize + 8 + (align - 1) < 2 ^ 64
  cap : blocks * blockSize objSize align < 2 ^ 64

structure Layout (objSize blocks : Nat) where
  base : Nat
  offset : Nat
  stride : Nat
  object_le : objSize ≤ offset
  slot_le : offset + 8 ≤ stride
  base_pos : 0 < base
  in_memory : base + blocks * stride ≤ 2 ^ 64

variable {objSize blocks i j off : Nat} {L : Layout objSize blocks} {s : St} {bytes : List UInt8}

namespace Layout

/-- The layout that `a3_pool_new` makes. -/
def ofNew {align base : Nat} (h : NoOverflow objSize blocks align) (ha : 0 < align) (hbase : 0 < base)
    (hspace : base + capacity objSize blocks align ≤ 2 ^ 64) : Layout objSize blocks where
  base := base
  offset := slotOffset objSize
  stride := blockSize objSize align
  object_le := le_alignUp (by decide) h.offset
  slot_le := by
    have hblock := h.block
    rw [blockSize, wrap_eq (by omega)]
    exact le_alignUp ha hblock
  base_pos := hbase
  in_memory := by
    rw [capacity, wrap_eq h.cap] at hspace
    exact hspace

def obj (L : Layout objSize blocks) (i : Nat) : Nat := L.base + i * L.stride

def slot (L : Layout objSize blocks) (i : Nat) : Nat := L.base + (i * L.stride + L.offset)

theorem block_le (L : Layout objSize blocks) (hi : i < blocks) : i * L.stride + L.stride ≤ blocks * L.stride := chunk_le hi

theorem stride_pos (L : Layout objSize blocks) : 0 < L.stride := Nat.lt_of_lt_of_le (by omega) L.slot_le

theorem slot_lt (L : Layout objSize blocks) (hi : i < blocks) : L.slot i < 2 ^ 64 := by
  have hblock := L.block_le hi
  have hslot := L.slot_le
  have hmem := L.in_memory
  unfold slot
  omega

theorem slot_pos (L : Layout objSize blocks) (i : Nat) : L.slot i ≠ 0 := Nat.ne_of_gt (Nat.add_pos_left L.base_pos _)

theorem obj_pos (L : Layout objSize blocks) (i : Nat) : L.obj i ≠ 0 := Nat.ne_of_gt (Nat.add_pos_left L.base_pos _)

theorem obj_injective (L : Layout objSize blocks) : Function.Injective L.obj := fun _ _ h =>
  Nat.eq_of_mul_eq_mul_right L.stride_pos (Nat.add_left_cancel h)

theorem slot_injective (L : Layout objSize blocks) : Function.Injective L.slot := fun _ _ h =>
  Nat.eq_of_mul_eq_mul_right L.stride_pos (Nat.add_right_cancel (Nat.add_left_cancel h))

end Layout

/-! ## A pool with this layout -/

structure Fits (L : Layout objSize blocks) (s : St) : Prop where
  data : s.pool.data = L.base
  size : s.pool.objSize = objSize
  offset : slotOffset objSize = L.offset
  length : s.bytes.length = blocks * L.stride

theorem slotObj_eq (h : Fits L s) (hi : i < blocks) : slotObj s.pool.objSize (L.slot i) = L.obj i := by
  have hlt := L.slot_lt hi
  have heq : L.slot i = L.obj i + L.offset := (Nat.add_assoc _ _ _).symm
  rw [slotObj, h.size, h.offset, heq, wrap_sub (Nat.le_add_left _ _) (by omega), Nat.add_sub_cancel]

theorem objSlot_eq (h : Fits L s) (hi : i < blocks) : objSlot s.pool.objSize (L.obj i) = L.slot i := by
  have heq : L.slot i = L.obj i + L.offset := (Nat.add_assoc _ _ _).symm
  rw [objSlot, h.size, h.offset, ← heq, wrap_eq (L.slot_lt hi)]

/-- The storage with other bytes from offset `off` on. -/
def St.put (s : St) (off : Nat) (bytes : List UInt8) : St := { s with bytes := splice s.bytes off bytes }

theorem store_eq (h : Fits L s) (hle : off + bytes.length ≤ blocks * L.stride) :
    store s (L.base + off) bytes = .ok (s.put off bytes) := by
  have hin : s.pool.data ≤ L.base + off ∧ L.base + off + bytes.length ≤ s.pool.data + s.bytes.length := by
    rw [h.data, h.length]
    omega
  rw [store, if_pos hin, h.data, Nat.add_sub_cancel_left]
  rfl

theorem load_eq {n : Nat} (h : Fits L s) (hle : off + n ≤ blocks * L.stride) :
    load s (L.base + off) n = .ok (window s.bytes off (off + n)) := by
  have hin : s.pool.data ≤ L.base + off ∧ L.base + off + n ≤ s.pool.data + s.bytes.length := by
    rw [h.data, h.length]
    omega
  rw [load, if_pos hin, h.data, Nat.add_sub_cancel_left]

theorem Fits.put (h : Fits L s) (hle : off + bytes.length ≤ blocks * L.stride) : Fits L (s.put off bytes) where
  data := h.data
  size := h.size
  offset := h.offset
  length := by
    rw [← h.length] at hle ⊢
    exact length_splice hle

/-! ## Links -/

/-- What the slot of block `i` holds. -/
def link (L : Layout objSize blocks) (s : St) (i : Nat) : Nat :=
  ofBytes (window s.bytes (i * L.stride + L.offset) (i * L.stride + (L.offset + 8)))

theorem load_slot (h : Fits L s) (hi : i < blocks) :
    ∃ bytes, load s (L.slot i) 8 = .ok bytes ∧ ofBytes bytes = link L s i := by
  have hblock := L.block_le hi
  have hslot := L.slot_le
  refine ⟨_, load_eq h (by omega), ?_⟩
  rw [Nat.add_assoc, link]

/-- Block `i` without its slot. -/
theorem link_put_object (h : Fits L s) (hi : i < blocks) (hle : off + bytes.length ≤ objSize) (j : Nat) :
    link L (s.put (i * L.stride + off) bytes) j = link L s j := by
  have hblock := L.block_le hi
  have hobj := L.object_le
  have hslot := L.slot_le
  have hlength := h.length
  by_cases heq : i = j
  · subst heq
    rw [link, St.put, window_splice_of_le (by omega) (by omega), link]
  · rw [link, St.put, window_splice_ne heq (by omega) hslot (by omega), link]

theorem link_put_slot (h : Fits L s) (hi : i < blocks) (n : Nat) (hn : n < 2 ^ 64) :
    link L (s.put (i * L.stride + L.offset) (toBytes 8 n)) i = n := by
  have hblock := L.block_le hi
  have hslot := L.slot_le
  have hlength := h.length
  have hwin : window (splice s.bytes (i * L.stride + L.offset) (toBytes 8 n)) (i * L.stride + L.offset)
      (i * L.stride + L.offset + (toBytes 8 n).length) = toBytes 8 n := window_splice (by omega)
  rw [length_toBytes, Nat.add_assoc] at hwin
  rw [link, St.put, hwin, ofBytes_toBytes hn]

theorem link_put_slot_ne (h : Fits L s) (hi : i < blocks) (hlen : bytes.length = 8) (hne : i ≠ j) :
    link L (s.put (i * L.stride + L.offset) bytes) j = link L s j := by
  have hblock := L.block_le hi
  have hslot := L.slot_le
  have hlength := h.length
  rw [link, St.put, window_splice_ne hne (by omega) hslot (by omega), link]

/-! ## Objects -/

/-- What the object of block `i` holds. -/
def object (L : Layout objSize blocks) (s : St) (i : Nat) : List UInt8 :=
  window s.bytes (i * L.stride) (i * L.stride + objSize)

theorem object_put_object_ne (h : Fits L s) (hi : i < blocks) (hle : off + bytes.length ≤ objSize) (hne : i ≠ j) :
    object L (s.put (i * L.stride + off) bytes) j = object L s j := by
  have hblock := L.block_le hi
  have hobj := L.object_le
  have hslot := L.slot_le
  have hlength := h.length
  have hwin : window (splice s.bytes (i * L.stride + off) bytes) (j * L.stride + 0) (j * L.stride + objSize) =
      window s.bytes (j * L.stride + 0) (j * L.stride + objSize) :=
    window_splice_ne hne (by omega) (by omega) (by omega)
  exact hwin

theorem object_put_self (h : Fits L s) (hi : i < blocks) (hlen : bytes.length = objSize) :
    object L (s.put (i * L.stride) bytes) i = bytes := by
  have hblock := L.block_le hi
  have hlength := h.length
  have hwin : window (splice s.bytes (i * L.stride) bytes) (i * L.stride) (i * L.stride + bytes.length) = bytes :=
    window_splice (by omega)
  rw [hlen] at hwin
  exact hwin

theorem object_put_slot (h : Fits L s) (hi : i < blocks) (hlen : bytes.length = 8) (j : Nat) :
    object L (s.put (i * L.stride + L.offset) bytes) j = object L s j := by
  have hblock := L.block_le hi
  have hobj := L.object_le
  have hslot := L.slot_le
  have hlength := h.length
  by_cases heq : i = j
  · subst heq
    exact window_splice_of_ge (by omega) (by omega)
  · have hwin : window (splice s.bytes (i * L.stride + L.offset) bytes) (j * L.stride + 0) (j * L.stride + objSize) =
        window s.bytes (j * L.stride + 0) (j * L.stride + objSize) :=
      window_splice_ne heq (by omega) (by omega) (by omega)
    exact hwin

theorem load_object (h : Fits L s) (hi : i < blocks) : load s (L.obj i) s.pool.objSize = .ok (object L s i) := by
  have hblock := L.block_le hi
  have hobj := L.object_le
  have hslot := L.slot_le
  rw [h.size]
  exact load_eq h (by omega)

theorem length_object (h : Fits L s) (hi : i < blocks) : (object L s i).length = objSize := by
  have hblock := L.block_le hi
  have hobj := L.object_le
  have hslot := L.slot_le
  have hlength := h.length
  rw [object, length_window (by omega), Nat.add_sub_cancel_left]

end A3Pool
