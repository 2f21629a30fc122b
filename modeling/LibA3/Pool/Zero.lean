import LibA3.Pool.Partition

/-!
# Blocks are cleared

With `A3_POOL_ZERO_BLOCKS` every free block's object is zero: `a3_pool_new` clears the storage, the links lie behind the
objects, and `a3_pool_free_block` clears what its holder has written. What is handed out is zero, then.
-/

namespace A3Pool

open Mem Trans

variable {objSize blocks align base block : Nat} {freeCb : Option Callback} {s0 : St} {v v' : World}
  {calls : List (Call × Option Nat)}

/-- **Blocks are handed out zero.** From a pool with `A3_POOL_ZERO_BLOCKS` and no init callback whose sizes do not overflow,
`a3_pool_alloc_block` only returns blocks all of whose `obj_size` bytes are zero, whatever has been written into them
while they were held. -/
theorem blocks_zeroed (hfits : NoOverflow objSize blocks align) (hbase : 0 < base)
    (hspace : base + capacity objSize blocks align ≤ 2 ^ 64)
    (hnew : newPool base objSize blocks align true none freeCb = .ok s0) (hrun : Run Step ⟨s0, []⟩ calls v)
    (hstep : Step v (.alloc, some block) v') : load v'.st block objSize = .ok (List.replicate objSize 0) := by
  obtain ⟨hblocks, halign⟩ := newPool_pos hnew
  obtain ⟨s, hnew', hfree, hzero, _, _, hclean⟩ := new_spec true none freeCb hblocks halign hfits hbase hspace
  obtain rfl : s0 = s := Except.ok.inj (hnew.symm.trans hnew')
  generalize Layout.ofNew hfits halign hbase hspace = L at hfree hclean
  have h0 := hclean rfl
  -- the run keeps the free blocks zero
  obtain ⟨chain, hs, h, hkept⟩ := (Split.start hfree).run hrun
  have hz : v.st.pool.zeroBlocks = true := hkept.zeroBlocks.trans hzero
  have hv : Clean L v.st chain := hkept.clean h0
  cases chain with
  | nil =>
    obtain ⟨_, hout⟩ := hstep.unique (step_alloc_nil h)
    cases hout
  | cons i chain =>
    obtain ⟨v1, hstep1, h1, _, hobject⟩ := step_alloc_cons h
    obtain ⟨rfl, hout⟩ := hstep.unique hstep1
    obtain rfl : block = L.obj i := Option.some.inj hout
    have hi : i < blocks := h.free.lt i List.mem_cons_self
    have hload := load_object h1.free.fits hi
    rw [h1.free.fits.size] at hload
    rw [hload, hobject, hv hz i List.mem_cons_self]

/-- A block that has been written and given back. -/
theorem blocks_zeroed_again :
    ∃ s0 v v', newPool 4096 32 4 8 true none none = .ok s0 ∧
      Run Step ⟨s0, []⟩ [(.alloc, some 4096), (.write 4096 5 [7, 7], none), (.free 4096, none)] v ∧
      Step v (.alloc, some 4096) v' ∧ load v'.st 4096 32 = .ok (List.replicate 32 0) := by
  have hfits : NoOverflow 32 4 8 := ⟨by decide, by decide, by decide⟩
  obtain ⟨s0, hnew, hfree, _⟩ := new_spec true none none (by decide) (by decide) hfits (show 0 < 4096 by decide) (by decide)
  obtain ⟨v1, hstep1, h1, _⟩ := step_alloc_cons (Split.start hfree)
  obtain ⟨v2, hstep2, h2, _⟩ := step_write h1 List.mem_cons_self (show 5 + ([7, 7] : List UInt8).length ≤ 32 by decide)
  obtain ⟨v3, hstep3, h3, _⟩ := step_free h2 List.mem_cons_self
  obtain ⟨v4, hstep4, _⟩ := step_alloc_cons h3
  have hrun := Run.cons hstep1 (Run.cons hstep2 (Run.single hstep3))
  exact ⟨s0, v3, v4, hnew, hrun, hstep4, blocks_zeroed hfits (by decide) (by decide) hnew hrun hstep4⟩

/-! ## Sizes that overflow -/

/-- Three blocks of objects of `SIZE_MAX` bytes, each block being its slot. -/
def wrappedThree (free : Nat) (first second third : List UInt8) : St :=
  ⟨⟨64, free, 2 ^ 64 - 1, 24, true, none⟩, first ++ second ++ third, []⟩

/-- The second eight bytes of the first block's object are the second block's link. -/
theorem link_in_object :
    ∃ s0 v', newPool 64 (2 ^ 64 - 1) 3 8 true none none = .ok s0 ∧ Step ⟨s0, []⟩ (.alloc, some 64) v' ∧
      load v'.st (64 + 8) 8 = .ok (toBytes 8 80) ∧ toBytes 8 80 ≠ List.replicate 8 0 ∧
      load v'.st 64 (2 ^ 64 - 1) = .error .outOfBounds := by
  have hnew : newPool 64 (2 ^ 64 - 1) 3 8 true none none =
      .ok (wrappedThree 64 (toBytes 8 72) (toBytes 8 80) (toBytes 8 0)) := rfl
  have hload : load (wrappedThree 64 (toBytes 8 72) (toBytes 8 80) (toBytes 8 0)) 64 8 = .ok (toBytes 8 72) := rfl
  have hstore : store ((wrappedThree 64 (toBytes 8 72) (toBytes 8 80) (toBytes 8 0)).withFree 72) 64 (toBytes 8 0) =
      .ok (wrappedThree 72 (toBytes 8 0) (toBytes 8 80) (toBytes 8 0)) := rfl
  have halloc := alloc_eq rfl (Nat.succ_ne_zero 63) hload (ofBytes_toBytes (by decide)) hstore
    (slotObj_wrapped (by decide))
  refine ⟨_, ⟨_, [64]⟩, hnew, ⟨trivial, halloc, rfl⟩, rfl, by decide, ?_⟩
  have hout : ¬(64 ≤ 64 ∧ 64 + (2 ^ 64 - 1) ≤ 64 + 24) := by omega
  exact if_neg hout

end A3Pool
