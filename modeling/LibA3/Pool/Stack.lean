import LibA3.Pool.Partition
import Mathlib.Logic.Function.Basic

/-!
# A stack of blocks

What the pool is for, without its links: a stack of free blocks, the blocks held, and what is in each block. The links are
in the storage, between the objects; that they are in nobody's way is what the simulation says.

* `pool_is_stack` — the pool hands out what was given back last, and a block holds what its holder wrote
-/

namespace A3Pool

open Links Mem Trans

variable {objSize blocks i off : Nat} {L : Layout objSize blocks} {s s' : St} {v v' : World} {bytes : List UInt8}
  {call : Call} {out : Option Nat} {chain hs : List Nat}

/-! ## The stack -/

structure Stack where
  free : List Nat
  held : List Nat
  contents : Nat → List UInt8

/-- A call, with what it returned; `zeroBlocks` as given to `a3_pool_new`. -/
inductive StackStep (zeroBlocks : Bool) (objSize : Nat) : Stack → Call × Option Nat → Stack → Prop
  | pop (block : Nat) (free held : List Nat) (contents : Nat → List UInt8) :
      StackStep zeroBlocks objSize ⟨block :: free, held, contents⟩ (.alloc, some block) ⟨free, block :: held, contents⟩
  | empty (held : List Nat) (contents : Nat → List UInt8) :
      StackStep zeroBlocks objSize ⟨[], held, contents⟩ (.alloc, none) ⟨[], held, contents⟩
  | push (block : Nat) (free held : List Nat) (contents : Nat → List UInt8) : block ∈ held →
      StackStep zeroBlocks objSize ⟨free, held, contents⟩ (.free block, none)
        ⟨block :: free, held.erase block,
          if zeroBlocks then Function.update contents block (List.replicate objSize 0) else contents⟩
  | write (block off : Nat) (bytes : List UInt8) (free held : List Nat) (contents : Nat → List UInt8) : block ∈ held →
      StackStep zeroBlocks objSize ⟨free, held, contents⟩ (.write block off bytes, none)
        ⟨free, held, Function.update contents block (splice (contents block) off bytes)⟩

/-! ## What a call leaves in the objects -/

theorem object_put_object (h : Fits L s) (hi : i < blocks) (hle : off + bytes.length ≤ objSize) :
    object L (s.put (i * L.stride + off) bytes) i = splice (object L s i) off bytes := by
  have hblock := L.block_le hi
  have hobj := L.object_le
  have hslot := L.slot_le
  have hlength := h.length
  exact window_splice_inside hle (by omega)

theorem alloc_objects (h : FreeChain L s (i :: chain)) (halloc : allocBlock s = .ok (s', out)) (j : Nat) :
    object L s' j = object L s j := by
  have hi : i < blocks := h.lt i List.mem_cons_self
  obtain ⟨next, hload, hnext⟩ := load_slot h.fits hi
  have hfits := h.fits.withFree (ofBytes next)
  have hlen : (toBytes 8 0).length = 8 := length_toBytes
  have heq := alloc_eq h.seg.1 (L.slot_pos i) hload rfl (store_slot hfits hi hlen) rfl
  rw [heq] at halloc
  cases halloc
  exact object_put_slot hfits hi hlen j

theorem zeroBlock_objects (h : Fits L s) (hi : i < blocks) : ∃ s1, zeroBlock s (L.obj i) = .ok s1 ∧ Fits L s1 ∧
    ∀ j, object L s1 j = if s.pool.zeroBlocks = true ∧ j = i then List.replicate objSize 0 else object L s j := by
  cases hz : s.pool.zeroBlocks with
  | false => exact ⟨s, by simp [zeroBlock, hz], h, fun j => by simp⟩
  | true =>
    have hsize : (List.replicate s.pool.objSize (0 : UInt8)).length = objSize := by
      rw [List.length_replicate, h.size]
    have hle : 0 + (List.replicate s.pool.objSize (0 : UInt8)).length ≤ objSize := by omega
    refine ⟨s.put (i * L.stride) (List.replicate s.pool.objSize 0), ?_, h.put_object hi hle, fun j => ?_⟩
    · rw [zeroBlock, if_pos hz]
      exact store_object h hi hle
    · by_cases heq : j = i
      · subst heq
        rw [if_pos ⟨rfl, rfl⟩, object_put_self h hi hsize, h.size]
      · rw [if_neg (fun hc => heq hc.2)]
        exact object_put_object_ne h hi hle (Ne.symm heq)

theorem free_objects (h : Fits L s) (hi : i < blocks) (hfree : freeBlock s (L.obj i) = .ok s') (j : Nat) :
    object L s' j = if s.pool.zeroBlocks = true ∧ j = i then List.replicate objSize 0 else object L s j := by
  obtain ⟨s1, hzero, h1, hobjects⟩ := zeroBlock_objects h hi
  have hlen : (toBytes 8 s1.pool.free).length = 8 := length_toBytes
  simp only [freeBlock, if_neg (L.obj_pos i), hzero, objSlot_eq h1 hi, store_slot h1 hi hlen, bind, Except.bind, pure,
    Except.pure] at hfree
  cases hfree
  exact (object_put_slot h1 hi hlen j).trans (hobjects j)

theorem write_objects (h : Fits L s) (hi : i < blocks) (hle : off + bytes.length ≤ objSize)
    (hwrite : exec s (.write (L.obj i) off bytes) = .ok (s', out)) (j : Nat) :
    object L s' j = if j = i then splice (object L s i) off bytes else object L s j := by
  have hblock := L.block_le hi
  have hobj := L.object_le
  have hslot := L.slot_le
  have hmem := L.in_memory
  have haddr : wrap (L.obj i + off) = L.obj i + off := wrap_eq (by rw [Layout.obj]; omega)
  simp only [exec, haddr, store_object h hi hle, bind, Except.bind, pure, Except.pure] at hwrite
  cases hwrite
  by_cases heq : j = i
  · subst heq
    rw [if_pos rfl, object_put_object h hi hle]
  · rw [if_neg heq, object_put_object_ne h hi hle (Ne.symm heq)]

/-! ## The simulation -/

/-- The stack has the free blocks in the order of their links, and of each block what is in its object. -/
structure Stands (L : Layout objSize blocks) (zeroBlocks : Bool) (v : World) (a : Stack) (chain hs : List Nat) : Prop where
  split : Split L v chain hs
  zero : v.st.pool.zeroBlocks = zeroBlocks
  free : a.free = chain.map L.obj
  held : a.held = v.held
  contents : ∀ i < blocks, a.contents (L.obj i) = object L v.st i

variable {zeroBlocks : Bool} {a : Stack}

theorem update_obj {f : Nat → List UInt8} {g : Nat → List UInt8} (hf : ∀ j < blocks, f (L.obj j) = g j) (i : Nat)
    (bytes : List UInt8) : ∀ j < blocks, Function.update f (L.obj i) bytes (L.obj j) = if j = i then bytes else g j := by
  intro j hj
  by_cases heq : j = i
  · subst heq
    rw [Function.update_self, if_pos rfl]
  · rw [Function.update_of_ne (fun h => heq (L.obj_injective h)), if_neg heq, hf j hj]

/-- **Step lemma.** -/
theorem Stands.step (h : Stands L zeroBlocks v a chain hs) (hstep : Step v (call, out) v') :
    ∃ a', StackStep zeroBlocks objSize a (call, out) a' ∧ ∃ chain' hs', Stands L zeroBlocks v' a' chain' hs' := by
  obtain ⟨free, held, contents⟩ := a
  obtain ⟨hsplit, hzero, hfree, hheld, hcontents⟩ := h
  simp only at hfree hheld hcontents
  subst hfree hheld
  cases call with
  | alloc =>
    cases chain with
    | nil =>
      obtain ⟨rfl, rfl⟩ := hstep.unique (step_alloc_nil hsplit)
      exact ⟨_, .empty _ _, [], hs, hsplit, hzero, rfl, rfl, hcontents⟩
    | cons i chain =>
      obtain ⟨v1, hstep1, hsplit1, hkept, _⟩ := step_alloc_cons hsplit
      obtain ⟨rfl, rfl⟩ := hstep.unique hstep1
      refine ⟨_, .pop _ _ _ _, chain, i :: hs, hsplit1, hkept.zeroBlocks.trans hzero, rfl, hstep1.2.2.symm, fun j hj => ?_⟩
      exact (hcontents j hj).trans (alloc_objects hsplit.free hstep1.2.1 j).symm
  | free block =>
    have hblock : block ∈ v.held := hstep.1
    rw [hsplit.held] at hblock
    obtain ⟨i, hi, rfl⟩ := List.mem_map.1 hblock
    have hlt : i < blocks := (hsplit.mem i).2 (Or.inr hi)
    obtain ⟨v1, hstep1, hsplit1, hkept⟩ := step_free hsplit hi
    obtain ⟨rfl, rfl⟩ := hstep.unique hstep1
    obtain ⟨s', hs', hpair⟩ := Fallible.bind_ok hstep1.2.1
    cases hpair
    have hobjects : ∀ j, object L v'.st j = _ := free_objects hsplit.free.fits hlt hs'
    refine ⟨_, .push _ _ _ _ hstep1.1, i :: chain, hs.erase i, hsplit1, hkept.zeroBlocks.trans hzero, rfl, hstep1.2.2.symm,
      fun j hj => ?_⟩
    rw [hobjects j, hzero]
    cases zeroBlocks with
    | false => simpa using hcontents j hj
    | true => simpa using update_obj hcontents i (List.replicate objSize 0) j hj
  | write block off bytes =>
    obtain ⟨hblock, hle⟩ := hstep.1
    rw [hsplit.held] at hblock
    rw [hsplit.free.fits.size] at hle
    obtain ⟨i, hi, rfl⟩ := List.mem_map.1 hblock
    have hlt : i < blocks := (hsplit.mem i).2 (Or.inr hi)
    obtain ⟨v1, hstep1, hsplit1, hkept⟩ := step_write hsplit hi hle
    obtain ⟨rfl, rfl⟩ := hstep.unique hstep1
    have hobjects : ∀ j, object L v'.st j = _ := write_objects hsplit.free.fits hlt hle hstep1.2.1
    refine ⟨_, .write _ _ _ _ _ _ hstep1.1.1, chain, hs, hsplit1, hkept.zeroBlocks.trans hzero, rfl, hstep1.2.2.symm,
      fun j hj => ?_⟩
    rw [hobjects j, ← hcontents i hlt]
    exact update_obj hcontents i _ j hj

/-- **The pool is a stack.** From `a3_pool_new` on, whatever the calls, `a3_pool_alloc_block` returns the block that was
given back last, at first the blocks in order; a block that is held contains what was in it when it was handed out and
what its holder has written since, and one that is free what it contained when it was given back, or zeros with
`A3_POOL_ZERO_BLOCKS`. -/
theorem pool_is_stack {align base : Nat} (initCb freeCb : Option Callback) (hblocks : 1 ≤ blocks) (halign : 1 ≤ align)
    (hfits : NoOverflow objSize blocks align) (hbase : 0 < base)
    (hspace : base + capacity objSize blocks align ≤ 2 ^ 64) :
    ∃ s0 first, newPool base objSize blocks align zeroBlocks initCb freeCb = .ok s0 ∧
      (zeroBlocks = true → initCb = none →
        ∀ block ∈ blocksAt base objSize blocks align, first block = List.replicate objSize 0) ∧
      ∀ calls v, Run Step ⟨s0, []⟩ calls v →
        ∃ a, Run (StackStep zeroBlocks objSize) ⟨blocksAt base objSize blocks align, [], first⟩ calls a ∧ a.held = v.held ∧
          ∀ block ∈ blocksAt base objSize blocks align, load v.st block objSize = .ok (a.contents block) := by
  obtain ⟨s0, hnew, hchain, hzero, _, _, hclean⟩ := new_spec zeroBlocks initCb freeCb hblocks halign hfits hbase hspace
  have hat : blocksAt base objSize blocks align = (List.range blocks).map (Layout.ofNew hfits halign hbase hspace).obj := rfl
  rw [hat]
  generalize Layout.ofNew hfits halign hbase hspace = L at hchain hclean
  have hfirst : ∀ i < blocks, window s0.bytes (L.obj i - L.base) (L.obj i - L.base + objSize) = object L s0 i := by
    intro i _
    rw [Layout.obj, Nat.add_sub_cancel_left, object]
  refine ⟨s0, fun block => window s0.bytes (block - L.base) (block - L.base + objSize), hnew, fun hz hnone => ?_,
    fun calls v hrun => ?_⟩
  · intro block hblock
    obtain ⟨i, hi, rfl⟩ := List.mem_map.1 hblock
    exact (hfirst i (List.mem_range.1 hi)).trans (hclean hnone (hzero.trans hz) i hi)
  · have hsim : ∀ (v : World) (a : Stack) (c : Call × Option Nat) (v' : World),
        (∃ chain hs, Stands L zeroBlocks v a chain hs) → Step v c v' →
        ∃ a', StackStep zeroBlocks objSize a c a' ∧ ∃ chain' hs', Stands L zeroBlocks v' a' chain' hs' := by
      rintro v a c v' ⟨_, _, h⟩ hstep
      exact h.step hstep
    let first : Nat → List UInt8 := fun block => window s0.bytes (block - L.base) (block - L.base + objSize)
    have hstart : Stands L zeroBlocks ⟨s0, []⟩ ⟨(List.range blocks).map L.obj, [], first⟩ (List.range blocks) [] :=
      ⟨Split.start hchain, hzero, rfl, rfl, hfirst⟩
    obtain ⟨a, hstack, chain, hs, h⟩ := hrun.simulate hsim ⟨_, _, hstart⟩
    refine ⟨a, hstack, h.held, fun block hblock => ?_⟩
    obtain ⟨i, hi, rfl⟩ := List.mem_map.1 hblock
    have hload := load_object h.split.free.fits (List.mem_range.1 hi)
    rw [h.split.free.fits.size] at hload
    rw [hload, h.contents i (List.mem_range.1 hi)]

theorem pool_is_stack_four :
    ∃ s0 v first, newPool 4096 32 4 8 true none none = .ok s0 ∧ Run Step ⟨s0, []⟩ fourCalls v ∧
      (∀ block ∈ blocksAt 4096 32 4 8, first block = List.replicate 32 0) ∧
      ∃ a, Run (StackStep true 32) ⟨blocksAt 4096 32 4 8, [], first⟩ fourCalls a ∧ a.held = [4096, 4216, 4176] ∧
        ∀ block ∈ blocksAt 4096 32 4 8, load v.st block 32 = .ok (a.contents block) := by
  obtain ⟨s0, v, hnew, hrun, hheld⟩ := four_run
  obtain ⟨s1, first, hnew1, hzero, hstack⟩ := pool_is_stack none none (show 1 ≤ 4 by decide) (show 1 ≤ 8 by decide)
    (show NoOverflow 32 4 8 from ⟨by decide, by decide, by decide⟩) (show 0 < 4096 by decide) (by decide)
  obtain rfl : s0 = s1 := Except.ok.inj (hnew.symm.trans hnew1)
  rw [← hheld]
  exact ⟨s0, v, first, hnew, hrun, hzero rfl rfl, hstack fourCalls v hrun⟩

end A3Pool
