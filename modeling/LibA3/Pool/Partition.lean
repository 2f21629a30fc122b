import LibA3.Pool.Chain
import LibA3.Trans

/-!
# Every block is free or held

The blocks held are those that `a3_pool_alloc_block` has returned and nobody has freed. In every reachable state they and
the chain from `free` are the pool's blocks, each once.
-/

namespace A3Pool

open Links Mem Trans

variable {objSize blocks i : Nat} {L : Layout objSize blocks} {s : St} {v v' : World} {call : Call} {out : Option Nat}
  {calls : List (Call × Option Nat)} {chain hs : List Nat}

structure World where
  st : St
  held : List Nat

/-- Only blocks that are held are freed or written, the latter inside of the object. -/
def Legal (v : World) : Call → Prop
  | .alloc => True
  | .free block => block ∈ v.held
  | .write block offset bytes => block ∈ v.held ∧ offset + bytes.length ≤ v.st.pool.objSize

def nextHeld (held : List Nat) : Call → Option Nat → List Nat
  | .alloc, some block => block :: held
  | .free block, _ => held.erase block
  | _, _ => held

def Step (v : World) (a : Call × Option Nat) (v' : World) : Prop :=
  Legal v a.1 ∧ exec v.st a.1 = .ok (v'.st, a.2) ∧ v'.held = nextHeld v.held a.1 a.2

/-- The slots that the links in memory lead to from address `p` on. -/
inductive Chain (s : St) : Nat → List Nat → Prop
  | null : Chain s 0 []
  | slot {p : Nat} {bytes : List UInt8} {slots : List Nat} : p ≠ 0 → load s p 8 = .ok bytes →
      Chain s (ofBytes bytes) slots → Chain s p (p :: slots)

/-- The pool's blocks. -/
def blocksAt (base objSize blocks align : Nat) : List Nat :=
  (List.range blocks).map fun i => base + i * blockSize objSize align

/-! ## The invariant -/

structure Split (L : Layout objSize blocks) (v : World) (chain hs : List Nat) : Prop where
  free : FreeChain L v.st chain
  held : v.held = hs.map L.obj
  perm : (chain ++ hs).Perm (List.range blocks)

namespace Split

/-- A new pool, of which no block is held. -/
theorem start (h : FreeChain L s (List.range blocks)) : Split L ⟨s, []⟩ (List.range blocks) [] :=
  ⟨h, rfl, by rw [List.append_nil]⟩

theorem mem (h : Split L v chain hs) (i : Nat) : i < blocks ↔ i ∈ chain ∨ i ∈ hs := by
  rw [← List.mem_range, ← h.perm.mem_iff, List.mem_append]

theorem mem_held (h : Split L v chain hs) : L.obj i ∈ v.held ↔ i ∈ hs := by
  rw [h.held, List.mem_map_of_injective L.obj_injective]

theorem disjoint (h : Split L v chain hs) (hi : i ∈ hs) : i ∉ chain := by
  have hnd : (chain ++ hs).Nodup := h.perm.nodup_iff.2 List.nodup_range
  exact fun hc => (List.nodup_append.1 hnd).2.2 i hc i hi rfl

end Split

/-- `a3_pool_alloc_block` returns `NULL`, or a block that was not held. -/
theorem step_alloc_nil (h : Split L v [] hs) : Step v (.alloc, none) v :=
  ⟨trivial, alloc_nil h.free, rfl⟩

theorem step_alloc_cons (h : Split L v (i :: chain) hs) :
    ∃ v', Step v (.alloc, some (L.obj i)) v' ∧ Split L v' chain (i :: hs) ∧ Kept L v.st v'.st (i :: chain) chain ∧
      object L v'.st i = object L v.st i := by
  obtain ⟨s', halloc, hchain, hkept, hobject⟩ := alloc_cons h.free
  refine ⟨⟨s', L.obj i :: v.held⟩, ⟨trivial, halloc, rfl⟩, ⟨hchain, by rw [h.held, List.map_cons], ?_⟩, hkept, hobject⟩
  exact List.perm_middle.trans h.perm

theorem step_free (h : Split L v chain hs) (hi : i ∈ hs) :
    ∃ v', Step v (.free (L.obj i), none) v' ∧ Split L v' (i :: chain) (hs.erase i) ∧ Kept L v.st v'.st chain (i :: chain) := by
  obtain ⟨s', hfree, hchain, hkept⟩ := free_spec h.free ((h.mem i).2 (Or.inr hi)) (h.disjoint hi)
  refine ⟨⟨s', v.held.erase (L.obj i)⟩, ⟨h.mem_held.2 hi, ?_, rfl⟩, ⟨hchain, ?_, ?_⟩, hkept⟩
  · simp only [exec, hfree, bind, Except.bind, pure, Except.pure]
  · rw [h.held, List.map_erase L.obj_injective]
  · refine List.Perm.trans ?_ h.perm
    rw [List.cons_append]
    exact List.perm_middle.symm.trans ((List.perm_cons_erase hi).symm.append_left chain)

theorem step_write {offset : Nat} {bytes : List UInt8} (h : Split L v chain hs) (hi : i ∈ hs)
    (hle : offset + bytes.length ≤ objSize) :
    ∃ v', Step v (.write (L.obj i) offset bytes, none) v' ∧ Split L v' chain hs ∧ Kept L v.st v'.st chain chain := by
  obtain ⟨s', hwrite, hchain, hkept⟩ := write_spec h.free ((h.mem i).2 (Or.inr hi)) (h.disjoint hi) hle
  refine ⟨⟨s', v.held⟩, ⟨⟨h.mem_held.2 hi, ?_⟩, hwrite, rfl⟩, ⟨hchain, h.held, h.perm⟩, hkept⟩
  rwa [h.free.fits.size]

/-- Every legal call returns, and the blocks are split again. -/
theorem step_total (h : Split L v chain hs) (hlegal : Legal v call) :
    ∃ out v' chain' hs', Step v (call, out) v' ∧ Split L v' chain' hs' ∧ Kept L v.st v'.st chain chain' := by
  cases call with
  | alloc =>
    cases chain with
    | nil => exact ⟨none, v, [], hs, step_alloc_nil h, h, Kept.refl L v.st []⟩
    | cons i chain =>
      obtain ⟨v', hstep, h', hkept, _⟩ := step_alloc_cons h
      exact ⟨_, v', _, _, hstep, h', hkept⟩
  | free block =>
    have hblock : block ∈ v.held := hlegal
    rw [h.held] at hblock
    obtain ⟨i, hi, rfl⟩ := List.mem_map.1 hblock
    obtain ⟨v', hstep, h', hkept⟩ := step_free h hi
    exact ⟨_, v', _, _, hstep, h', hkept⟩
  | write block offset bytes =>
    obtain ⟨hblock, hle⟩ := hlegal
    rw [h.held] at hblock
    rw [h.free.fits.size] at hle
    obtain ⟨i, hi, rfl⟩ := List.mem_map.1 hblock
    obtain ⟨v', hstep, h', hkept⟩ := step_write h hi hle
    exact ⟨_, v', _, _, hstep, h', hkept⟩

theorem Step.unique {v1 v2 : World} {out1 out2 : Option Nat} (h1 : Step v (call, out1) v1) (h2 : Step v (call, out2) v2) :
    v1 = v2 ∧ out1 = out2 := by
  obtain ⟨s1, held1⟩ := v1
  obtain ⟨s2, held2⟩ := v2
  obtain ⟨_, hexec1, hheld1⟩ := h1
  obtain ⟨_, hexec2, hheld2⟩ := h2
  obtain ⟨rfl, rfl⟩ := Prod.mk.inj (Except.ok.inj (hexec1.symm.trans hexec2))
  simp only at hheld1 hheld2
  rw [hheld1, hheld2]
  exact ⟨rfl, rfl⟩

/-! ## Runs -/

theorem Split.step (h : Split L v chain hs) (hstep : Step v (call, out) v') :
    ∃ chain' hs', Split L v' chain' hs' ∧ Kept L v.st v'.st chain chain' := by
  obtain ⟨out1, v1, chain', hs', hstep1, h1, hkept⟩ := step_total h hstep.1
  obtain ⟨rfl, _⟩ := hstep.unique hstep1
  exact ⟨chain', hs', h1, hkept⟩

theorem Split.run (h : Split L v chain hs) (hrun : Run Step v calls v') :
    ∃ chain' hs', Split L v' chain' hs' ∧ Kept L v.st v'.st chain chain' := by
  induction hrun generalizing chain hs with
  | nil v => exact ⟨chain, hs, h, Kept.refl L v.st chain⟩
  | cons hstep _ ih =>
    obtain ⟨chain1, hs1, h1, hkept1⟩ := h.step hstep
    obtain ⟨chain', hs', h', hkept'⟩ := ih h1
    exact ⟨chain', hs', h', hkept1.trans hkept'⟩

theorem chain_of_seg {c : Option Nat} (h : Fits L s) (hlt : ∀ i ∈ chain, i < blocks)
    (hseg : Seg some L.slot (read L s) c chain 0) : Chain s (read L s c) (chain.map L.slot) := by
  induction chain generalizing c with
  | nil =>
    have hnull : read L s c = 0 := hseg
    rw [hnull]
    exact .null
  | cons i chain ih =>
    obtain ⟨bytes, hload, hlink⟩ := load_slot h (hlt i List.mem_cons_self)
    have hrest := ih (fun j hj => hlt j (List.mem_cons_of_mem i hj)) hseg.2
    have hread : read L s (some i) = ofBytes bytes := hlink.symm
    rw [hread] at hrest
    rw [hseg.1, List.map_cons]
    exact .slot (L.slot_pos i) hload hrest

/-- The free blocks, and those held, are all blocks. -/
theorem Split.perm_obj (h : Split L v chain hs) :
    ((chain.map L.slot).map (slotObj objSize) ++ v.held).Perm ((List.range blocks).map L.obj) := by
  have hobj : (chain.map L.slot).map (slotObj objSize) = chain.map L.obj := by
    rw [List.map_map]
    refine List.map_congr_left fun i hi => ?_
    have heq := slotObj_eq h.free.fits (h.free.lt i hi)
    rw [h.free.fits.size] at heq
    rw [Function.comp_apply, heq]
  rw [hobj, h.held, ← List.map_append]
  exact h.perm.map L.obj

/-- `a3_pool_alloc_block` returns `NULL` when all blocks are held, and one that is not held else. -/
theorem Split.alloc (h : Split L v chain hs) (hstep : Step v (.alloc, out) v') :
    (out = none ↔ ∀ block ∈ (List.range blocks).map L.obj, block ∈ v.held) ∧
      ∀ block, out = some block → block ∈ (List.range blocks).map L.obj ∧ block ∉ v.held := by
  cases chain with
  | nil =>
    obtain ⟨_, rfl⟩ := hstep.unique (step_alloc_nil h)
    refine ⟨⟨fun _ => ?_, fun _ => rfl⟩, fun _ hout => nomatch hout⟩
    intro block hblock
    obtain ⟨i, hi, rfl⟩ := List.mem_map.1 hblock
    exact h.mem_held.2 (((h.mem i).1 (List.mem_range.1 hi)).resolve_left List.not_mem_nil)
  | cons i chain =>
    obtain ⟨v1, hstep1, _, _⟩ := step_alloc_cons h
    obtain ⟨_, rfl⟩ := hstep.unique hstep1
    have hi : L.obj i ∈ (List.range blocks).map L.obj :=
      List.mem_map_of_mem (List.mem_range.2 (h.free.lt i List.mem_cons_self))
    have hni : L.obj i ∉ v.held := fun hheld => h.disjoint (h.mem_held.1 hheld) List.mem_cons_self
    refine ⟨⟨fun hout => absurd hout (by simp), fun hall => absurd (hall (L.obj i) hi) hni⟩, ?_⟩
    rintro _ ⟨⟩
    exact ⟨hi, hni⟩

/-- One call after the other takes all free blocks. -/
theorem Split.alloc_all (h : Split L v chain hs) :
    ∃ v', Run Step v ((chain.map L.obj).map fun block => (.alloc, some block)) v' := by
  induction chain generalizing v hs with
  | nil => exact ⟨v, .nil v⟩
  | cons i chain ih =>
    obtain ⟨v1, hstep, h1, _⟩ := step_alloc_cons h
    obtain ⟨v', hrun⟩ := ih h1
    exact ⟨v', .cons hstep hrun⟩

/-- **Every block is free or held.** As long as the sizes do not overflow, in every state that calls and clients' writes
lead to, the chain from `free` and the blocks held are the pool's blocks, each once: no legal call fails,
`a3_pool_alloc_block` never returns a block that is held, it returns `NULL` if and only if all are, and calling it on and on
hands out all others. -/
theorem pool_partition {objSize blocks align base : Nat} (zeroBlocks : Bool) (initCb freeCb : Option Callback)
    (hblocks : 1 ≤ blocks) (halign : 1 ≤ align) (hfits : NoOverflow objSize blocks align) (hbase : 0 < base)
    (hspace : base + capacity objSize blocks align ≤ 2 ^ 64) :
    ∃ s0, newPool base objSize blocks align zeroBlocks initCb freeCb = .ok s0 ∧
      ∀ calls v, Run Step ⟨s0, []⟩ calls v →
        (blocksAt base objSize blocks align).Nodup ∧
        (∃ slots, Chain v.st v.st.pool.free slots ∧ slots.Nodup ∧
          (slots.map (slotObj objSize) ++ v.held).Perm (blocksAt base objSize blocks align)) ∧
        (∀ call, Legal v call → ∃ out v', Step v (call, out) v') ∧
        (∀ out v', Step v (.alloc, out) v' → (out = none ↔ ∀ block ∈ blocksAt base objSize blocks align, block ∈ v.held) ∧
          ∀ block, out = some block → block ∈ blocksAt base objSize blocks align ∧ block ∉ v.held) ∧
        ∃ (outs : List Nat) (v' : World), Run Step v (outs.map fun block => (.alloc, some block)) v' ∧
          ∀ block ∈ blocksAt base objSize blocks align, block ∉ v.held → block ∈ outs := by
  obtain ⟨s0, hnew, hchain, _⟩ := new_spec zeroBlocks initCb freeCb hblocks halign hfits hbase hspace
  refine ⟨s0, hnew, fun calls v hrun => ?_⟩
  have hat : blocksAt base objSize blocks align = (List.range blocks).map (Layout.ofNew hfits halign hbase hspace).obj := rfl
  rw [hat]
  generalize Layout.ofNew hfits halign hbase hspace = L at hchain
  obtain ⟨chain, hs, h, _⟩ := (Split.start hchain).run hrun
  refine ⟨List.nodup_range.map L.obj_injective, ?_, fun call hlegal => ?_, fun out v' hstep => h.alloc hstep, ?_⟩
  · exact ⟨_, chain_of_seg h.free.fits h.free.lt h.free.seg, h.free.nodup.map L.slot_injective, h.perm_obj⟩
  · obtain ⟨out, v', _, _, hstep, _, _⟩ := step_total h hlegal
    exact ⟨out, v', hstep⟩
  · obtain ⟨v', hrun'⟩ := h.alloc_all
    refine ⟨_, v', hrun', fun block hblock hheld => ?_⟩
    obtain ⟨i, hi, rfl⟩ := List.mem_map.1 hblock
    refine List.mem_map_of_mem ?_
    exact ((h.mem i).1 (List.mem_range.1 hi)).resolve_right fun hi' => hheld (h.mem_held.2 hi')

/-- `A3_POOL_OF` a type of 32 bytes: the four blocks are allocated, a fifth is asked for, and two are given back. -/
def fourCalls : List (Call × Option Nat) :=
  [(.alloc, some 4096), (.alloc, some 4136), (.alloc, some 4176), (.alloc, some 4216), (.alloc, none),
    (.write 4136 5 [7, 7], none), (.free 4136, none), (.free 4096, none), (.alloc, some 4096)]

theorem four_run : ∃ s0 v, newPool 4096 32 4 8 true none none = .ok s0 ∧
    Run Step ⟨s0, []⟩ fourCalls v ∧ v.held = [4096, 4216, 4176] := by
  have hfits : NoOverflow 32 4 8 := ⟨by decide, by decide, by decide⟩
  obtain ⟨s0, hnew, hfree, _⟩ :=
    new_spec true none none (by decide) (by decide) hfits (show 0 < 4096 by decide) (by decide)
  obtain ⟨v1, hstep1, h1, _⟩ := step_alloc_cons (Split.start hfree)
  obtain ⟨v2, hstep2, h2, _⟩ := step_alloc_cons h1
  obtain ⟨v3, hstep3, h3, _⟩ := step_alloc_cons h2
  obtain ⟨v4, hstep4, h4, _⟩ := step_alloc_cons h3
  have hstep5 := step_alloc_nil h4
  have hsecond : 1 ∈ [3, 2, 1, 0] := by decide
  obtain ⟨v6, hstep6, h6, _⟩ := step_write h4 hsecond (show 5 + ([7, 7] : List UInt8).length ≤ 32 by decide)
  obtain ⟨v7, hstep7, h7, _⟩ := step_free h6 hsecond
  obtain ⟨v8, hstep8, h8, _⟩ := step_free h7 (show 0 ∈ [3, 2, 0] by decide)
  obtain ⟨v9, hstep9, h9, _⟩ := step_alloc_cons h8
  have hrun := Run.cons hstep1 (.cons hstep2 (.cons hstep3 (.cons hstep4 (.cons hstep5 (.cons hstep6
    (.cons hstep7 (.cons hstep8 (Run.single hstep9))))))))
  exact ⟨s0, v9, hnew, hrun, h9.held⟩

theorem pool_partition_four :
    ∃ s0 v, newPool 4096 32 4 8 true none none = .ok s0 ∧ Run Step ⟨s0, []⟩ fourCalls v ∧
      (blocksAt 4096 32 4 8).Nodup ∧
      (∃ slots, Chain v.st v.st.pool.free slots ∧ slots.Nodup ∧
        (slots.map (slotObj 32) ++ [4096, 4216, 4176]).Perm (blocksAt 4096 32 4 8)) ∧
      (∀ call, Legal v call → ∃ out v', Step v (call, out) v') ∧
      (∀ out v', Step v (.alloc, out) v' →
        (out = none ↔ ∀ block ∈ blocksAt 4096 32 4 8, block ∈ [4096, 4216, 4176]) ∧
          ∀ block, out = some block → block ∈ blocksAt 4096 32 4 8 ∧ block ∉ [4096, 4216, 4176]) ∧
      ∃ (outs : List Nat) (v' : World), Run Step v (outs.map fun block => (.alloc, some block)) v' ∧
        ∀ block ∈ blocksAt 4096 32 4 8, block ∉ [4096, 4216, 4176] → block ∈ outs := by
  obtain ⟨s0, v, hnew, hrun, hheld⟩ := four_run
  obtain ⟨s1, hnew1, hpool⟩ := pool_partition true none none (show 1 ≤ 4 by decide) (show 1 ≤ 8 by decide)
    (show NoOverflow 32 4 8 from ⟨by decide, by decide, by decide⟩) (show 0 < 4096 by decide) (by decide)
  obtain rfl : s0 = s1 := Except.ok.inj (hnew.symm.trans hnew1)
  rw [← hheld]
  exact ⟨s0, v, hnew, hrun, hpool fourCalls v hrun⟩

/-! ## Sizes that overflow -/

/-- Two blocks of objects of `SIZE_MAX` bytes: each block is its slot, of eight bytes. -/
def wrapped (free : Nat) (first second : List UInt8) : St :=
  ⟨⟨64, free, 2 ^ 64 - 1, 16, false, none⟩, first ++ second, []⟩

theorem slotObj_wrapped {n : Nat} (h : n < 2 ^ 64) : slotObj (2 ^ 64 - 1) n = n := by
  have hoffset : slotOffset (2 ^ 64 - 1) = 0 := by decide
  rw [slotObj, hoffset]
  exact wrap_sub (Nat.zero_le n) h

theorem alloc_wrapped_first {n : Nat} {second : List UInt8} (hn : n < 2 ^ 64) (hlen : second.length = 8) :
    allocBlock (wrapped 64 (toBytes 8 n) second) = .ok (wrapped n (toBytes 8 0) second, some 64) := by
  have hload : load (wrapped 64 (toBytes 8 n) second) 64 8 = .ok (toBytes 8 n) := by
    simp [load, wrapped, window, hlen]
  have hstore : store ((wrapped 64 (toBytes 8 n) second).withFree n) 64 (toBytes 8 0) =
      .ok (wrapped n (toBytes 8 0) second) := by
    simp [store, wrapped, splice, St.withFree, hlen]
  exact alloc_eq rfl (Nat.succ_ne_zero 63) hload (ofBytes_toBytes hn) hstore (slotObj_wrapped (by simp [wrapped]))

theorem alloc_wrapped_second {n : Nat} {first : List UInt8} (hn : n < 2 ^ 64) (hlen : first.length = 8) :
    allocBlock (wrapped 72 first (toBytes 8 n)) = .ok (wrapped n first (toBytes 8 0), some 72) := by
  have htake : (first ++ toBytes 8 n).take 16 = first ++ toBytes 8 n := List.take_of_length_le (by simp [hlen])
  have hload : load (wrapped 72 first (toBytes 8 n)) 72 8 = .ok (toBytes 8 n) := by
    simp [load, wrapped, window, htake, hlen]
  have hstore : store ((wrapped 72 first (toBytes 8 n)).withFree n) 72 (toBytes 8 0) =
      .ok (wrapped n first (toBytes 8 0)) := by
    simp [store, wrapped, splice, St.withFree, hlen]
  exact alloc_eq rfl (Nat.succ_ne_zero 71) hload (ofBytes_toBytes hn) hstore (slotObj_wrapped (by simp [wrapped]))

theorem write_wrapped {n : Nat} {first second bytes : List UInt8} (hfirst : first.length = 8) (hsecond : second.length = 8)
    (hlen : bytes.length = 8) : exec (wrapped n first second) (.write 64 8 bytes) = .ok (wrapped n first bytes, none) := by
  have hstore : store (wrapped n first second) (wrap (64 + 8)) bytes = .ok (wrapped n first bytes) := by
    simp [store, wrapped, splice, wrap, hfirst, hsecond, hlen]
  simp only [exec, hstore, bind, Except.bind, pure, Except.pure]

/-- What the holder of the first block writes into the second eight bytes of its object is the link of the other block: the
third call returns the first block again. -/
theorem pool_link_overwritten :
    ∃ s0 v v', newPool 64 (2 ^ 64 - 1) 2 8 false none none = .ok s0 ∧
      Run Step ⟨s0, []⟩ [(.alloc, some 64), (.write 64 8 (toBytes 8 64), none), (.alloc, some 72)] v ∧
      Step v (.alloc, some 64) v' ∧ 64 ∈ v.held := by
  have hnew : newPool 64 (2 ^ 64 - 1) 2 8 false none none = .ok (wrapped 64 (toBytes 8 72) (toBytes 8 0)) := rfl
  have hfirst : Step ⟨wrapped 64 (toBytes 8 72) (toBytes 8 0), []⟩ (.alloc, some 64)
      ⟨wrapped 72 (toBytes 8 0) (toBytes 8 0), [64]⟩ := ⟨trivial, alloc_wrapped_first (by decide) rfl, rfl⟩
  have hwrite : Step ⟨wrapped 72 (toBytes 8 0) (toBytes 8 0), [64]⟩ (.write 64 8 (toBytes 8 64), none)
      ⟨wrapped 72 (toBytes 8 0) (toBytes 8 64), [64]⟩ :=
    ⟨⟨List.mem_singleton_self 64, by simp [wrapped]⟩, write_wrapped rfl rfl rfl, rfl⟩
  have hsecond : Step ⟨wrapped 72 (toBytes 8 0) (toBytes 8 64), [64]⟩ (.alloc, some 72)
      ⟨wrapped 64 (toBytes 8 0) (toBytes 8 0), [72, 64]⟩ := ⟨trivial, alloc_wrapped_second (by decide) rfl, rfl⟩
  have hthird : Step ⟨wrapped 64 (toBytes 8 0) (toBytes 8 0), [72, 64]⟩ (.alloc, some 64)
      ⟨wrapped 0 (toBytes 8 0) (toBytes 8 0), [64, 72, 64]⟩ := ⟨trivial, alloc_wrapped_first (by decide) rfl, rfl⟩
  exact ⟨_, _, _, hnew, .cons hfirst (.cons hwrite (.single hsecond)), hthird, by decide⟩

end A3Pool
