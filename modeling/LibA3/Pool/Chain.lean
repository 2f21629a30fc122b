import LibA3.Fallible
import LibA3.Pool.Layout

/-!
# The free blocks

`FreeChain` says that the links from `free` on run through the given blocks, and end in `NULL`. `a3_pool_new` leaves all
blocks free, in order; `a3_pool_alloc_block` takes the first one, and `a3_pool_free_block` makes a block the first one.
-/

namespace A3Pool

open Fallible Links Mem

variable {objSize blocks i n off : Nat} {L : Layout objSize blocks} {s : St} {bytes : List UInt8} {chain : List Nat}

/-- `free`, or the slot of a block. -/
def read (L : Layout objSize blocks) (s : St) : Option Nat → Nat
  | none => s.pool.free
  | some i => link L s i

structure FreeChain (L : Layout objSize blocks) (s : St) (chain : List Nat) : Prop where
  fits : Fits L s
  seg : Seg some L.slot (read L s) none chain 0
  lt : ∀ i ∈ chain, i < blocks

theorem FreeChain.nodup (h : FreeChain L s chain) : chain.Nodup := h.seg.nodup L.slot_injective L.slot_pos

theorem Fits.withFree (h : Fits L s) (free : Nat) : Fits L (s.withFree free) := ⟨h.data, h.size, h.offset, h.length⟩

/-! ## What calls leave alone -/

/-- Where blocks are cleared, the objects of the given blocks are zero. -/
def Clean (L : Layout objSize blocks) (s : St) (chain : List Nat) : Prop :=
  s.pool.zeroBlocks = true → ∀ i ∈ chain, object L s i = List.replicate objSize 0

/-- From one chain to the next. -/
structure Kept (L : Layout objSize blocks) (s s' : St) (chain chain' : List Nat) : Prop where
  zeroBlocks : s'.pool.zeroBlocks = s.pool.zeroBlocks
  freeCb : s'.pool.freeCb = s.pool.freeCb
  clean : Clean L s chain → Clean L s' chain'

theorem Kept.refl (L : Layout objSize blocks) (s : St) (chain : List Nat) : Kept L s s chain chain := ⟨rfl, rfl, id⟩

theorem Kept.trans {s1 s2 : St} {chain1 chain2 : List Nat} (h : Kept L s s1 chain chain1) (h' : Kept L s1 s2 chain1 chain2) :
    Kept L s s2 chain chain2 where
  zeroBlocks := h'.zeroBlocks.trans h.zeroBlocks
  freeCb := h'.freeCb.trans h.freeCb
  clean hclean := h'.clean (h.clean hclean)

/-! ## Clients -/

theorem Fits.put_object (h : Fits L s) (hi : i < blocks) (hle : off + bytes.length ≤ objSize) :
    Fits L (s.put (i * L.stride + off) bytes) := by
  have hblock := L.block_le hi
  have hobj := L.object_le
  have hslot := L.slot_le
  exact h.put (by omega)

/-- No link lies in an object. -/
theorem seg_put_object {c : Option Nat} (h : Seg some L.slot (read L s) c chain 0) (hfits : Fits L s) (hi : i < blocks)
    (hle : off + bytes.length ≤ objSize) : Seg some L.slot (read L (s.put (i * L.stride + off) bytes)) c chain 0 := by
  refine h.congr fun d _ => ?_
  cases d with
  | none => rfl
  | some j => exact link_put_object hfits hi hle j

theorem FreeChain.put_object (h : FreeChain L s chain) (hi : i < blocks) (hle : off + bytes.length ≤ objSize) :
    FreeChain L (s.put (i * L.stride + off) bytes) chain :=
  ⟨h.fits.put_object hi hle, seg_put_object h.seg h.fits hi hle, h.lt⟩

theorem store_object (h : Fits L s) (hi : i < blocks) (hle : off + bytes.length ≤ objSize) :
    store s (L.obj i + off) bytes = .ok (s.put (i * L.stride + off) bytes) := by
  have hblock := L.block_le hi
  have hobj := L.object_le
  have hslot := L.slot_le
  rw [Layout.obj, Nat.add_assoc]
  exact store_eq h (by omega)

theorem store_slot (h : Fits L s) (hi : i < blocks) (hlen : bytes.length = 8) :
    store s (L.slot i) bytes = .ok (s.put (i * L.stride + L.offset) bytes) := by
  have hblock := L.block_le hi
  have hslot := L.slot_le
  exact store_eq h (by omega)

theorem Fits.put_slot (h : Fits L s) (hi : i < blocks) (hlen : bytes.length = 8) :
    Fits L (s.put (i * L.stride + L.offset) bytes) := by
  have hblock := L.block_le hi
  have hslot := L.slot_le
  exact h.put (by omega)

theorem write_spec (h : FreeChain L s chain) (hi : i < blocks) (hni : i ∉ chain) (hle : off + bytes.length ≤ objSize) :
    ∃ s', exec s (.write (L.obj i) off bytes) = .ok (s', none) ∧ FreeChain L s' chain ∧ Kept L s s' chain chain := by
  have hblock := L.block_le hi
  have hobj := L.object_le
  have hslot := L.slot_le
  have hmem := L.in_memory
  have haddr : wrap (L.obj i + off) = L.obj i + off := wrap_eq (by rw [Layout.obj]; omega)
  refine ⟨_, ?_, h.put_object hi hle, rfl, rfl, ?_⟩
  · simp only [exec, haddr, store_object h.fits hi hle, bind, Except.bind, pure, Except.pure]
  · intro hclean hz j hj
    rw [object_put_object_ne h.fits hi hle fun heq => hni (heq ▸ hj)]
    exact hclean hz j hj

/-! ## Blocks allocated and freed -/

theorem alloc_nil (h : FreeChain L s []) : allocBlock s = .ok (s, none) := by
  have hfree : s.pool.free = 0 := h.seg
  simp only [allocBlock, if_pos hfree]
  rfl

theorem alloc_eq {slot next obj : Nat} {s' : St} (hfree : s.pool.free = slot) (hne : slot ≠ 0)
    (hload : load s slot 8 = .ok bytes) (hnext : ofBytes bytes = next)
    (hstore : store (s.withFree next) slot (toBytes 8 0) = .ok s') (hobj : slotObj s'.pool.objSize slot = obj) :
    allocBlock s = .ok (s', some obj) := by
  subst hnext hobj
  simp only [allocBlock, hfree, if_neg hne, hload, hstore, bind, Except.bind, pure, Except.pure]

theorem alloc_cons (h : FreeChain L s (i :: chain)) :
    ∃ s', allocBlock s = .ok (s', some (L.obj i)) ∧ FreeChain L s' chain ∧ Kept L s s' (i :: chain) chain ∧
      object L s' i = object L s i := by
  have hfree : s.pool.free = L.slot i := h.seg.1
  have hi : i < blocks := h.lt i List.mem_cons_self
  obtain ⟨next, hload, hnext⟩ := load_slot h.fits hi
  have hfits := h.fits.withFree (ofBytes next)
  have hlen : (toBytes 8 0).length = 8 := length_toBytes
  have hni : i ∉ chain := (List.nodup_cons.1 h.nodup).1
  have hobject := object_put_slot hfits hi hlen
  refine ⟨(s.withFree (ofBytes next)).put (i * L.stride + L.offset) (toBytes 8 0), ?_, ⟨hfits.put_slot hi hlen, ?_, ?_⟩,
    ⟨rfl, rfl, ?_⟩, hobject i⟩
  · exact alloc_eq hfree (L.slot_pos i) hload rfl (store_slot hfits hi hlen) (slotObj_eq (hfits.put_slot hi hlen) hi)
  · -- `free` holds what the slot of the first block held
    refine h.seg.2.moved hnext fun j hj => ?_
    exact link_put_slot_ne hfits hi hlen fun heq => hni (heq ▸ hj)
  · exact fun j hj => h.lt j (List.mem_cons_of_mem i hj)
  · intro hclean hz j hj
    rw [hobject j]
    exact hclean hz j (List.mem_cons_of_mem i hj)

/-- The block given back is clear before it is linked. -/
theorem zeroBlock_spec (h : FreeChain L s chain) (hi : i < blocks) (hni : i ∉ chain) :
    ∃ s', zeroBlock s (L.obj i) = .ok s' ∧ FreeChain L s' chain ∧ Kept L s s' chain (i :: chain) := by
  cases hz : s.pool.zeroBlocks with
  | false =>
    refine ⟨s, by simp [zeroBlock, hz], h, rfl, rfl, fun _ htrue => ?_⟩
    rw [hz] at htrue
    cases htrue
  | true =>
    have hsize : (List.replicate s.pool.objSize (0 : UInt8)).length = objSize := by
      rw [List.length_replicate, h.fits.size]
    have hle : 0 + (List.replicate s.pool.objSize (0 : UInt8)).length ≤ objSize := by omega
    refine ⟨s.put (i * L.stride) (List.replicate s.pool.objSize 0), ?_, h.put_object hi hle, rfl, rfl, ?_⟩
    · rw [zeroBlock, if_pos hz]
      exact store_object h.fits hi hle
    · intro hclean _ j hj
      rcases List.mem_cons.1 hj with rfl | hj
      · rw [object_put_self h.fits hi hsize, h.fits.size]
      · have hobject := object_put_object_ne h.fits hi hle fun heq => hni (heq ▸ hj)
        exact hobject.trans (hclean hz j hj)

theorem free_spec (h : FreeChain L s chain) (hi : i < blocks) (hni : i ∉ chain) :
    ∃ s', freeBlock s (L.obj i) = .ok s' ∧ FreeChain L s' (i :: chain) ∧ Kept L s s' chain (i :: chain) := by
  obtain ⟨s1, hzero, h1, hkept⟩ := zeroBlock_spec h hi hni
  have hlen : (toBytes 8 s1.pool.free).length = 8 := length_toBytes
  have hslot := objSlot_eq h1.fits hi
  refine ⟨(s1.put (i * L.stride + L.offset) (toBytes 8 s1.pool.free)).withFree (L.slot i), ?_,
    ⟨(h1.fits.put_slot hi hlen).withFree _, ⟨rfl, ?_⟩, ?_⟩, hkept.zeroBlocks, hkept.freeCb, ?_⟩
  · simp only [freeBlock, if_neg (L.obj_pos i), hzero, hslot, store_slot h1.fits hi hlen, bind, Except.bind, pure,
      Except.pure]
  · -- the slot holds what `free` held
    have hfree : s1.pool.free < 2 ^ 64 := by
      rw [show s1.pool.free = first L.slot chain 0 from h1.seg.read_first]
      cases chain with
      | nil => exact Nat.two_pow_pos 64
      | cons j chain => exact L.slot_lt (h1.lt j List.mem_cons_self)
    refine h1.seg.moved (link_put_slot h1.fits hi _ hfree) fun j hj => ?_
    exact link_put_slot_ne h1.fits hi hlen fun heq => hni (heq ▸ hj)
  · intro j hj
    rcases List.mem_cons.1 hj with rfl | hj
    · exact hi
    · exact h1.lt j hj
  · intro hclean hz j hj
    exact (object_put_slot h1.fits hi hlen j).trans (hkept.clean hclean hz j hj)

/-! ## A new pool -/

/-- `a3_pool_new` returns if its assertion holds, with what its loop leaves. -/
theorem newPool_cases {align base : Nat} {zeroBlocks : Bool} {initCb freeCb : Option Callback}
    (h : newPool base objSize blocks align zeroBlocks initCb freeCb = .ok s) :
    (0 < capacity objSize blocks align ∧ 0 < align) ∧
      linkSlots (blockSize objSize align) initCb (wrap (blocks + 2 ^ 64 - 1)) 0
        ⟨⟨base, objSlot objSize base, objSize, capacity objSize blocks align, zeroBlocks, freeCb⟩,
          List.replicate (capacity objSize blocks align) 0, []⟩ = .ok s := by
  unfold newPool at h
  obtain ⟨hasserts, h⟩ := guard_ok h rfl
  exact ⟨not_not.1 hasserts, h⟩

theorem newPool_pos {align base : Nat} {zeroBlocks : Bool} {initCb freeCb : Option Callback}
    (h : newPool base objSize blocks align zeroBlocks initCb freeCb = .ok s) : 0 < blocks ∧ 0 < align := by
  obtain ⟨⟨hcap, halign⟩, _⟩ := newPool_cases h
  refine ⟨Nat.pos_of_ne_zero ?_, halign⟩
  rintro rfl
  simp [capacity, wrap] at hcap

/-- The loop of `a3_pool_new` has linked the slots before `k`. -/
structure Linked (L : Layout objSize blocks) (s : St) (k : Nat) : Prop where
  fits : Fits L s
  free : s.pool.free = L.slot 0
  links : ∀ j, j < blocks → link L s j = if j < k then L.slot (j + 1) else 0

/-- What the init callback has been called with, and what it may have changed. -/
structure Inited (L : Layout objSize blocks) (initCb : Option Callback) (s s' : St) (new : List Nat) : Prop where
  pool : s'.pool = s.pool
  inits : s'.inits = if initCb.isSome then (new.map L.obj).reverse ++ s.inits else s.inits
  objects : initCb = none → ∀ j, object L s' j = object L s j

theorem Inited.trans {initCb : Option Callback} {s1 s2 : St} {new new' : List Nat} (h : Inited L initCb s s1 new)
    (h' : Inited L initCb s1 s2 new') : Inited L initCb s s2 (new ++ new') where
  pool := h'.pool.trans h.pool
  inits := by
    rw [h'.inits, h.inits]
    split
    · rw [List.map_append, List.reverse_append, List.append_assoc]
    · rfl
  objects hnone j := (h'.objects hnone j).trans (h.objects hnone j)

theorem callInit_spec (initCb : Option Callback) {k : Nat} (h : Linked L s k) (hi : i < blocks) :
    ∃ s', callInit initCb s (L.obj i) = .ok s' ∧ Linked L s' k ∧ Inited L initCb s s' [i] := by
  cases initCb with
  | none => exact ⟨s, rfl, h, rfl, rfl, fun _ _ => rfl⟩
  | some cb =>
    have hload := load_object h.fits hi
    have hlen : 0 + (cb.run (L.obj i) (object L s i)).length ≤ objSize := by
      rw [cb.length_run, length_object h.fits hi]
      omega
    have hstore := store_object h.fits hi hlen
    rw [Nat.add_zero, Nat.add_zero] at hstore
    refine ⟨{ s.put (i * L.stride) (cb.run (L.obj i) (object L s i)) with inits := L.obj i :: s.inits }, ?_, ?_, ?_⟩
    · simp only [callInit, hload, hstore, bind, Except.bind, pure, Except.pure]
      rfl
    · have hblock := L.block_le hi
      have hobj := L.object_le
      have hslot := L.slot_le
      have hput : Fits L (s.put (i * L.stride) (cb.run (L.obj i) (object L s i))) := h.fits.put (by omega)
      refine ⟨⟨hput.data, hput.size, hput.offset, hput.length⟩, h.free, fun j hj => ?_⟩
      rw [← h.links j hj]
      exact link_put_object h.fits hi hlen j
    · exact ⟨rfl, rfl, fun hnone => nomatch hnone⟩

theorem linkSlots_spec (initCb : Option Callback) (h : Linked L s i) (hn : i + n < blocks) :
    ∃ s', linkSlots L.stride initCb n i s = .ok s' ∧ Linked L s' (i + n) ∧ Inited L initCb s s' (List.range' i n) := by
  induction n generalizing i s with
  | zero => exact ⟨s, rfl, h, rfl, by simp, fun _ _ => rfl⟩
  | succ n ih =>
    have hi : i < blocks := by omega
    have hlt := L.slot_lt hi
    have hlt' : L.slot (i + 1) < 2 ^ 64 := L.slot_lt (by omega)
    have hslot : wrap (s.pool.data + L.stride * i + slotOffset s.pool.objSize) = L.slot i := by
      rw [h.fits.data, h.fits.size, h.fits.offset, Nat.mul_comm, Nat.add_assoc]
      exact wrap_eq hlt
    have hnext : wrap (s.pool.data + (i + 1) * L.stride + slotOffset s.pool.objSize) = L.slot (i + 1) := by
      rw [h.fits.data, h.fits.size, h.fits.offset, Nat.add_assoc]
      exact wrap_eq hlt'
    have hlen : (toBytes 8 (L.slot (i + 1))).length = 8 := length_toBytes
    have h1 : Linked L (s.put (i * L.stride + L.offset) (toBytes 8 (L.slot (i + 1)))) (i + 1) := by
      refine ⟨h.fits.put_slot hi hlen, h.free, fun j hj => ?_⟩
      by_cases heq : i = j
      · subst heq
        rw [if_pos (Nat.lt_succ_self i)]
        exact link_put_slot h.fits hi _ hlt'
      · rw [link_put_slot_ne h.fits hi hlen heq, h.links j hj]
        refine if_congr ?_ rfl rfl
        omega
    -- storing the link calls nobody
    have hinited : Inited L initCb s (s.put (i * L.stride + L.offset) (toBytes 8 (L.slot (i + 1)))) [] :=
      ⟨rfl, (ite_self s.inits).symm, fun _ j => object_put_slot h.fits hi hlen j⟩
    obtain ⟨s2, hinit, h2, hinited2⟩ := callInit_spec initCb h1 hi
    obtain ⟨s', hloop, h', hinited'⟩ := ih h2 (by omega)
    refine ⟨s', ?_, by rwa [Nat.add_right_comm] at h', (hinited.trans hinited2).trans hinited'⟩
    have hobj := slotObj_eq h1.fits hi
    simp only [linkSlots, hslot, hnext, store_slot h.fits hi hlen, hobj, hinit, hloop, bind, Except.bind]

/-- Before the loop all bytes are zero. -/
theorem linked_zero (h : Fits L s) (hblocks : 0 < blocks) (hfree : s.pool.free = objSlot s.pool.objSize (L.obj 0))
    (hbytes : s.bytes = List.replicate (blocks * L.stride) 0) : Linked L s 0 := by
  refine ⟨h, by rw [hfree, objSlot_eq h hblocks], fun j _ => ?_⟩
  rw [if_neg (Nat.not_lt_zero j), link, hbytes, window, List.take_replicate, List.drop_replicate, ofBytes_replicate_zero]

/-- The last slot is left as it was. -/
theorem Linked.free_all (h : Linked L s (blocks - 1)) (hblocks : 0 < blocks) : FreeChain L s (List.range blocks) := by
  refine ⟨h.fits, ?_, fun i hi => List.mem_range.1 hi⟩
  have hrange : List.range blocks = List.range' 0 (blocks - 1 + 1) := by
    rw [List.range_eq_range', Nat.sub_add_cancel hblocks]
  rw [hrange]
  refine seg_range' h.free (fun j _ hj => ?_) ?_
  · exact (h.links j (by omega)).trans (if_pos (by omega))
  · exact (h.links _ (by omega)).trans (if_neg (by omega))

theorem object_zero (hbytes : s.bytes = List.replicate (blocks * L.stride) 0) (hi : i < blocks) :
    object L s i = List.replicate objSize 0 := by
  have hblock := L.block_le hi
  have hobj := L.object_le
  have hslot := L.slot_le
  unfold object window
  rw [hbytes, List.take_replicate, List.drop_replicate]
  congr 1
  omega

/-- `a3_pool_new` leaves all blocks free, and has called the init callback for all but the last one. -/
theorem new_spec {align base : Nat} (zeroBlocks : Bool) (initCb freeCb : Option Callback) (hblocks : 0 < blocks)
    (halign : 0 < align) (hfits : NoOverflow objSize blocks align) (hbase : 0 < base)
    (hspace : base + capacity objSize blocks align ≤ 2 ^ 64) :
    ∃ s, newPool base objSize blocks align zeroBlocks initCb freeCb = .ok s ∧
      FreeChain (.ofNew hfits halign hbase hspace) s (List.range blocks) ∧
      s.pool.zeroBlocks = zeroBlocks ∧ s.pool.freeCb = freeCb ∧
      (initCb.isSome → s.inits = ((List.range (blocks - 1)).map (Layout.ofNew hfits halign hbase hspace).obj).reverse) ∧
      (initCb = none → Clean (.ofNew hfits halign hbase hspace) s (List.range blocks)) := by
  have hcap : capacity objSize blocks align = blocks * blockSize objSize align := wrap_eq hfits.cap
  generalize hL : Layout.ofNew hfits halign hbase hspace = L
  have hstride : blockSize objSize align = L.stride := by rw [← hL]; rfl
  have hdata : base = L.base := by rw [← hL]; rfl
  have hoffset : slotOffset objSize = L.offset := by rw [← hL]; rfl
  rw [hstride] at hcap
  have hpos : 0 < capacity objSize blocks align ∧ 0 < align := ⟨hcap ▸ Nat.mul_pos hblocks L.stride_pos, halign⟩
  have hcount : wrap (blocks + 2 ^ 64 - 1) = blocks - 1 := by
    have hle : blocks ≤ blocks * L.stride := Nat.le_mul_of_pos_right blocks L.stride_pos
    have hmem := L.in_memory
    exact wrap_sub hblocks (by omega)
  generalize hs : (⟨⟨base, objSlot objSize base, objSize, capacity objSize blocks align, zeroBlocks, freeCb⟩,
    List.replicate (capacity objSize blocks align) 0, []⟩ : St) = s
  have hbytes : s.bytes = List.replicate (blocks * L.stride) 0 := by rw [← hs, hcap]
  have h0 : Linked L s 0 := by
    refine linked_zero ⟨?_, ?_, hoffset, by rw [hbytes, List.length_replicate]⟩ hblocks ?_ hbytes
    · rw [← hs, hdata]
    · rw [← hs]
    · rw [Layout.obj, Nat.zero_mul, Nat.add_zero, ← hs, hdata]
  obtain ⟨s', hloop, h', hinited⟩ := linkSlots_spec initCb h0 (show 0 + (blocks - 1) < blocks by omega)
  rw [Nat.zero_add] at h'
  refine ⟨s', ?_, h'.free_all hblocks, ?_, ?_, fun hsome => ?_, fun hnone _ j hj => ?_⟩
  · simp only [newPool, hpos, hcount, hs, hstride, bind, Except.bind]
    exact hloop
  · rw [hinited.pool, ← hs]
  · rw [hinited.pool, ← hs]
  · rw [hinited.inits, if_pos hsome, List.range_eq_range', ← hs, List.append_nil]
  · rw [hinited.objects hnone j]
    exact object_zero hbytes (List.mem_range.1 hj)

end A3Pool
