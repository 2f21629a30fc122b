import LibA3.Pool.Partition

/-!
# The callbacks

`a3_pool_free` calls the free callback along the chain of free blocks: for every block, once all have been given back.
`a3_pool_new` calls the init callback in the loop that links each slot to the next, and the last slot is not linked.

* `callbacks_unpaired` — every block but the last is initialised, and every one is torn down
-/

namespace A3Pool

open Fallible Links Mem Trans

variable {objSize blocks align base i n off : Nat} {L : Layout objSize blocks} {s s' s0 : St} {bytes : List UInt8}
  {chain frees : List Nat} {cb : Callback}

def callFree (cb : Callback) (s : St) (obj : Nat) : Except Fault St := do
  store s obj (cb.run obj (← load s obj s.pool.objSize))

/-- The loop of `a3_pool_free` (`pool.c:95`): the objects that the free callback has been called with, the last one first.
`none` if it has not ended within its fuel. -/
def freeLoop (cb : Callback) : Nat → St → Nat → List Nat → Option (Except Fault (List Nat))
  | 0, _, _, _ => none
  | fuel + 1, s, current, frees =>
    if current = 0 then some (.ok frees)
    else
      match callFree cb s (slotObj s.pool.objSize current) with
      | .error e => some (.error e)
      | .ok s =>
        -- the callback has run when the link is read
        match load s current 8 with
        | .error e => some (.error e)
        | .ok next => freeLoop cb fuel s (ofBytes next) (slotObj s.pool.objSize current :: frees)

/-- `a3_pool_free` (`pool.c:91`), up to the storage's being freed -/
def freePool (fuel : Nat) (s : St) : Option (Except Fault (List Nat)) :=
  match s.pool.freeCb with
  | none => some (.ok [])
  | some cb => freeLoop cb fuel s s.pool.free []

/-! ## The walk -/

theorem callFree_eq (cb : Callback) (h : Fits L s) (hi : i < blocks) :
    callFree cb s (L.obj i) = .ok (s.put (i * L.stride + 0) (cb.run (L.obj i) (object L s i))) := by
  have hle : 0 + (cb.run (L.obj i) (object L s i)).length ≤ objSize := by
    rw [cb.length_run, length_object h hi]
    omega
  have hstore := store_object h hi hle
  rw [Nat.add_zero] at hstore
  simp only [callFree, load_object h hi, bind, Except.bind, hstore]

/-- The loop goes through the chain from where it is, in order. -/
theorem freeLoop_spec (cb : Callback) {c : Option Nat} (h : Fits L s) (hlt : ∀ i ∈ chain, i < blocks)
    (hseg : Seg some L.slot (read L s) c chain 0) {fuel : Nat} (hfuel : chain.length < fuel) :
    freeLoop cb fuel s (read L s c) frees = some (.ok ((chain.map L.obj).reverse ++ frees)) := by
  induction chain generalizing s c fuel frees with
  | nil =>
    obtain ⟨fuel, rfl⟩ := Nat.exists_eq_succ_of_ne_zero (Nat.ne_of_gt hfuel)
    have hnull : read L s c = 0 := hseg
    simp [freeLoop, hnull]
  | cons i chain ih =>
    obtain ⟨fuel, rfl⟩ := Nat.exists_eq_succ_of_ne_zero (Nat.ne_of_gt (Nat.lt_of_le_of_lt (Nat.zero_le _) hfuel))
    have hi : i < blocks := hlt i List.mem_cons_self
    have hobj := slotObj_eq h hi
    have hcall := callFree_eq cb h hi
    have hle : 0 + (cb.run (L.obj i) (object L s i)).length ≤ objSize := by
      rw [cb.length_run, length_object h hi]
      omega
    generalize cb.run (L.obj i) (object L s i) = left at hcall hle
    have h1 : Fits L (s.put (i * L.stride + 0) left) := h.put_object hi hle
    obtain ⟨next, hload, hnext⟩ := load_slot h1 hi
    have hobj1 := slotObj_eq h1 hi
    have hrest : freeLoop cb fuel (s.put (i * L.stride + 0) left) (read L (s.put (i * L.stride + 0) left) (some i))
        (L.obj i :: frees) = some (.ok ((chain.map L.obj).reverse ++ L.obj i :: frees)) :=
      ih h1 (fun j hj => hlt j (List.mem_cons_of_mem i hj)) (seg_put_object hseg.2 h hi hle)
        (Nat.lt_of_succ_lt_succ hfuel)
    have hread : read L (s.put (i * L.stride + 0) left) (some i) = ofBytes next := hnext.symm
    rw [hread] at hrest
    rw [hseg.1, freeLoop, if_neg (L.slot_pos i), hobj, hcall]
    simp only [hload, hobj1, hrest, List.map_cons, List.reverse_cons, List.append_assoc, List.singleton_append]

/-! ## Calls of the init callback -/

theorem inits_store {addr : Nat} (h : store s addr bytes = .ok s') : s'.inits = s.inits := by
  unfold store at h
  split at h
  · cases h
    rfl
  · cases h

/-- One turn of the loop of `a3_pool_new` calls it once, whatever the sizes. -/
theorem length_inits {size : Nat} (h : linkSlots size (some cb) n i s = .ok s') : s'.inits.length = n + s.inits.length := by
  induction n generalizing i s with
  | zero =>
    cases h
    exact (Nat.zero_add _).symm
  | succ n ih =>
    obtain ⟨s1, hstore, h⟩ := bind_ok h
    obtain ⟨s2, hinit, h⟩ := bind_ok h
    obtain ⟨found, _, hinit⟩ := bind_ok hinit
    obtain ⟨s3, hstore', hinit⟩ := bind_ok hinit
    cases hinit
    have hsame : s1.inits = s.inits := inits_store hstore
    have hsame' : s3.inits = s1.inits := inits_store hstore'
    rw [ih h, List.length_cons, hsame', hsame]
    omega

/-- The init callback is not called for every block, with whatever sizes. -/
theorem inits_not_perm {zeroBlocks : Bool} {freeCb : Option Callback} (hblocks : 1 ≤ blocks) (hlt : blocks < 2 ^ 64)
    (hnew : newPool base objSize blocks align zeroBlocks (some cb) freeCb = .ok s0) :
    ¬s0.inits.Perm (blocksAt base objSize blocks align) := by
  intro hperm
  have hlength := hperm.length_eq
  obtain ⟨_, hloop⟩ := newPool_cases hnew
  rw [length_inits hloop, wrap_sub hblocks (by omega)] at hlength
  simp [blocksAt] at hlength
  omega

/-- **The last block is torn down without having been initialised.** A pool with both callbacks has never called the init
callback once for each of its blocks; if the sizes do not overflow, it has called it for each but the last. Once all blocks
have been given back, `a3_pool_free` calls the free callback once for each of them. -/
theorem callbacks_unpaired {zeroBlocks : Bool} {initCb freeCb : Callback} (hblocks : 1 ≤ blocks) (hlt : blocks < 2 ^ 64)
    (hnew : newPool base objSize blocks align zeroBlocks (some initCb) (some freeCb) = .ok s0) :
    ¬s0.inits.Perm (blocksAt base objSize blocks align) ∧
      (NoOverflow objSize blocks align → 0 < base → base + capacity objSize blocks align ≤ 2 ^ 64 →
        s0.inits = (blocksAt base objSize blocks align).dropLast.reverse ∧
        ∀ calls v, Run Step ⟨s0, []⟩ calls v → v.held = [] →
          ∃ frees, (∀ fuel, blocks < fuel → freePool fuel v.st = some (.ok frees)) ∧
            frees.Perm (blocksAt base objSize blocks align)) := by
  refine ⟨inits_not_perm hblocks hlt hnew, fun hfits hbase hspace => ?_⟩
  obtain ⟨_, halign⟩ := newPool_pos hnew
  obtain ⟨s, hnew', hfree, _, hcb, hinits, _⟩ :=
    new_spec zeroBlocks (some initCb) (some freeCb) hblocks halign hfits hbase hspace
  obtain rfl : s0 = s := Except.ok.inj (hnew.symm.trans hnew')
  have hat : blocksAt base objSize blocks align = (List.range blocks).map (Layout.ofNew hfits halign hbase hspace).obj := rfl
  rw [hat]
  generalize Layout.ofNew hfits halign hbase hspace = L at hfree hinits
  refine ⟨?_, fun calls v hrun hheld => ?_⟩
  · have hlast : (List.range blocks).dropLast = List.range (blocks - 1) := by
      rw [List.dropLast_eq_take, List.length_range, List.take_range, Nat.min_eq_left (Nat.sub_le _ _)]
    rw [hinits rfl, ← List.map_dropLast, hlast]
  · obtain ⟨chain, hs, h, hkept⟩ := (Split.start hfree).run hrun
    have hhs : hs = [] := List.map_eq_nil_iff.1 (h.held.symm.trans hheld)
    subst hhs
    have hperm : chain.Perm (List.range blocks) := by simpa using h.perm
    have hlength : chain.length = blocks := by rw [hperm.length_eq, List.length_range]
    refine ⟨(chain.map L.obj).reverse, fun fuel hfuel => ?_, (List.reverse_perm _).trans (hperm.map L.obj)⟩
    have hloop : freeLoop freeCb fuel v.st v.st.pool.free [] = some (.ok ((chain.map L.obj).reverse ++ [])) :=
      freeLoop_spec freeCb h.free.fits h.free.lt h.free.seg (hlength.symm ▸ hfuel)
    have hfreeCb : v.st.pool.freeCb = some freeCb := hkept.freeCb.trans hcb
    rw [List.append_nil] at hloop
    simp only [freePool, hfreeCb]
    exact hloop

/-- A callback that leaves the object as it is. -/
def idle : Callback := ⟨fun _ bytes => bytes, fun _ _ => rfl⟩

theorem callbacks_unpaired_two :
    ∃ s0, newPool 4096 8 2 8 false (some idle) (some idle) = .ok s0 ∧ ¬s0.inits.Perm (blocksAt 4096 8 2 8) ∧
      s0.inits = (blocksAt 4096 8 2 8).dropLast.reverse ∧
      ∀ calls v, Run Step ⟨s0, []⟩ calls v → v.held = [] →
        ∃ frees, (∀ fuel, 2 < fuel → freePool fuel v.st = some (.ok frees)) ∧ frees.Perm (blocksAt 4096 8 2 8) := by
  obtain ⟨s0, hnew, _⟩ := new_spec false (some idle) (some idle) (show 0 < 2 by decide) (show 0 < 8 by decide)
    (show NoOverflow 8 2 8 from ⟨by decide, by decide, by decide⟩) (show 0 < 4096 by decide) (by decide)
  obtain ⟨hnot, hrest⟩ := callbacks_unpaired (by decide) (by decide) hnew
  exact ⟨s0, hnew, hnot, hrest ⟨by decide, by decide, by decide⟩ (by decide) (by decide)⟩

/-- A pool of one block: nothing is initialised, and one object is torn down. -/
theorem only_block_uninitialised :
    ∃ s0, newPool 4096 8 1 8 false (some idle) (some idle) = .ok s0 ∧ s0.inits = [] ∧ blocksAt 4096 8 1 8 = [4096] ∧
      freePool 2 s0 = some (.ok [4096]) :=
  ⟨_, rfl, rfl, rfl, rfl⟩

end A3Pool
