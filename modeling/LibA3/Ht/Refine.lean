import LibA3.Ht.Run

/-!
# The table is a finite map

What the table is for: a map from keys to values, keys being the same when `C` says so. `KeyMap` carries
that as a field, so that every map the specification below can build respects it. `spec` is the map's side
of a call. The only thing it takes from the table is the verdict of the capacity check; that growth and
rehashing go unnoticed is part of what the simulation says.
-/

namespace A3Ht

open HT Trans

variable {K V : Type}

/-! ## Maps up to equality of keys -/

structure KeyMap (M : Methods K) (V : Type) where
  get : K → Option V
  congr : ∀ a b, M.C a b = 0 → get a = get b

namespace KeyMap

variable {M : Methods K}

@[ext] theorem ext {m m' : KeyMap M V} (h : ∀ k, m.get k = m'.get k) : m = m' := by
  cases m
  cases m'
  congr
  funext k
  exact h k

/-- What a key equal to `k` is changed to; everything else is as it was. -/
def update (m : KeyMap M V) (k : K) (v : Option V) : KeyMap M V where
  get k' := if M.C k' k = 0 then v else m.get k'
  congr a b h := by
    have hiff : M.C a k = 0 ↔ M.C b k = 0 := ⟨fun ha => C_trans (C_comm.1 h) ha, fun hb => C_trans h hb⟩
    simp only [hiff, m.congr a b h]

def empty : KeyMap M V := ⟨fun _ => none, fun _ _ _ => rfl⟩

@[simp] theorem get_empty (k : K) : (empty : KeyMap M V).get k = none := rfl

@[simp] theorem get_update (m : KeyMap M V) (k k' : K) (v : Option V) :
    (m.update k v).get k' = if M.C k' k = 0 then v else m.get k' := rfl

end KeyMap

structure MapState (M : Methods K) (V : Type) where
  map : KeyMap M V
  duplicateCb : Option (V → V → V × Bool)

/-- What a call does to the map, and returns. -/
def spec {M : Methods K} (s : MapState M V) (op : Op K V) (refused : Bool) : MapState M V × Ret V :=
  match op with
  | .insert key value =>
    if refused then (s, .bool false)
    else match s.map.get key, s.duplicateCb with
      | none, _ => ({ s with map := s.map.update key (some value) }, .bool true)
      | some _, none => (s, .bool false)
      | some current, some cb =>
        ({ s with map := s.map.update key (some (cb current value).1) }, .bool (cb current value).2)
  | .delete key => ({ s with map := s.map.update key none }, .bool (s.map.get key).isSome)
  | .find key => (s, .value (s.map.get key))
  | .resize _ => (s, .void)
  | .setDuplicateCb cb => ({ s with duplicateCb := cb }, .void)

def MapStep (M : Methods K) (s : MapState M V) (a : Call K V) (s' : MapState M V) : Prop :=
  spec s a.op a.refused = (s', a.ret)

/-! ## The simulation -/

variable {M : Methods K}

/-- The map a table stands for. -/
def mapOf (M : Methods K) (t : HT K V) : MapState M V :=
  ⟨⟨bindings M t, fun _ _ h => lookup_congr t.live h⟩, t.duplicateCb⟩

theorem mapOf_eq {t t' : HT K V} (h : ∀ k, bindings M t' k = bindings M t k) (hcb : t'.duplicateCb = t.duplicateCb) :
    mapOf M t' = mapOf M t := by
  have hget : bindings M t' = bindings M t := funext h
  simp only [mapOf, hget, hcb]

theorem mapOf_update {t t' : HT K V} (key : K) (v : Option V)
    (h : ∀ k, bindings M t' k = if M.C k key = 0 then v else bindings M t k)
    (hcb : t'.duplicateCb = t.duplicateCb) : mapOf M t' = { mapOf M t with map := (mapOf M t).map.update key v } := by
  have hget : bindings M t' = fun k => if M.C k key = 0 then v else bindings M t k := funext h
  simp only [mapOf, KeyMap.update, hget, hcb]

theorem mapOf_get (t : HT K V) (k : K) : (mapOf M t).map.get k = bindings M t k := rfl

/-- Another value for a stored key. -/
theorem lookup_replaced {key k : K} {e : Entry K V} (rest : List (Entry K V)) (hk : M.C key e.key = 0) (v : V) :
    lookup M ({ e with value := v } :: rest) k = if M.C k key = 0 then some v else lookup M (e :: rest) k := by
  have hiff : M.C k key = 0 ↔ M.C k e.key = 0 := ⟨fun h => C_trans h hk, fun h => C_trans h (C_comm.1 hk)⟩
  rw [lookup_cons, lookup_cons]
  simp only [hiff]
  by_cases hke : M.C k e.key = 0
  · simp [hke]
  · simp [hke]

/-- The entry that leaves is the only one with its key. -/
theorem lookup_removed {key k : K} {e : Entry K V} {rest : List (Entry K V)} (hk : M.C key e.key = 0)
    (hkeys : (e :: rest).Pairwise fun a b => M.C a.key b.key ≠ 0) :
    lookup M rest k = if M.C k key = 0 then none else lookup M (e :: rest) k := by
  by_cases hke : M.C k key = 0
  · rw [if_pos hke]
    refine lookup_eq_none.2 fun a ha hka => ?_
    exact (List.pairwise_cons.1 hkeys).1 a ha (C_trans (C_comm.1 (C_trans hke hk)) hka)
  · rw [if_neg hke, lookup_cons, if_neg fun h => hke (C_trans h (C_comm.1 hk))]

variable [Inhabited K] [Inhabited V]

theorem bindings_perm {t : HT K V} (w : WF M t) {l : List (Entry K V)} (h : t.live.Perm l) (k : K) :
    bindings M t k = lookup M l k := lookup_perm w.keys h k

/-- **Step simulation.** Each effect a call can have on the table is what `spec` says of the map. -/
theorem effect_spec {t t' : HT K V} {a : Call K V} (w : WF M t) (w' : WF M t') (h : Effect M t a t') :
    spec (mapOf M t) a.op a.refused = (mapOf M t', a.ret) := by
  cases h with
  | insertRefused key value bound href => simp [spec]
  | insertAbsent key value _ href habs hperm hs =>
    have hnone : bindings M t key = none := lookup_eq_none.2 habs
    have hcb : t'.duplicateCb = t.duplicateCb := by rw [hs]
    rw [mapOf_update key (some value) (fun k => ?_) hcb]
    · simp [spec, mapOf_get, hnone]
    · rw [bindings_perm w' hperm, lookup_cons]; rfl
  | insertPresent key value e rest _ href hk hperm hperm' hs =>
    have hsome : bindings M t key = some e.value := by rw [bindings_perm w hperm, lookup_cons, if_pos hk]
    have hcb : t'.duplicateCb = t.duplicateCb := by rw [hs]
    cases hd : t.duplicateCb with
    | none =>
      rw [hd] at hperm'
      rw [mapOf_eq (t := t) (fun k => ?_) hcb]
      · have hd' : (mapOf M t).duplicateCb = none := hd
        simp [spec, mapOf_get, hsome, hd', onDuplicateValue]
      · rw [bindings_perm w' hperm', bindings_perm w hperm]; rfl
    | some f =>
      rw [hd] at hperm'
      rw [mapOf_update key (some (f e.value value).1) (fun k => ?_) hcb]
      · have hd' : (mapOf M t).duplicateCb = some f := hd
        simp [spec, mapOf_get, hsome, hd', onDuplicateValue]
      · rw [bindings_perm w' hperm', bindings_perm w hperm]
        exact lookup_replaced rest hk _
  | deleteAbsent key habs =>
    have hnone : bindings M t key = none := lookup_eq_none.2 habs
    have hkeep : mapOf M t = { mapOf M t with map := (mapOf M t).map.update key none } := by
      refine mapOf_update key none (fun k => ?_) rfl
      by_cases hk : M.C k key = 0
      · rw [if_pos hk, ← hnone]; exact lookup_congr t.live hk
      · rw [if_neg hk]
    simp only [spec, ← hkeep, mapOf_get, hnone]
    rfl
  | deletePresent key e _ hk hperm hs =>
    have hsome : bindings M t key = some e.value := by rw [bindings_perm w hperm, lookup_cons, if_pos hk]
    have hcb : t'.duplicateCb = t.duplicateCb := by rw [hs]
    rw [mapOf_update key none (fun k => ?_) hcb]
    · simp [spec, mapOf_get, hsome]
    · rw [bindings_perm w hperm]
      exact lookup_removed hk (keys_perm hperm w.keys)
  | find key => rfl
  | resize newCap _ hperm hs =>
    have hcb : t'.duplicateCb = t.duplicateCb := by rw [hs]
    rw [mapOf_eq (t := t) (fun k => bindings_perm w' hperm k) hcb]; rfl
  | setDuplicateCb cb => rfl

/-- A table and the map it stands for. -/
def Represents (t : HT K V) (s : MapState M V) : Prop := Sound M t ∧ mapOf M t = s

theorem step_simulates (t : HT K V) (s : MapState M V) (a : Call K V) (t' : HT K V) (hR : Represents t s)
    (h : Step M t a t') : ∃ s', MapStep M s a s' ∧ Represents t' s' := by
  obtain ⟨st, rfl⟩ := hR
  obtain ⟨heff, st'⟩ := step_effect st h
  exact ⟨mapOf M t', effect_spec st.wf st'.wf heff, st', rfl⟩

theorem mapOf_init (M : Methods K) (key : Option (List UInt8)) (rand : Nat → UInt8) (canGrow : Bool) :
    mapOf M (init M key rand canGrow : HT K V) = ⟨KeyMap.empty, none⟩ := by
  have hb : bindings M (init M key rand canGrow : HT K V) = fun _ => none := by
    funext k; rw [bindings, init_live]; rfl
  simp only [mapOf, hb]; rfl

/-- **The table is the map.** Every run from `A3_HT_INIT` is a run of the finite map, call by call with the
    same results; the table then binds what the map binds, `A3_HT_FOR_EACH` visits each binding once and
    nothing else, and the next call, whatever it is, returns. -/
theorem table_refines_map (M : Methods K) (key : Option (List UInt8)) (rand : Nat → UInt8) (canGrow : Bool)
    {l : List (Call K V)} {t : HT K V} (h : Run (Step M) (init M key rand canGrow) l t) :
    (∃ s, Run (MapStep M) ⟨KeyMap.empty, none⟩ l s ∧
      ∀ k, bindings M t k = s.map.get k ∧
        ((forEach t).filter fun e => M.C k e.key = 0).map Entry.value = (s.map.get k).toList) ∧
    ∀ op : Op K V, op.Allowed t → ∃ a t', a.op = op ∧ Step M t a t' := by
  have s0 := init_sound (V := V) M key rand canGrow
  obtain ⟨s, hrun, st, rfl⟩ := Run.simulate step_simulates h ⟨s0, mapOf_init M key rand canGrow⟩
  refine ⟨⟨_, hrun, fun k => ⟨rfl, ?_⟩⟩, fun op hop => step_progress st op hop⟩
  rw [forEach_eq_live st.wf.len]
  exact filter_key_eq st.wf.keys k

/-- Two colliding keys fill a table of two slots that may not grow; the third is refused. -/
theorem table_refines_map_full : ∃ (l : List (Call Nat Nat)) (t : HT Nat Nat),
    callAll numbersInTwo (init numbersInTwo none (fun _ => 0) false)
      [.insert 2 20, .insert 4 40, .insert 6 60, .find 4, .delete 2, .find 4, .find 2] = some (l, t) ∧
    l.map Call.ret = [.bool true, .bool true, .bool false, .value (some 40), .bool true, .value (some 40), .value none] ∧
    (∃ s : MapState numbersInTwo Nat, Run (MapStep numbersInTwo) ⟨KeyMap.empty, none⟩ l s ∧
      ∀ k, bindings numbersInTwo t k = s.map.get k ∧
        ((forEach t).filter fun e => numbersInTwo.C k e.key = 0).map Entry.value = (s.map.get k).toList) ∧
    ∀ op : Op Nat Nat, op.Allowed t → ∃ a t', a.op = op ∧ Step numbersInTwo t a t' :=
  have h : callAll numbersInTwo (init numbersInTwo none (fun _ => 0) false)
      [.insert 2 20, .insert 4 40, .insert 6 60, .find 4, .delete 2, .find 4, .find 2] =
      some ([⟨.insert 2 20, false, false, .bool true⟩, ⟨.insert 4 40, false, false, .bool true⟩,
          ⟨.insert 6 60, true, false, .bool false⟩, ⟨.find 4, false, true, .value (some 40)⟩,
          ⟨.delete 2, false, true, .bool true⟩, ⟨.find 4, false, true, .value (some 40)⟩,
          ⟨.find 2, false, false, .value none⟩],
        ⟨false, 1, 2, List.replicate 32 0, none, [⟨4, 40, 4⟩, ⟨4, 40, 0⟩]⟩) := rfl
  ⟨_, _, h, rfl, table_refines_map numbersInTwo none (fun _ => 0) false (run_callAll _ h)⟩

end A3Ht
