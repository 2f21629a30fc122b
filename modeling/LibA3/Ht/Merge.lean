import LibA3.Ht.Refine

/-!
# One table inserted into another

`A3_HT_FOR_EACH` over one table, with `A3_HT_INSERT` of what it finds into a second, which may grow. The two may have
different hash functions and hash keys, so the order of the entries has nothing to do with where they go.

* `insertAll_binds` — what the second table then binds, whatever it held and whatever its duplicate callback is
-/

namespace A3Ht

open Trans

variable {K V : Type} [Inhabited K] [Inhabited V] {M N : Methods K} {t u u' : HT K V}

/-- `A3_HT_INSERT` of one entry after the other. -/
def insertAll (M : Methods K) : HT K V → List (Entry K V) → Option (HT K V)
  | u, [] => some u
  | u, e :: rest =>
    match insert M u e.key e.value with
    | none => none
    | some (u', _) => insertAll M u' rest

/-- What becomes of a key with the value `current` when `new` is inserted. -/
def joined (cb : Option (V → V → V × Bool)) : Option V → Option V → Option V
  | none, new => new
  | some current, none => some current
  | some current, some new => some (onDuplicateValue cb current new).1

/-! ## One insertion -/

omit [Inhabited K] [Inhabited V] in
theorem refuses_growing (h : u.canGrow = true) : refuses M u = false := by
  rw [refuses, h]
  simp

omit [Inhabited K] [Inhabited V] in
theorem Effect.canGrow_eq {a : Call K V} (h : Effect M u a u') : u'.canGrow = u.canGrow := by
  cases h with
  | insertAbsent _ _ _ _ _ _ hs => rw [hs]
  | insertPresent _ _ _ _ _ _ _ _ _ hs => rw [hs]
  | deletePresent _ _ _ _ _ hs => rw [hs]
  | resize _ _ _ hs => rw [hs]
  | _ => rfl

/-- What an insertion does that is not refused. -/
structure Inserted (M : Methods K) (u : HT K V) (key : K) (value : V) (u' : HT K V) : Prop where
  sound : Sound M u'
  canGrow : u'.canGrow = u.canGrow
  duplicateCb : u'.duplicateCb = u.duplicateCb
  binds : ∀ k, bindings M u' k =
    if M.C k key = 0 then joined u.duplicateCb (bindings M u k) (some value) else bindings M u k

theorem insert_inserted (s : Sound M u) (h : u.canGrow = true) (key : K) (value : V) :
    ∃ u' ret, insert M u key value = some (u', ret) ∧ Inserted M u key value u' := by
  obtain ⟨u', ret, hins, s', heff⟩ := insert_effect s key value
  have hspec : spec (mapOf M u) (.insert key value) (refuses M u) = (mapOf M u', .bool ret) := effect_spec s.wf s'.wf heff
  have hkey : ∀ k, M.C k key = 0 → bindings M u k = bindings M u key := fun k hk => lookup_congr u.live hk
  rw [refuses_growing h] at hspec
  cases hb : bindings M u key with
  | none =>
    have hmap : mapOf M u' = { mapOf M u with map := (mapOf M u).map.update key (some value) } := by
      have hget : (mapOf M u).map.get key = none := hb
      simp only [spec, hget, Bool.false_eq_true, if_false] at hspec
      exact (congrArg Prod.fst hspec).symm
    refine ⟨u', ret, hins, s', heff.canGrow_eq, congrArg MapState.duplicateCb hmap, fun k => ?_⟩
    have hget : bindings M u' k = _ := congrArg (fun m => m.map.get k) hmap
    rw [hget, KeyMap.get_update]
    split
    · next hk => rw [hkey k hk, hb, joined]
    · rfl
  | some current =>
    cases hcb : u.duplicateCb with
    | none =>
      have hmap : mapOf M u' = mapOf M u := by
        have hget : (mapOf M u).map.get key = some current := hb
        have hcb' : (mapOf M u).duplicateCb = none := hcb
        simp only [spec, hget, hcb', Bool.false_eq_true, if_false] at hspec
        exact (congrArg Prod.fst hspec).symm
      refine ⟨u', ret, hins, s', heff.canGrow_eq, congrArg MapState.duplicateCb hmap, fun k => ?_⟩
      have hget : bindings M u' k = bindings M u k := congrArg (fun m => m.map.get k) hmap
      rw [hget, hcb]
      split
      · next hk => rw [hkey k hk, hb, joined, onDuplicateValue]
      · rfl
    | some cb =>
      have hmap : mapOf M u' = ⟨(mapOf M u).map.update key (some (cb current value).1), some cb⟩ := by
        have hget : (mapOf M u).map.get key = some current := hb
        have hcb' : (mapOf M u).duplicateCb = some cb := hcb
        simp only [spec, hget, hcb', Bool.false_eq_true, if_false] at hspec
        exact (congrArg Prod.fst hspec).symm
      refine ⟨u', ret, hins, s', heff.canGrow_eq, (congrArg MapState.duplicateCb hmap).trans hcb.symm, fun k => ?_⟩
      have hget : bindings M u' k = _ := congrArg (fun m => m.map.get k) hmap
      rw [hget, KeyMap.get_update, hcb]
      split
      · next hk => rw [hkey k hk, hb, joined, onDuplicateValue]
      · rfl

/-! ## All of them -/

/-- **Loop lemma.** The keys of the entries are different ones, so each insertion meets what was there before the loop. -/
theorem insertAll_spec (hC : ∀ a b, M.C a b = 0 ↔ N.C a b = 0) : ∀ (l : List (Entry K V)) (u : HT K V), Sound N u →
    u.canGrow = true → (l.Pairwise fun a b => M.C a.key b.key ≠ 0) →
    ∃ u', insertAll N u l = some u' ∧ Sound N u' ∧
      ∀ k, bindings N u' k = joined u.duplicateCb (bindings N u k) (lookup M l k) := by
  intro l
  induction l with
  | nil =>
    intro u s _ _
    refine ⟨u, rfl, s, fun k => ?_⟩
    cases bindings N u k <;> rfl
  | cons e l ih =>
    intro u s hgrow hkeys
    obtain ⟨hfirst, hrest⟩ := List.pairwise_cons.1 hkeys
    obtain ⟨u1, ret, hins, h1⟩ := insert_inserted s hgrow e.key e.value
    obtain ⟨u', hall, s', hbinds⟩ := ih u1 h1.sound (h1.canGrow.trans hgrow) hrest
    refine ⟨u', ?_, s', fun k => ?_⟩
    · rw [insertAll, hins]
      exact hall
    · rw [hbinds k, h1.binds k, h1.duplicateCb, lookup_cons]
      by_cases hk : M.C k e.key = 0
      · -- no later entry has this key
        have hlater : lookup M l k = none :=
          lookup_eq_none.2 fun a ha hka => hfirst a ha (C_trans (C_comm.1 hk) hka)
        rw [if_pos ((hC k e.key).1 hk), if_pos hk, hlater]
        cases bindings N u k <;> rfl
      · rw [if_neg (fun h => hk ((hC k e.key).2 h)), if_neg hk]

/-- **Merging two tables.** Whatever the calls that led to them, inserting the entries of `t` into `u` with `A3_HT_FOR_EACH`
ends, and afterwards `A3_HT_FIND` finds in `u` what it found there before, under the other keys what it finds in `t`, and under
keys of both what the duplicate callback of `u` makes of the two values, or the value of `u` where there is none. -/
theorem insertAll_binds (hC : ∀ a b, M.C a b = 0 ↔ N.C a b = 0) (key key' : Option (List UInt8)) (rand rand' : Nat → UInt8)
    (canGrow : Bool) {l l' : List (Call K V)} (ht : Run (Step M) (init M key rand canGrow) l t)
    (hu : Run (Step N) (init N key' rand' true) l' u) :
    ∃ u', insertAll N u (forEach t) = some u' ∧
      ∀ k, ∃ inU inT, find N u k = some inU ∧ find M t k = some inT ∧ find N u' k = some (joined u.duplicateCb inU inT) := by
  have st := run_sound ht (init_sound M key rand canGrow)
  have su := run_sound hu (init_sound N key' rand' true)
  have hgrow : u.canGrow = true :=
    hu.invariant (P := fun u => Sound N u ∧ u.canGrow = true)
      (fun u a u' h hs => ⟨(step_effect h.1 hs).2, ((step_effect h.1 hs).1.canGrow_eq).trans h.2⟩)
      ⟨init_sound N key' rand' true, rfl⟩ |>.2
  obtain ⟨u', hall, s', hbinds⟩ := insertAll_spec hC t.live u su hgrow st.wf.keys
  refine ⟨u', by rw [forEach_eq_live st.wf.len]; exact hall, fun k => ?_⟩
  exact ⟨_, _, find_spec su.wf k, find_spec st.wf k, by rw [find_spec s'.wf k, hbinds k]; rfl⟩

/-- Two entries, one of them under a key that is there already. -/
theorem insertAll_binds_two :
    ∃ t u u' : HT Nat Nat, insertAll numbersInTwo u (forEach t) = some u' ∧
      ∀ k, ∃ inU inT, find numbersInTwo u k = some inU ∧ find numbersInTwo t k = some inT ∧
        find numbersInTwo u' k = some (joined u.duplicateCb inU inT) := by
  obtain ⟨u', h⟩ := insertAll_binds (M := numbersInTwo) (N := numbersInTwo) (fun _ _ => Iff.rfl) none none (fun _ => 0)
    (fun _ => 0) false (run_callAll [.insert 2 20, .insert 4 40] rfl) (run_callAll [.insert 4 41] rfl)
  exact ⟨_, _, u', h⟩

end A3Ht
