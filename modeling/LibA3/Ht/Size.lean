import LibA3.Ht.Run

/-!
# What `A3_HT_SIZE` counts

`A3_HT_INSERT` adds one to `size` before it has looked for the key. If the key is stored, no slot is filled
and the one is never taken back, so `size` is the number of entries plus the number of such calls so far
(`size_eq`), for good. The capacity check then works with that number: a table refuses an entry while it
has a free slot.
-/

namespace A3Ht

open HT Trans

variable {K V : Type} [Inhabited K] [Inhabited V]

/-- An INSERT that gets past the capacity check with a key that is stored. -/
def Call.duplicates (a : Call K V) : Bool :=
  match a.op with
  | .insert _ _ => !a.refused && a.bound
  | _ => false

variable {M : Methods K}

/-- **Step lemma.** `size` and the number of entries drift apart by one at each such call, and at no other. -/
theorem effect_size {t t' : HT K V} {a : Call K V} (s : Sound M t) (h : Effect M t a t') :
    t'.size + t.live.length = t.size + t'.live.length + if a.duplicates then 1 else 0 := by
  have hge := s.size_ge
  cases h with
  | insertRefused key value bound href => simp [Call.duplicates]
  | insertAbsent key value _ href habs hperm hs =>
    have hlen := hperm.length_eq
    have hsize : t'.size = t.size + 1 := by rw [hs]
    simp only [List.length_cons] at hlen
    simp [Call.duplicates]; omega
  | insertPresent key value e rest _ href hk hperm hperm' hs =>
    have hlen := hperm.length_eq
    have hlen' := hperm'.length_eq
    have hsize : t'.size = t.size + 1 := by rw [hs]
    simp only [List.length_cons] at hlen hlen'
    simp [Call.duplicates]; omega
  | deleteAbsent key habs => simp [Call.duplicates]
  | deletePresent key e _ hk hperm hs =>
    have hlen := hperm.length_eq
    have hsize : t'.size = t.size - 1 := by rw [hs]
    simp only [List.length_cons] at hlen
    simp [Call.duplicates]; omega
  | find key => simp [Call.duplicates]
  | resize newCap _ hperm hs =>
    have hlen := hperm.length_eq
    have hsize : t'.size = t.size := by rw [hs]
    simp [Call.duplicates]; omega
  | setDuplicateCb cb => simp [Call.duplicates, setDuplicateCb, live]

/-- **Run lemma.** -/
theorem size_eq {t t' : HT K V} {l : List (Call K V)} (h : Run (Step M) t l t') (s : Sound M t) :
    t'.size + t.live.length = t.size + t'.live.length + l.countP Call.duplicates := by
  induction h with
  | nil => simp
  | @cons t t1 t2 a l hs hrest ih =>
    obtain ⟨heff, s1⟩ := step_effect s hs
    have h1 := effect_size s heff
    have h2 := ih s1
    rw [List.countP_cons]
    omega

/-- A table that refuses, or grows, has the load it claims to have if `size` is right. -/
theorem refuses_full {t : HT K V} (w : WF M t) (hsize : t.size = t.live.length) (h : refuses M t = true) :
    t.live.length = t.cap := by
  simp only [refuses, Bool.and_eq_true, decide_eq_true_eq] at h
  have := w.live_le_cap
  omega

omit [Inhabited K] [Inhabited V] in
theorem grows_loaded {t : HT K V} (hsize : t.size = t.live.length) (h : grows M t = true) :
    t.cap * M.loadFactor ≤ t.live.length * 100 := by
  simp only [grows, Bool.and_eq_true, decide_eq_true_eq] at h
  rw [← hsize]; exact h.1

/-- **`size` is the number of occupied slots exactly as long as no INSERT has got past the capacity check
    with a stored key.** As long as it is, growth means load and refusal a full table. -/
theorem size_eq_live_iff (M : Methods K) (key : Option (List UInt8)) (rand : Nat → UInt8) (canGrow : Bool)
    {l : List (Call K V)} {t : HT K V} (h : Run (Step M) (init M key rand canGrow) l t) :
    (t.size = t.live.length ↔ ∀ a ∈ l, a.duplicates = false) ∧
    ((∀ a ∈ l, a.duplicates = false) →
      (grows M t = true → t.cap * M.loadFactor ≤ t.live.length * 100) ∧
      (refuses M t = true → t.live.length = t.cap)) := by
  have s0 := init_sound (V := V) M key rand canGrow
  have s := run_sound h s0
  have heq := size_eq h s0
  have hsize0 : (init M key rand canGrow : HT K V).size = 0 := rfl
  rw [init_live, hsize0] at heq
  simp only [List.length_nil, Nat.add_zero, Nat.zero_add] at heq
  have hiff : t.size = t.live.length ↔ ∀ a ∈ l, a.duplicates = false := by
    have hcount : l.countP Call.duplicates = 0 ↔ ∀ a ∈ l, a.duplicates = false := by
      simp [List.countP_eq_zero]
    rw [← hcount, heq]; omega
  exact ⟨hiff, fun hall => ⟨grows_loaded (hiff.2 hall), refuses_full s.wf (hiff.2 hall)⟩⟩

/-- Growth and deletions, and a table that may not grow: what has grown is full again, and so is what has refused a key. -/
theorem size_eq_live_iff_two :
    (∃ (l : List (Call Nat Nat)) (t : HT Nat Nat), callAll numbersInTwo (init numbersInTwo none (fun _ => 0) true)
        [.insert 2 20, .insert 4 40, .insert 6 60, .delete 4, .insert 8 80, .insert 10 100] = some (l, t) ∧ t.cap = 4 ∧
      t.size = t.live.length ∧ grows numbersInTwo t = true ∧ t.cap * numbersInTwo.loadFactor ≤ t.live.length * 100) ∧
    ∃ (l : List (Call Nat Nat)) (t : HT Nat Nat), callAll numbersInTwo (init numbersInTwo none (fun _ => 0) false)
        [.insert 2 20, .insert 4 40, .insert 6 60, .delete 2, .insert 6 60] = some (l, t) ∧
      l.map Call.refused = [false, false, true, false, false] ∧
      t.size = t.live.length ∧ refuses numbersInTwo t = true ∧ t.live.length = t.cap := by
  have hgrown : callAll numbersInTwo (init numbersInTwo none (fun _ => 0) true)
      [.insert 2 20, .insert 4 40, .insert 6 60, .delete 4, .insert 8 80, .insert 10 100] =
      some ([⟨.insert 2 20, false, false, .bool true⟩, ⟨.insert 4 40, false, false, .bool true⟩,
          ⟨.insert 6 60, false, false, .bool true⟩, ⟨.delete 4, false, true, .bool true⟩,
          ⟨.insert 8 80, false, false, .bool true⟩, ⟨.insert 10 100, false, false, .bool true⟩],
        ⟨true, 4, 4, List.replicate 32 0, none, [⟨10, 100, 10⟩, ⟨8, 80, 8⟩, ⟨2, 20, 2⟩, ⟨6, 60, 6⟩]⟩) := rfl
  have hrefused : callAll numbersInTwo (init numbersInTwo none (fun _ => 0) false)
      [.insert 2 20, .insert 4 40, .insert 6 60, .delete 2, .insert 6 60] =
      some ([⟨.insert 2 20, false, false, .bool true⟩, ⟨.insert 4 40, false, false, .bool true⟩,
          ⟨.insert 6 60, true, false, .bool false⟩, ⟨.delete 2, false, true, .bool true⟩,
          ⟨.insert 6 60, false, false, .bool true⟩],
        ⟨false, 2, 2, List.replicate 32 0, none, [⟨4, 40, 4⟩, ⟨6, 60, 6⟩]⟩) := rfl
  obtain ⟨hsize, hload⟩ := size_eq_live_iff numbersInTwo none (fun _ => 0) true (run_callAll _ hgrown)
  obtain ⟨hsize', hload'⟩ := size_eq_live_iff numbersInTwo none (fun _ => 0) false (run_callAll _ hrefused)
  exact ⟨⟨_, _, hgrown, rfl, hsize.2 (by decide), rfl, (hload (by decide)).1 rfl⟩,
    ⟨_, _, hrefused, rfl, hsize'.2 (by decide), rfl, (hload' (by decide)).2 rfl⟩⟩

/-- Inserted twice, the entry is counted twice: `A3_HT_SIZE` says 2 with one slot occupied, and another key
    is refused while the second slot is free. -/
theorem size_counts_twice : ∃ (l : List (Call Nat Nat)) (t : HT Nat Nat),
    Run (Step numbersInTwo) (init numbersInTwo none (fun _ => 0) false) l t ∧
    t.size = 2 ∧ t.live.length = 1 ∧ t.cap = 2 ∧ bindings numbersInTwo t 4 = none ∧
    insert numbersInTwo t 4 40 = some (t, false) := by
  refine ⟨[⟨.insert 2 20, false, false, .bool true⟩, ⟨.insert 2 21, false, true, .bool false⟩],
    ⟨false, 2, 2, List.replicate 32 0, none, [⟨2, 20, 2⟩, ⟨0, 0, 0⟩]⟩, ?_, rfl, rfl, rfl, rfl, rfl⟩
  exact run_callAll [.insert 2 20, .insert 2 21] rfl

end A3Ht
