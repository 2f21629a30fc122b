import LibA3.Cache.Run

/-!
# The bitmap and the capacity

`A3_CACHE_INIT` allocates `capacity / 64` words and the bit of slot `i` is in word `i / 64`: a capacity that
is not a multiple of 64 leaves the last slots without a word. An entry that lands in one of them makes
`A3_CACHE_ACCESS` write past the array, and no reset reaches their bits.
-/

namespace A3Cache

open A3Ht HT Trans

variable {K V : Type} [Inhabited K] [Inhabited V] {M : Methods K} {c : Cache K V}

/-- No next call uses a word outside the bitmap, and the resets of `A3_CACHE_CLEAR` and of the
    `A3_CACHE_EVICT` that an INSERT can come to clear the bit of every slot. -/
structure InBounds (M : Methods K) (c : Cache K V) : Prop where
  words : ∀ op : Op K V, exec M c op ≠ .error .outOfBounds
  clear_resets : ∀ c' handed, clear c = .ok (c', handed) → AllClear c'
  evict_resets : ∀ key value t1, A3Ht.insert M c.table key value = some (t1, false) →
    ∀ c' handed, evict { c with table := t1 } = .ok (c', handed) → AllClear c'

theorem exec_words (s : Sound M c) (op : Op K V) : exec M c op ≠ .error .outOfBounds := by
  cases op with
  | insert key value =>
    have hins := insert_cases s key value
    rw [exec]
    generalize insert M c key value = r at hins ⊢
    intro h
    cases hins with
    | room => cases h
    | replaced => cases h
    | noVictim => cases h
    | stillStored => cases h
  | find key =>
    obtain ⟨blocks, hok, _⟩ := find_spec s key
    simp [exec, hok, Except.map]
  | clear =>
    obtain ⟨c', handed, _, hok, _⟩ := clear_spec s
    simp [exec, hok, Except.map]

theorem Sound.inBounds (s : Sound M c) : InBounds M c := by
  refine ⟨exec_words s, fun c' handed h => ?_, fun key value t1 hins c' handed h => ?_⟩
  · obtain ⟨c1, handed1, _, hok, _, hclear, _⟩ := clear_spec s
    rw [hok] at h
    obtain ⟨rfl, _⟩ := Prod.mk.inj (Except.ok.inj h)
    exact hclear
  · by_cases hfree : (∃ e ∈ c.table.live, M.C key e.key = 0) ∨ c.table.cap ≤ c.table.size
    · obtain ⟨n, hins1, s1⟩ := insert_false s value hfree
      obtain ⟨rfl, _⟩ := Prod.mk.inj (Option.some.inj (hins1.symm.trans hins))
      cases hv : victim { c with table := { c.table with size := n } } with
      | none => rw [evict_none s1 hv] at h; cases h
      | some i =>
        obtain ⟨c1, hev, _, _, hclear, _⟩ := evict_spec s1 hv
        rw [hev] at h
        obtain ⟨rfl, _⟩ := Prod.mk.inj (Except.ok.inj h)
        exact hclear
    · -- with room for a new key, INSERT does not come to evict
      obtain ⟨habs, hroom⟩ := not_or.1 hfree
      simp only [not_exists, not_and] at habs
      obtain ⟨t', _, _, hins1, _⟩ := insert_room s value habs (by omega)
      rw [hins1] at hins
      cases hins

/-! ## A capacity that is no multiple -/

omit [Inhabited K] [Inhabited V] in
/-- The last slot has no word. -/
theorem lastSlot_word (hpos : 0 < c.table.cap) (hdvd : ¬ entriesPerBlock ∣ c.table.cap)
    (hwords : c.accessed.length = c.table.cap / entriesPerBlock) :
    word c ((c.table.cap - 1) / entriesPerBlock) = .error .outOfBounds := by
  have hnone : c.accessed[(c.table.cap - 1) / entriesPerBlock]? = none := by
    rw [List.getElem?_eq_none_iff, hwords]
    unfold entriesPerBlock at *
    omega
  rw [word, hnone]

theorem clearLoop_empty (set : Bool) {t : HT K V} (h : ∀ i, (t.entry i).hash = 0) :
    ∀ n i, clearLoop set n t i = .ok (t, []) := by
  intro n
  induction n with
  | zero => intro i; rfl
  | succ n ih =>
    intro i
    rw [clearLoop, if_pos (h i)]
    exact ih (i + 1)

/-- No reset reaches the last slot, not even the one of CLEAR on an empty cache. -/
theorem empty_not_inBounds (hempty : ∀ i, (c.table.entry i).hash = 0) (hpos : 0 < c.table.cap)
    (hdvd : ¬ entriesPerBlock ∣ c.table.cap) (hwords : c.accessed.length = c.table.cap / entriesPerBlock) :
    ¬ InBounds M c := by
  intro h
  have hclear : clear c =
      .ok ({ c with accessed := List.replicate (c.table.cap / entriesPerBlock) 0#64 }, []) := by
    rw [clear, clearLoop_empty c.evictionCallback hempty]
    simp only [bind, Except.bind, pure, Except.pure, (reset_spec hwords).1]
  have hlast := h.clear_resets _ _ hclear (c.table.cap - 1) (Nat.sub_lt hpos Nat.one_pos)
  have hword := lastSlot_word (c := { c with accessed := List.replicate (c.table.cap / entriesPerBlock) 0#64 })
    hpos hdvd (by rw [List.length_replicate])
  simp only at hword
  rw [accessed, hword] at hlast
  cases hlast

/-- All keys are one, and its home is the last slot. -/
def lastSlotMethods (K : Type) (initialCap capacity : Nat) (h : 1 ≤ initialCap) : Methods K where
  initialCap := initialCap
  loadFactor := 90
  H _ _ := capacity - 1
  C _ _ := 0
  initialCap_pos := h
  loadFactor_le := defaultLoadFactor_le
  C_equiv := equivalence_zero K
  H_congr _ _ _ _ := rfl

section LastSlot

variable {initialCap capacity : Nat} (h1 : 1 ≤ initialCap)

omit [Inhabited K] [Inhabited V] in
theorem lastSlot_hash (t : HT K V) (hcap : 1 < capacity) (key : K) :
    A3Ht.hash (lastSlotMethods K initialCap capacity h1) t key = capacity - 1 := by
  have hne : capacity - 1 ≠ 0 := by omega
  exact if_pos hne

/-- An entry whose home is empty goes there. -/
theorem insertAt_home (M : Methods K) {t : HT K V} {h : Nat} (hempty : (t.entry (h % t.cap)).hash = 0) (key : K)
    (value : V) : insertAt M t h key value = some (t.setEntry (h % t.cap) ⟨key, value, h⟩, true) := by
  rw [insertAt, insertAtLoop]
  exact if_pos hempty

/-- The first entry goes to the last slot. -/
theorem lastSlot_insert {t : HT K V} (hcap : 1 < t.cap) (hsize : t.size = 0) (hempty : ∀ i, (t.entry i).hash = 0)
    (key : K) (value : V) :
    A3Ht.insert (lastSlotMethods K initialCap t.cap h1) t key value =
      some (HT.setEntry { t with size := 1 } (t.cap - 1) ⟨key, value, t.cap - 1⟩, true) := by
  have hload : ¬ t.size * 100 ≥ t.cap * (lastSlotMethods K initialCap t.cap h1).loadFactor := by
    have hlf : (lastSlotMethods K initialCap t.cap h1).loadFactor = 90 := rfl
    rw [hlf]; omega
  have hmod : (t.cap - 1) % t.cap = t.cap - 1 := Nat.mod_eq_of_lt (by omega)
  have hins := insertAt_home (lastSlotMethods K initialCap t.cap h1) (t := { t with size := 1 }) (h := t.cap - 1)
    (hempty _) key value
  rw [hmod] at hins
  rw [A3Ht.insert, if_neg hload, insertCounted, lastSlot_hash h1 t hcap, hsize]
  exact hins

theorem lastSlot_findIndex {t : HT K V} (hcap : 1 < t.cap) (hlen : t.entries.length = t.cap) (key : K) (value : V) :
    findIndex (lastSlotMethods K initialCap t.cap h1) (t.setEntry (t.cap - 1) ⟨key, value, t.cap - 1⟩) key =
      some (some (t.cap - 1)) := by
  have hmod : (t.cap - 1) % t.cap = t.cap - 1 := Nat.mod_eq_of_lt (by omega)
  have hlt : t.cap - 1 < t.entries.length := by omega
  have hne : t.cap - 1 ≠ 0 := by omega
  have hC : (lastSlotMethods K initialCap t.cap h1).C key key = 0 := rfl
  rw [findIndex, lastSlot_hash h1 _ hcap, findIndexLoop]
  simp [cap_setEntry, hmod, hlt, hne, hC]

/-- **A word past the end.** -/
theorem lastSlot_outOfBounds (hcap : initialCap < capacity) (hdvd : ¬ entriesPerBlock ∣ capacity)
    (rand : Nat → UInt8) (cb : Bool) : ∃ c0 : Cache K V,
      init (lastSlotMethods K initialCap capacity h1) rand capacity cb = .ok c0 ∧
      ∀ key value, insert (lastSlotMethods K initialCap capacity h1) c0 key value = .error .outOfBounds := by
  obtain ⟨c0, hinit, hc, _, hacc, w, hlive, hsize, _⟩ :=
    init_spec (V := V) (lastSlotMethods K initialCap capacity h1) rand cb hcap
  refine ⟨c0, hinit, fun key value => ?_⟩
  have hempty := hash_eq_zero_of_live hlive
  subst hc
  have hcap1 : 1 < c0.table.cap := by omega
  have hins := lastSlot_insert h1 hcap1 hsize hempty key value
  have hfind := lastSlot_findIndex h1 (t := { c0.table with size := 1 }) hcap1
    w.len key value
  have hlt : c0.table.cap - 1 < c0.table.cap := by omega
  -- the last slot is in the block that was rounded away
  have hword := lastSlot_word
    (c := { c0 with table := HT.setEntry { c0.table with size := 1 } (c0.table.cap - 1) ⟨key, value, c0.table.cap - 1⟩ })
    w.cap_pos hdvd (by rw [hacc, List.length_replicate]; rfl)
  simp only [cap_setEntry] at hword
  simp only [insert, hins, returns, bind, Except.bind, if_true, find, hfind, cap_setEntry, hlt, access, hword]

end LastSlot

/-- **The bitmap is large enough iff the capacity is a multiple of the word size**: then no call of any run
    leaves it, and every reset reaches every slot. Otherwise no reset does, and for some hash function the
    first INSERT leaves it. -/
theorem in_bounds_iff {initialCap capacity : Nat} (h1 : 1 ≤ initialCap) (hcap : initialCap < capacity) :
    (∀ M : Methods K, M.initialCap = initialCap → ∀ (rand : Nat → UInt8) (cb : Bool), ∃ c0 : Cache K V,
      init M rand capacity cb = .ok c0 ∧
      ((∀ (l : List (Call K V)) (c : Cache K V), Run (Step M) c0 l c → InBounds M c) ↔
        entriesPerBlock ∣ capacity)) ∧
    (¬ entriesPerBlock ∣ capacity → ∃ M : Methods K, M.initialCap = initialCap ∧
      ∀ (rand : Nat → UInt8) (cb : Bool), ∃ c0 : Cache K V, init M rand capacity cb = .ok c0 ∧
        ∀ key value, insert M c0 key value = .error .outOfBounds) := by
  constructor
  · rintro M rfl rand cb
    obtain ⟨c0, hinit, hc, _, hacc, w, hlive, _⟩ := init_spec (V := V) M rand cb hcap
    refine ⟨c0, hinit, fun hall => ?_, fun hdvd l c h => ?_⟩
    · by_contra hdvd
      refine empty_not_inBounds (hash_eq_zero_of_live hlive) w.cap_pos ?_ ?_ (hall [] c0 (.nil _))
      · rw [hc]; exact hdvd
      · rw [hacc, hc, List.length_replicate]
    · obtain ⟨c1, hinit1, s1, _⟩ := init_sound (V := V) M rand cb hcap hdvd
      obtain rfl := Except.ok.inj (hinit.symm.trans hinit1)
      exact (run_sound h s1).1.inBounds
  · intro hdvd
    exact ⟨lastSlotMethods K initialCap capacity h1, rfl, fun rand cb => lastSlot_outOfBounds h1 hcap hdvd rand cb⟩

theorem in_bounds_iff_100 :
    (∀ M : Methods Nat, M.initialCap = 31 → ∀ (rand : Nat → UInt8) (cb : Bool), ∃ c0 : Cache Nat Nat,
      init M rand 100 cb = .ok c0 ∧
      ((∀ (l : List (Call Nat Nat)) (c : Cache Nat Nat), Run (Step M) c0 l c → InBounds M c) ↔
        entriesPerBlock ∣ 100)) ∧
    (¬ entriesPerBlock ∣ 100 → ∃ M : Methods Nat, M.initialCap = 31 ∧
      ∀ (rand : Nat → UInt8) (cb : Bool), ∃ c0 : Cache Nat Nat, init M rand 100 cb = .ok c0 ∧
        ∀ key value, insert M c0 key value = .error .outOfBounds) := in_bounds_iff (by decide) (by decide)

/-- In a cache of 100 slots, one word: slot 99 has its bit in the second. -/
theorem insert_99_out_of_bounds : ∃ c0 : Cache Nat Nat,
    init (numberMethods 31 (by decide)) (fun _ => 0) 100 false = .ok c0 ∧
    insert (numberMethods 31 (by decide)) c0 99 0 = .error .outOfBounds :=
  ⟨⟨0, false, [0#64], ⟨false, 0, 100, List.replicate 32 0, none, List.replicate 100 default⟩⟩, rfl, rfl⟩

end A3Cache
