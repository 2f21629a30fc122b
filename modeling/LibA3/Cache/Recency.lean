import LibA3.Cache.Fresh

/-!
# What the eviction scan passes over

An access sets the bit of a slot, not of an entry, and entries move when others come and go. What makes the
bits mean something is when they are set: FIND, and INSERT at its end, mark the slot the key is in by then,
and up to the next eviction only an INSERT that finds room moves anything. So the key last accessed is marked
whatever came before (`lastAccess_marked`), and so are all keys found since some state if none of these FINDs
cleared a word (`Quiet`). The scan stops at a clear bit.
-/

namespace A3Cache

open A3Ht Fallible HT Trans

variable {K V : Type} {M : Methods K} {c c' : Cache K V}

/-! ## Setting a bit -/

/-- The branch of `A3_CACHE_ACCESS` that clears the word of slot `i` (`cache.h:114`). -/
def Fills (c : Cache K V) (i : Nat) : Prop :=
  c.accessed.getD (i / entriesPerBlock) 0#64 ||| 1#64 <<< (i % entriesPerBlock) = blockFull

instance (c : Cache K V) (i : Nat) : Decidable (Fills c i) := inferInstanceAs (Decidable (_ = _))

theorem getD_set_word (blocks : List (BitVec 64)) {w : Nat} (hw : w < blocks.length) (block : BitVec 64) (v : Nat) :
    (blocks.set w block).getD v 0#64 = if v = w then block else blocks.getD v 0#64 := by
  simp only [List.getD_eq_getElem?_getD, List.getElem?_set]
  by_cases h : w = v
  · subst h
    simp [hw]
  · simp [h, Ne.symm h]

theorem bit_set {blocks : List (BitVec 64)} (c : Cache K V) {w : Nat} (hw : w < blocks.length) (block : BitVec 64)
    (j : Nat) : bit { c with accessed := blocks.set w block } j =
      if j / entriesPerBlock = w then block.getLsbD (j % entriesPerBlock)
      else bit { c with accessed := blocks } j := by
  simp only [bit, getD_set_word blocks hw]
  by_cases h : j / entriesPerBlock = w
  · simp only [if_pos h]
  · simp only [if_neg h]

/-- What `A3_CACHE_ACCESS` writes, if the word exists. -/
theorem access_result {i : Nat} (h : access c i = .ok c') : i / entriesPerBlock < c.accessed.length ∧
    ∃ kept, kept = (if Fills c i then 0#64 else c.accessed.getD (i / entriesPerBlock) 0#64) ∧
      c' = { c with accessed := c.accessed.set (i / entriesPerBlock) (kept ||| 1#64 <<< (i % entriesPerBlock)) } := by
  have hw : i / entriesPerBlock < c.accessed.length := by
    by_contra hge
    have hnone : word c (i / entriesPerBlock) = .error .outOfBounds := by
      rw [word, List.getElem?_eq_none (Nat.le_of_not_lt hge)]
    simp [access, hnone, bind, Except.bind] at h
  simp only [access, word_eq hw, bind, Except.bind, pure, Except.pure, Except.ok.injEq] at h
  exact ⟨hw, _, rfl, h.symm⟩

/-- **`A3_CACHE_ACCESS` (`cache.h:110`)** marks its slot, and keeps the other marks if it need not clear the
    word first. -/
theorem access_marks {i : Nat} (h : access c i = .ok c') : c'.table = c.table ∧ bit c' i = true ∧
    (¬ Fills c i → ∀ j, bit c j = true → bit c' j = true) := by
  obtain ⟨hw, kept, hkept, rfl⟩ := access_result h
  refine ⟨rfl, ?_, fun hfill j hj => ?_⟩
  · rw [bit_set c hw, if_pos rfl, BitVec.getLsbD_or, getLsbD_bit (mod_block_lt i)]
    simp
  · rw [bit_set c hw]
    by_cases hjw : j / entriesPerBlock = i / entriesPerBlock
    · have hkeep : (c.accessed.getD (i / entriesPerBlock) 0#64).getLsbD (j % entriesPerBlock) = true := by
        rw [← hjw]; exact hj
      rw [if_pos hjw, hkept, if_neg hfill, BitVec.getLsbD_or, hkeep, Bool.true_or]
    · rw [if_neg hjw]; exact hj

/-! ## Marked keys -/

/-- The key of a stored entry is bound. -/
theorem bound_of_mem {t : HT K V} {k : K} {e : Entry K V} (he : e ∈ t.live) (hk : M.C k e.key = 0) :
    (bindings M t k).isSome = true := lookup_isSome.2 ⟨e, he, hk⟩

variable [Inhabited K] [Inhabited V]

/-- `A3_HT_FIND_INDEX` finds the key in a slot whose bit is set. -/
def Marked (M : Methods K) (c : Cache K V) (k : K) : Prop :=
  ∃ i, findIndex M c.table k = some (some i) ∧ bit c i = true

/-- A key is found in one slot. -/
theorem findIndex_unique {t : HT K V} {k : K} {i j : Nat} (hi : findIndex M t k = some (some i))
    (hj : findIndex M t k = some (some j)) : i = j := Option.some.inj (Option.some.inj (hi.symm.trans hj))

/-- Where a stored key is found. -/
theorem slot_of_findIndex {t : HT K V} (w : WF M t) {k : K} {i : Nat} (h : findIndex M t k = some (some i)) :
    i < t.cap ∧ t.entry i ∈ t.live ∧ M.C k (t.entry i).key = 0 := by
  rcases bound_cases (M := M) t k with ⟨habs, -⟩ | ⟨⟨e, he, hk⟩, -⟩
  · rw [findIndex_absent w habs] at h
    cases h
  · obtain ⟨j, hj, hlt, hent⟩ := findIndex_present w he hk
    obtain rfl := findIndex_unique hj h
    rw [hent]
    exact ⟨hlt, he, hk⟩

theorem findIndex_of_bound {t : HT K V} (w : WF M t) {k : K} (h : (bindings M t k).isSome = true) :
    ∃ i, findIndex M t k = some (some i) := by
  obtain ⟨e, he, hk⟩ := lookup_isSome.1 h
  obtain ⟨i, hi, -⟩ := findIndex_present w he hk
  exact ⟨i, hi⟩

/-- A table call that returns. -/
theorem returns_ok {α : Type} {x : Option α} {a : α} (h : returns x = .ok a) : x = some a := by
  cases x with
  | none => cases h
  | some b =>
    cases h
    rfl

/-- **`A3_CACHE_FIND` (`cache.h:125`)** is an access of the slot the key is found in. -/
theorem find_accesses {k : K} {found : Option V} (h : find M c k = .ok (c', found)) :
    (findIndex M c.table k = some none ∧ c' = c) ∨
      ∃ i, findIndex M c.table k = some (some i) ∧ access c i = .ok c' := by
  obtain ⟨r, hr, h⟩ := bind_ok h
  cases r with
  | none =>
    cases h
    exact Or.inl ⟨returns_ok hr, rfl⟩
  | some i =>
    simp only at h
    split at h
    · obtain ⟨c1, hacc, h⟩ := bind_ok h
      cases h
      exact Or.inr ⟨i, returns_ok hr, hacc⟩
    · cases h

/-- After a FIND that found it, a key is marked. -/
theorem marked_of_find {k : K} {found : Option V} (h : find M c k = .ok (c', found)) (w : WF M c'.table)
    (hb : (bindings M c'.table k).isSome = true) : Marked M c' k := by
  obtain ⟨i, hi⟩ := findIndex_of_bound w hb
  rcases find_accesses h with ⟨hnone, rfl⟩ | ⟨j, hj, hacc⟩
  · rw [hnone] at hi
    cases hi
  · obtain ⟨htable, hbit, -⟩ := access_marks hacc
    exact ⟨j, by rw [htable]; exact hj, hbit⟩

/-- **`A3_CACHE_INSERT` (`cache.h:163`)** ends with a FIND of its key. -/
theorem insert_finds {key : K} {value : V} {handed : List (Handed K V)} (h : insert M c key value = .ok (c', handed)) :
    ∃ c1 found, find M c1 key = .ok (c', found) := by
  obtain ⟨⟨t1, inserted⟩, -, h⟩ := bind_ok h
  simp only at h
  split at h
  · obtain ⟨⟨c2, found⟩, hfind, h⟩ := bind_ok h
    cases h
    exact ⟨_, found, hfind⟩
  · obtain ⟨⟨c1, handed1⟩, -, h⟩ := bind_ok h
    obtain ⟨⟨t2, inserted2⟩, -, h⟩ := bind_ok h
    simp only at h
    split at h
    · obtain ⟨⟨c2, found⟩, hfind, h⟩ := bind_ok h
      cases h
      exact ⟨_, found, hfind⟩
    · cases h

/-! ## A marked key is not evicted -/

/-- What an INSERT of `key` does not do: evict the key `k`. -/
def Spares (M : Methods K) (c : Cache K V) (key : K) (value : V) (k : K) : Prop :=
  ∃ c' handed, insert M c key value = .ok (c', handed) ∧ (bindings M c.table k).isSome = true ∧
    bindings M c'.table k = bindings M c.table k ∧ ∀ y ∈ handed, M.C k y.key ≠ 0

/-- An entry that stays is found as before. -/
theorem bindings_of_mem {t : HT K V} (w : WF M t) {k : K} {e : Entry K V} (he : e ∈ t.live) (hk : M.C k e.key = 0) :
    bindings M t k = some e.value := lookup_of_mem w.keys he hk

/-- **`A3_CACHE_INSERT`** of a new key evicts no marked key. -/
theorem spares_marked (x : Exact M c) {k : K} (h : Marked M c k) {key : K} (value : V)
    (hnew : bindings M c.table key = none) : Spares M c key value k := by
  obtain ⟨i, hfi, hbit⟩ := h
  obtain ⟨hi, hlive, hk⟩ := slot_of_findIndex x.wf hfi
  have hbound := bindings_of_mem x.wf hlive hk
  obtain ⟨c1, handed1, -, hok, -⟩ := fresh_insert x value (lookup_eq_none.1 hnew)
  have hins := insert_cases x.toSound key value
  rw [hok] at hins
  generalize hr : (Except.ok (c1, handed1) : Except Fault _) = r at hins
  cases hins with
  | @room c' _ _ st _ =>
    have hmem := st.perm.mem_iff.2 (List.mem_cons_of_mem _ hlive)
    exact ⟨c', [], hok.trans hr, bound_of_mem hlive hk,
      by rw [hbound, bindings_of_mem st.sound.wf hmem hk], fun y hy => by cases hy⟩
  | @replaced c' j n rest _ hv hperm _ st _ =>
    obtain ⟨hj, hclear, hocc⟩ := victim_spec hv
    -- the scan stopped at another slot, so at another key
    have hne : i ≠ j := fun hij => by rw [hij, hclear] at hbit; cases hbit
    have hother : M.C k (c.table.entry j).key ≠ 0 := fun hkj =>
      hne (x.wf.slot_unique hi hj (hash_ne_of_mem_live hlive) hocc (C_trans (C_comm.1 hk) hkj))
    have hrest : c.table.entry i ∈ rest := by
      rcases List.mem_cons.1 (hperm.mem_iff.1 hlive) with heq | hmem
      · exact absurd (heq ▸ hk) hother
      · exact hmem
    have hmem := st.perm.mem_iff.2 (List.mem_cons_of_mem _ hrest)
    refine ⟨c', _, hok.trans hr, bound_of_mem hlive hk, by rw [hbound, bindings_of_mem st.sound.wf hmem hk],
      fun y hy => ?_⟩
    unfold callback at hy
    split at hy
    · obtain rfl := List.mem_singleton.1 hy
      exact hother
    · cases hy
  | noVictim => cases hr
  | stillStored => cases hr

/-! ## Which keys are marked -/

/-- The key a call accessed, if any. -/
def Call.accesses (a : Call K V) : Option K :=
  match a.op with
  | .insert key _ => some key
  | .find key => if a.found.isSome then some key else none
  | .clear => none

/-- The key last found or inserted, if the cache was not cleared since. -/
def lastAccess (l : List (Call K V)) : Option K :=
  l.foldl (fun last a => match a.op with
    | .clear => none
    | _ => a.accesses.or last) none

omit [Inhabited K] [Inhabited V] in
theorem lastAccess_append (l : List (Call K V)) (a : Call K V) : lastAccess (l ++ [a]) =
    match a.op with
    | .clear => none
    | _ => a.accesses.or (lastAccess l) := by
  rw [lastAccess, List.foldl_append]
  rfl

/-- FIND marks a key it finds, and keeps every mark if it finds none or need not clear a word. -/
theorem find_marks (s : Sound M c) (key : K) {found : Option V} (h : find M c key = .ok (c', found)) :
    (found.isSome = true → Marked M c' key) ∧
      ((∀ i, findIndex M c.table key = some (some i) → ¬ Fills c i) → ∀ k, Marked M c k → Marked M c' k) ∧
      (found.isSome = false → c' = c) := by
  obtain ⟨blocks, hok, -⟩ := find_spec s key
  obtain ⟨rfl, rfl⟩ := Prod.mk.inj (Except.ok.inj (hok.symm.trans h))
  refine ⟨fun hfound => marked_of_find h s.wf hfound, fun hquiet k hk => ?_, fun hnot => ?_⟩
  · rcases find_accesses h with ⟨-, heq⟩ | ⟨i, hi, hacc⟩
    · rw [heq]; exact hk
    · obtain ⟨htable, -, hkeep⟩ := access_marks hacc
      obtain ⟨j, hj, hbit⟩ := hk
      exact ⟨j, by rw [htable]; exact hj, hkeep (hquiet i hi) j hbit⟩
  · rcases find_accesses h with ⟨-, heq⟩ | ⟨i, hi, -⟩
    · exact heq
    · obtain ⟨-, hlive, hk⟩ := slot_of_findIndex s.wf hi
      rw [bindings_of_mem s.wf hlive hk] at hnot
      cases hnot

/-- **Step lemma.** The key last accessed is marked. -/
theorem step_marks {l : List (Call K V)} {a : Call K V} (x : Exact M c)
    (hlast : ∀ k, lastAccess l = some k → Marked M c k) (h : FreshStep M c a c') :
    ∀ k, lastAccess (l ++ [a]) = some k → Marked M c' k := by
  obtain ⟨op, found, handed⟩ := a
  intro k hk
  rw [lastAccess_append] at hk
  cases op with
  | insert key value =>
    obtain rfl : key = k := by simpa [Call.accesses] using hk
    obtain ⟨c1, handed1, removed, hok, x1, hmem, -⟩ := fresh_insert x value (lookup_eq_none.1 h.1)
    cases hok.symm.trans (step_insert h.2)
    obtain ⟨c2, found2, hfind⟩ := insert_finds hok
    exact marked_of_find hfind x1.wf (bound_of_mem hmem (M.C_equiv.refl key))
  | find key =>
    obtain ⟨hfound, -, hnot⟩ := find_marks x.toSound key (step_find h.2).1
    cases hb : found.isSome with
    | true =>
      obtain rfl : key = k := by simpa [Call.accesses, hb] using hk
      exact hfound hb
    | false =>
      rw [hnot hb]
      exact hlast k (by simpa [Call.accesses, hb] using hk)
  | clear => cases hk

/-- **Run lemma.** -/
theorem lastAccess_marked {c0 : Cache K V} {l : List (Call K V)} (h : Run (FreshStep M) c0 l c) (x0 : Exact M c0) :
    ∀ k, lastAccess l = some k → Marked M c k := by
  have hinv : Exact M c ∧ ∀ k, lastAccess ([] ++ l) = some k → Marked M c k :=
    h.invariant_trace (P := fun c l => Exact M c ∧ ∀ k, lastAccess l = some k → Marked M c k)
      (fun c1 l1 a c2 hP hs => ⟨(fresh_step hP.1 hs).1, step_marks hP.1 hP.2 hs⟩) ⟨x0, fun k hk => by cases hk⟩
  exact hinv.2

/-- A FIND that clears no word of the bitmap. -/
def Quiet (M : Methods K) (c : Cache K V) (a : Call K V) (c' : Cache K V) : Prop :=
  ∃ key, a.op = .find key ∧ Step M c a c' ∧ ∀ i, findIndex M c.table key = some (some i) → ¬ Fills c i

theorem Quiet.fresh {a : Call K V} (h : Quiet M c a c') : FreshStep M c a c' := by
  obtain ⟨key, hop, hstep, -⟩ := h
  refine ⟨?_, hstep⟩
  rw [hop]
  trivial

theorem quiet_marks {a : Call K V} (s : Sound M c) (h : Quiet M c a c') :
    (∀ k, Marked M c k → Marked M c' k) ∧ ∀ k, a.accesses = some k → Marked M c' k := by
  obtain ⟨op, found, handed⟩ := a
  obtain ⟨key, rfl, hstep, hquiet⟩ := h
  obtain ⟨hfound, hkeep, -⟩ := find_marks s key (step_find hstep).1
  refine ⟨hkeep hquiet, fun k hk => ?_⟩
  cases hb : found.isSome with
  | true =>
    obtain rfl : key = k := by simpa [Call.accesses, hb] using hk
    exact hfound hb
  | false => simp [Call.accesses, hb] at hk

/-- **Run lemma.** All keys such FINDs find are marked at the end. -/
theorem quiet_run {c0 : Cache K V} {l : List (Call K V)} (h : Run (Quiet M) c0 l c) (x0 : Exact M c0) :
    Exact M c ∧ (∀ k, Marked M c0 k → Marked M c k) ∧ ∀ a ∈ l, ∀ k, a.accesses = some k → Marked M c k := by
  induction h with
  | nil => exact ⟨x0, fun _ h => h, fun a ha => by cases ha⟩
  | @cons c0 c1 c2 a l hs _ ih =>
    obtain ⟨hkeep, hacc⟩ := quiet_marks x0.toSound hs
    obtain ⟨x2, hkeep', hacc'⟩ := ih (fresh_step x0 hs.fresh).1
    refine ⟨x2, fun k hk => hkeep' k (hkeep k hk), fun b hb k hk => ?_⟩
    rcases List.mem_cons.1 hb with rfl | hb
    · exact hkeep' k (hacc k hk)
    · exact hacc' b hb k hk

/-- **The cache does not evict what was just used.** In every run whose INSERTs are of keys not in the cache,
    the next INSERT of such a key evicts neither the key last found or inserted, nor, from any state of the
    run on, any of the keys found since, if none of these FINDs cleared a word of the bitmap. -/
theorem recent_not_evicted (M : Methods K) (rand : Nat → UInt8) {capacity : Nat} (cb : Bool)
    (hcap : M.initialCap < capacity) (hdvd : entriesPerBlock ∣ capacity) :
    ∃ c0 : Cache K V, init M rand capacity cb = .ok c0 ∧
      ∀ (l : List (Call K V)) (c : Cache K V), Run (FreshStep M) c0 l c →
        (∀ k, lastAccess l = some k → ∀ key value, bindings M c.table key = none → Spares M c key value k) ∧
        ∀ (l' : List (Call K V)) (c' : Cache K V), Run (Quiet M) c l' c' → ∀ a ∈ l', ∀ k, a.accesses = some k →
          ∀ key value, bindings M c'.table key = none → Spares M c' key value k := by
  obtain ⟨c0, hinit, x0, _, _, _⟩ := init_exact (V := V) M rand cb hcap hdvd
  refine ⟨c0, hinit, fun l c h => ?_⟩
  obtain ⟨x, _, _⟩ := fresh_run h x0
  refine ⟨fun k hk key value hnew => ?_, fun l' c' h' a ha k hk key value hnew => ?_⟩
  · exact spares_marked x (lastAccess_marked h x0 k hk) value hnew
  · obtain ⟨x', -, hmarked⟩ := quiet_run h' x
    exact spares_marked x' (hmarked a ha k hk) value hnew

/-- 64 has been inserted last; then 65 is found. -/
theorem recent_not_evicted_64 : ∃ c0 c c' : Cache Nat Nat, init numbersInTwo (fun _ => 0) 64 true = .ok c0 ∧
    Run (FreshStep numbersInTwo) c0 fewCalls c ∧ Spares numbersInTwo c 128 1280 64 ∧
    Run (Quiet numbersInTwo) c [⟨.find 65, some 650, []⟩] c' ∧ Spares numbersInTwo c' 128 1280 65 := by
  obtain ⟨c0, hinit, hruns⟩ : ∃ c0 : Cache Nat Nat, init numbersInTwo (fun _ => 0) 64 true = .ok c0 ∧ _ :=
    recent_not_evicted numbersInTwo (fun _ => 0) true (by decide) (by decide)
  obtain rfl : cacheOf64 true 0#64 0 (List.replicate 64 default) = c0 := Except.ok.inj (few_run.1.symm.trans hinit)
  obtain ⟨hlast, hsince⟩ := hruns _ _ few_run.2
  have hslot : findIndex numbersInTwo bothAtHome.table 65 = some (some 1) := rfl
  have hquiet : Run (Quiet numbersInTwo) bothAtHome [⟨.find 65, some 650, []⟩] { bothAtHome with accessed := [3#64] } := by
    refine .single ⟨65, rfl, rfl, fun i hi => ?_⟩
    obtain rfl : 1 = i := Option.some.inj (Option.some.inj (hslot.symm.trans hi))
    decide
  exact ⟨_, _, _, hinit, few_run.2, hlast 64 rfl 128 1280 rfl, hquiet,
    hsince _ _ hquiet _ (List.mem_singleton_self _) 65 rfl 128 1280 rfl⟩

end A3Cache
