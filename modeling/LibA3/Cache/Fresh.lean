import LibA3.Cache.Run

/-!
# Caches that are given new keys only

`A3_CACHE_INSERT` takes every `false` of `A3_HT_INSERT` for "full". It is right to as long as the key is
new, and then `size` counts the entries (`Exact`), a full table has a victim, and the retry finds a free
slot: no call panics (`fresh_no_panic`). With a stored key the cache evicts, and then finds the key still
there: a panic, unless the victim was that very entry.

Under the same condition nothing is lost: what is in the cache is what was inserted and not handed to the
callback (`fresh_ledger`).
-/

namespace A3Cache

open A3Ht HT Trans

variable {K V : Type} [Inhabited K] [Inhabited V] {M : Methods K} {c c' : Cache K V}

/-- A cache whose `size` is right. -/
structure Exact (M : Methods K) (c : Cache K V) : Prop extends Sound M c where
  size_eq : c.table.size = c.table.live.length

theorem occupied_of_full {t : HT K V} (w : WF M t) (hfull : t.live.length = t.cap) {i : Nat} (hi : i < t.cap) :
    (t.entry i).hash ≠ 0 := by
  intro h0
  have := length_live_lt (by rw [w.len]; exact hi) h0
  rw [w.len] at this
  omega

/-- **INSERT of a new key** returns. It evicts one entry if the table is full, and else none. -/
theorem fresh_insert (x : Exact M c) {key : K} (value : V) (habs : ∀ e ∈ c.table.live, M.C key e.key ≠ 0) :
    ∃ c' handed removed, insert M c key value = .ok (c', handed) ∧ Exact M c' ∧
      ⟨key, value, hash M c.table key⟩ ∈ c'.table.live ∧
      (⟨key, value, hash M c.table key⟩ :: c.table.live).Perm (removed ++ c'.table.live) ∧
      HandsOver c.evictionCallback handed removed ∧
      removed.length = if c.table.live.length = c.table.cap then 1 else 0 := by
  have hsize := x.size_eq
  have hle := x.live_le
  have hins := insert_cases x.toSound key value
  generalize insert M c key value = r at hins ⊢
  -- the key is new: where the table does not take it, it is full
  have hfull : (∃ e ∈ c.table.live, M.C key e.key = 0) ∨ c.table.cap ≤ c.table.size →
      c.table.live.length = c.table.cap := by
    rintro (⟨e, he, hk⟩ | h)
    · exact absurd hk (habs e he)
    · omega
  cases hins with
  | @room c' _ hroom st hn =>
    have hlen := st.perm.length_eq
    simp only [List.length_cons] at hlen
    refine ⟨c', [], [], rfl, ⟨st.sound, by omega⟩, st.perm.mem_iff.2 List.mem_cons_self, st.perm.symm,
      handsOver_nil _, ?_⟩
    rw [if_neg (by omega)]
    rfl
  | @replaced c' i n rest h hv hperm _ st hn =>
    obtain ⟨hi, _, hocc⟩ := victim_spec hv
    have hlen := hperm.length_eq
    have hlen' := st.perm.length_eq
    have hge := st.sound.size_ge
    have hle' := st.sound.size_le
    have hcap := st.cap
    have hcount := hfull h
    simp only [List.length_cons] at hlen hlen'
    refine ⟨c', _, [c.table.entry i], rfl, ⟨st.sound, by omega⟩, st.perm.mem_iff.2 List.mem_cons_self, ?_, ?_, ?_⟩
    · exact (hperm.cons _).trans ((List.Perm.swap _ _ _).trans (st.perm.symm.cons _))
    · have hho := (handsOver_nil (K := K) (V := V) c.evictionCallback).cons (t := { c.table with size := n })
        (by rw [x.wf.len]; exact hi) hocc
      rwa [List.append_nil] at hho
    · rw [if_pos hcount]
      rfl
  | noVictim h hv =>
    obtain ⟨i, hi⟩ := victim_of_full x.bitmap x.aligned x.wf.cap_pos fun i hi => occupied_of_full x.wf (hfull h) hi
    rw [hv] at hi
    cases hi
  | stillStored _ hperm hpres =>
    exact absurd (fun e he => habs e (hperm.mem_iff.2 (List.mem_cons_of_mem _ he))) hpres

/-! ## The ledger -/

def pair (e : Entry K V) : K × V := (e.key, e.value)

def Handed.pair (h : Handed K V) : K × V := (h.key, h.value)

/-- What a call puts into the cache. -/
def Call.inserted (a : Call K V) : List (K × V) :=
  match a.op with
  | .insert key value => [(key, value)]
  | _ => []

omit [Inhabited K] [Inhabited V] in
theorem HandsOver.pairs {handed : List (Handed K V)} {removed : List (Entry K V)}
    (h : HandsOver true handed removed) : handed.map Handed.pair = removed.map A3Cache.pair := by
  have h' : List.Forall₂ (fun h e => h.key = e.key ∧ h.value = e.value ∧ e ∈ h.table.live) handed removed := h
  induction h' with
  | nil => rfl
  | cons hd _ ih => simp only [List.map_cons, Handed.pair, A3Cache.pair, hd.1, hd.2.1]; rw [ih ‹_›]

omit [Inhabited K] [Inhabited V] in
/-- Every entry is in the table, as it is, when it is handed over. -/
theorem HandsOver.stored {set : Bool} {handed : List (Handed K V)} {removed : List (Entry K V)}
    (h : HandsOver set handed removed) {x : Handed K V} (hx : x ∈ handed) :
    ∃ e ∈ x.table.live, e.key = x.key ∧ e.value = x.value := by
  cases set with
  | false => have hnil : handed = [] := h; rw [hnil] at hx; cases hx
  | true =>
    have h' : List.Forall₂ (fun h e => h.key = e.key ∧ h.value = e.value ∧ e ∈ h.table.live) handed removed := h
    clear h
    induction h' with
    | nil => cases hx
    | @cons a b _ _ hd _ ih =>
      rcases List.mem_cons.1 hx with rfl | hx
      · exact ⟨b, hd.2.2, hd.1.symm, hd.2.1.symm⟩
      · exact ih hx

/-- **Step lemma.** What a call inserts and what was there is what it removes and what stays. -/
theorem fresh_step {a : Call K V} (x : Exact M c) (h : FreshStep M c a c') : Exact M c' ∧
    ∃ removed : List (Entry K V), HandsOver c.evictionCallback a.handed removed ∧
      (a.inserted ++ c.table.live.map pair).Perm (removed.map pair ++ c'.table.live.map pair) := by
  obtain ⟨op, found, handed⟩ := a
  obtain ⟨hfresh, hstep⟩ := h
  cases op with
  | insert key value =>
    obtain ⟨c1, handed1, removed, hok, x1, _, hperm, hho, _⟩ := fresh_insert x value (lookup_eq_none.1 hfresh)
    cases hok.symm.trans (step_insert hstep)
    have := hperm.map pair
    rw [List.map_append] at this
    exact ⟨x1, removed, hho, this⟩
  | find key =>
    obtain ⟨blocks, hok, hbm⟩ := find_spec x.toSound key
    obtain ⟨hfind, rfl⟩ := step_find hstep
    cases hok.symm.trans hfind
    exact ⟨⟨x.toSound.withAccessed hbm, x.size_eq⟩, [], handsOver_nil _, .refl _⟩
  | clear =>
    obtain ⟨c1, handed1, removed, hok, s1, _, _, hs, hperm, hho⟩ := clear_spec x.toSound
    cases hok.symm.trans (step_clear hstep)
    have hlen := hperm.length_eq
    have hsize : c'.table.size = c.table.size - removed.length := by rw [hs]
    have heq := x.size_eq
    simp only [List.length_append] at hlen
    have := hperm.map pair
    rw [List.map_append] at this
    exact ⟨⟨s1, by omega⟩, removed, hho, this⟩

theorem FreshStep.toStep {a : Call K V} (h : FreshStep M c a c') : Step M c a c' := h.2

/-- **Run lemma.** -/
theorem fresh_run {c0 : Cache K V} {l : List (Call K V)} (h : Run (FreshStep M) c0 l c) (x : Exact M c0) :
    Exact M c ∧ c.table.cap = c0.table.cap ∧ c.evictionCallback = c0.evictionCallback := by
  have hrun := run_sound (h.mono fun _ _ _ hs => hs.toStep) x.toSound
  exact ⟨h.invariant (fun _ _ _ x1 hs => (fresh_step x1 hs).1) x, hrun.2⟩

theorem fresh_run_ledger {c0 : Cache K V} {l : List (Call K V)} (h : Run (FreshStep M) c0 l c) (x : Exact M c0)
    (hcb : c0.evictionCallback = true) :
    (∀ a ∈ l, ∀ y ∈ a.handed, ∃ e ∈ y.table.live, e.key = y.key ∧ e.value = y.value) ∧
      (l.flatMap Call.inserted ++ c0.table.live.map pair).Perm
        (l.flatMap (fun a => a.handed.map Handed.pair) ++ c.table.live.map pair) := by
  induction h with
  | nil => exact ⟨by simp, .refl _⟩
  | @cons c0 c1 c a l hs _ ih =>
    obtain ⟨x1, removed, hho, hperm⟩ := fresh_step x hs
    obtain ⟨hstored, hrest⟩ := ih x1 ((step_sound x.toSound hs.toStep).2.2.trans hcb)
    refine ⟨fun b hb => ?_, ?_⟩
    · rcases List.mem_cons.1 hb with rfl | hb
      · exact fun y hy => hho.stored hy
      · exact hstored b hb
    · rw [hcb] at hho
      rw [← hho.pairs] at hperm
      simp only [List.flatMap_cons, List.append_assoc]
      -- past the first call, what it inserted has become what it handed over and what it left
      refine (List.perm_append_comm_assoc _ _ _).trans ?_
      refine (hperm.append_left _).trans ?_
      refine (List.perm_append_comm_assoc _ _ _).trans ?_
      exact hrest.append_left _

/-! ## From `A3_CACHE_INIT` -/

theorem init_exact (M : Methods K) (rand : Nat → UInt8) {capacity : Nat} (cb : Bool) (hcap : M.initialCap < capacity)
    (hdvd : entriesPerBlock ∣ capacity) : ∃ c : Cache K V, init M rand capacity cb = .ok c ∧ Exact M c ∧
      c.table.cap = capacity ∧ c.evictionCallback = cb ∧ c.table.live = [] := by
  obtain ⟨c, hinit, s, hc, hcb, hlive, hsize⟩ := init_sound (V := V) M rand cb hcap hdvd
  exact ⟨c, hinit, ⟨s, by rw [hsize, hlive]; rfl⟩, hc, hcb, hlive⟩

theorem exec_fresh (x : Exact M c) (op : Op K V) (h : op.Fresh M c) : ∃ r, exec M c op = .ok r := by
  cases op with
  | insert key value =>
    obtain ⟨c', handed, _, hok, _⟩ := fresh_insert x value (lookup_eq_none.1 h)
    exact ⟨_, by rw [exec, hok]; rfl⟩
  | find key =>
    obtain ⟨blocks, hok, _⟩ := find_spec x.toSound key
    exact ⟨_, by rw [exec, hok]; rfl⟩
  | clear =>
    obtain ⟨c', handed, _, hok, _⟩ := clear_spec x.toSound
    exact ⟨_, by rw [exec, hok]; rfl⟩

/-- **INSERT of a stored key** panics, unless the entry the eviction scan stops at is the one with that key. -/
theorem insert_stored_iff (s : Sound M c) {key : K} (value : V) (h : bindings M c.table key ≠ none) :
    (∃ r, insert M c key value = .ok r) ↔ ∃ i, victim c = some i ∧ M.C key (c.table.entry i).key = 0 := by
  obtain ⟨v, hv⟩ := Option.ne_none_iff_exists'.1 h
  obtain ⟨e, he, hk, _⟩ := (lookup_eq_some s.wf.keys).1 hv
  -- the key is stored once: it leaves with the victim iff it is the victim's
  have hleaves : ∀ {i : Nat} {rest : List (Entry K V)}, c.table.live.Perm (c.table.entry i :: rest) →
      ((∀ a ∈ rest, M.C key a.key ≠ 0) ↔ M.C key (c.table.entry i).key = 0) := by
    intro i rest hperm
    have hkeys := List.pairwise_cons.1 (keys_perm hperm s.wf.keys)
    constructor
    · intro habs
      rcases List.mem_cons.1 (hperm.mem_iff.1 he) with heq | hmem
      · rw [← heq]; exact hk
      · exact absurd hk (habs e hmem)
    · intro hki a ha hka
      exact hkeys.1 a ha (C_trans (C_comm.1 hki) hka)
  have hins := insert_cases s key value
  generalize insert M c key value = r at hins ⊢
  cases hins with
  | room habs => exact absurd hk (habs e he)
  | @replaced c' i n rest _ hvic hperm habs =>
    exact ⟨fun _ => ⟨i, hvic, (hleaves hperm).1 habs⟩, fun _ => ⟨_, rfl⟩⟩
  | noVictim _ hvic =>
    constructor
    · rintro ⟨r, hr⟩
      cases hr
    · rintro ⟨i, hi, _⟩
      rw [hvic] at hi
      cases hi
  | stillStored hvic hperm hpres =>
    constructor
    · rintro ⟨r, hr⟩
      cases hr
    · rintro ⟨j, hj, hkj⟩
      obtain rfl := Option.some.inj (hvic.symm.trans hj)
      exact absurd ((hleaves hperm).2 hkj) hpres

/-- **No panic as long as keys are new.** In every run whose INSERTs are of keys not in the cache, every
    such call returns; an INSERT of a stored key would not, unless the eviction scan stopped at that key's
    own entry. -/
theorem fresh_no_panic (M : Methods K) (rand : Nat → UInt8) {capacity : Nat} (cb : Bool)
    (hcap : M.initialCap < capacity) (hdvd : entriesPerBlock ∣ capacity) :
    ∃ c0 : Cache K V, init M rand capacity cb = .ok c0 ∧
      ∀ (l : List (Call K V)) (c : Cache K V), Run (FreshStep M) c0 l c →
        (∀ op : Op K V, op.Fresh M c → ∃ r, exec M c op = .ok r) ∧
        ∀ key value, bindings M c.table key ≠ none →
          ((∃ r, insert M c key value = .ok r) ↔ ∃ i, victim c = some i ∧ M.C key (c.table.entry i).key = 0) := by
  obtain ⟨c0, hinit, x0, _, _, _⟩ := init_exact (V := V) M rand cb hcap hdvd
  refine ⟨c0, hinit, fun l c h => ?_⟩
  obtain ⟨x, _, _⟩ := fresh_run h x0
  exact ⟨exec_fresh x, fun key value hb => insert_stored_iff x.toSound value hb⟩

/-- The scan stops at the stored key 65, and an INSERT of it returns, but not at 64. -/
theorem fresh_no_panic_64 : ∃ c0 c : Cache Nat Nat, init numbersInTwo (fun _ => 0) 64 true = .ok c0 ∧
    Run (FreshStep numbersInTwo) c0 fewCalls c ∧
    (∀ op : Op Nat Nat, op.Fresh numbersInTwo c → ∃ r, exec numbersInTwo c op = .ok r) ∧
    (∃ r, insert numbersInTwo c 65 651 = .ok r) ∧ ¬∃ r, insert numbersInTwo c 64 641 = .ok r := by
  obtain ⟨c0, hinit, hruns⟩ : ∃ c0 : Cache Nat Nat, init numbersInTwo (fun _ => 0) 64 true = .ok c0 ∧ _ :=
    fresh_no_panic numbersInTwo (fun _ => 0) true (by decide) (by decide)
  obtain rfl : cacheOf64 true 0#64 0 (List.replicate 64 default) = c0 := Except.ok.inj (few_run.1.symm.trans hinit)
  obtain ⟨hfresh, hstored⟩ := hruns _ _ few_run.2
  have hvictim : victim bothAtHome = some 1 := rfl
  refine ⟨_, _, hinit, few_run.2, hfresh, (hstored 65 651 (by decide)).2 ⟨1, hvictim, rfl⟩, fun h => ?_⟩
  obtain ⟨i, hi, hkey⟩ := (hstored 64 641 (by decide)).1 h
  obtain rfl : 1 = i := Option.some.inj (hvictim.symm.trans hi)
  exact absurd hkey (by decide)

/-- A key inserted twice into a cache of 64 slots: nothing to evict but an entry just accessed. -/
theorem insert_twice_panics : ∃ c0 c1 : Cache Nat Nat, init numbersInTwo (fun _ => 0) 64 false = .ok c0 ∧
    Run (Step numbersInTwo) c0 [⟨.insert 1 10, none, []⟩] c1 ∧
    insert numbersInTwo c1 1 11 = .error .unableToEvict := by
  refine ⟨cacheOf64 false 0#64 0 (List.replicate 64 default),
    cacheOf64 false 2#64 1 ((List.replicate 64 default).set 1 ⟨1, 10, 1⟩), rfl, Run.single rfl, rfl⟩

/-- **The callback accounts for every entry.** In every run whose INSERTs are of keys not in the cache, the
    entries inserted are those handed over and those still there; each was in the table when handed over;
    those still there are found, with their values, and are at most `capacity` many; INSERT hands over an
    entry only if the table is full, and then one; and what it inserted is found. -/
theorem fresh_ledger (M : Methods K) (rand : Nat → UInt8) {capacity : Nat} (hcap : M.initialCap < capacity)
    (hdvd : entriesPerBlock ∣ capacity) : ∃ c0 : Cache K V, init M rand capacity true = .ok c0 ∧
      ∀ (l : List (Call K V)) (c : Cache K V), Run (FreshStep M) c0 l c →
        (l.flatMap Call.inserted).Perm (l.flatMap (fun a => a.handed.map Handed.pair) ++ c.table.live.map pair) ∧
        (∀ a ∈ l, ∀ y ∈ a.handed, ∃ e ∈ y.table.live, e.key = y.key ∧ e.value = y.value) ∧
        (∀ e ∈ c.table.live, ∃ c', find M c e.key = .ok (c', some e.value)) ∧
        c.table.live.length ≤ capacity ∧
        ∀ key value, bindings M c.table key = none → ∃ c' handed, insert M c key value = .ok (c', handed) ∧
          (handed.length = if c.table.live.length = capacity then 1 else 0) ∧
          ∃ c'', find M c' key = .ok (c'', some value) := by
  obtain ⟨c0, hinit, x0, hc0, hcb0, hlive0⟩ := init_exact (V := V) M rand true hcap hdvd
  refine ⟨c0, hinit, fun l c h => ?_⟩
  obtain ⟨x, hc, hcb⟩ := fresh_run h x0
  obtain ⟨hstored, hperm⟩ := fresh_run_ledger h x0 hcb0
  rw [hc0] at hc
  rw [hcb0] at hcb
  simp only [hlive0, List.map_nil, List.append_nil] at hperm
  have hfound : ∀ {c : Cache K V}, Sound M c → ∀ {e : Entry K V} {key : K}, e ∈ c.table.live → M.C key e.key = 0 →
      ∃ c', find M c key = .ok (c', some e.value) := by
    intro c s e key he hk
    obtain ⟨blocks, hok, _⟩ := find_spec s key
    exact ⟨_, by rw [hok, bindings, lookup_of_mem s.wf.keys he hk]⟩
  refine ⟨hperm, hstored, fun e he => hfound x.toSound he (M.C_equiv.refl _), by rw [← hc]; exact x.live_le,
    fun key value hb => ?_⟩
  obtain ⟨c', handed, removed, hok, x', hmem, _, hho, hcount⟩ := fresh_insert x value (lookup_eq_none.1 hb)
  rw [hcb] at hho
  have hlen : handed.length = removed.length := by
    have := congrArg List.length hho.pairs
    simpa using this
  exact ⟨c', handed, hok, by rw [hlen, hcount, hc], hfound x'.toSound hmem (M.C_equiv.refl _)⟩

theorem fresh_ledger_64 : ∃ c0 c : Cache Nat Nat, init numbersInTwo (fun _ => 0) 64 true = .ok c0 ∧
    Run (FreshStep numbersInTwo) c0 fewCalls c ∧
    (fewCalls.flatMap Call.inserted).Perm (fewCalls.flatMap (fun a => a.handed.map Handed.pair) ++ c.table.live.map pair) ∧
    (∀ a ∈ fewCalls, ∀ y ∈ a.handed, ∃ e ∈ y.table.live, e.key = y.key ∧ e.value = y.value) ∧
    (∀ e ∈ c.table.live, ∃ c', find numbersInTwo c e.key = .ok (c', some e.value)) ∧
    c.table.live.length ≤ 64 ∧
    ∀ key value, bindings numbersInTwo c.table key = none → ∃ c' handed,
      insert numbersInTwo c key value = .ok (c', handed) ∧
      (handed.length = if c.table.live.length = 64 then 1 else 0) ∧
      ∃ c'', find numbersInTwo c' key = .ok (c'', some value) := by
  obtain ⟨c0, hinit, hruns⟩ : ∃ c0 : Cache Nat Nat, init numbersInTwo (fun _ => 0) 64 true = .ok c0 ∧ _ :=
    fresh_ledger numbersInTwo (fun _ => 0) (by decide) (by decide)
  obtain rfl : cacheOf64 true 0#64 0 (List.replicate 64 default) = c0 := Except.ok.inj (few_run.1.symm.trans hinit)
  exact ⟨_, _, hinit, few_run.2, hruns _ _ few_run.2⟩

end A3Cache
