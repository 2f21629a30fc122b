import LibA3.Ht.Refine

/-!
# Inserting a stored key

`A3_HT_INSERT` documents what it does with a key that is already stored: without a duplicate callback it
returns `false`, with one it calls it and returns its result. How often a callback is called, and on what,
shows neither in the table nor in what is returned, so a table gets a copy whose values carry a record of
the calls (`logged`); it is the same `A3_HT_INSERT` that runs on it, and it does there what it does on the
table itself (`Erases.insert`).

The capacity check comes first and does not look for the key. It refuses a full table that may not grow,
callback or no callback.
-/

namespace A3Ht

open HT Trans

variable {K V : Type}

/-! ## A table that records the calls of its callback -/

/-- A value and the calls of the callback it comes from: the stored value, and the new one. -/
abbrev Logged (V : Type) := V × List (V × V)

def logCalls (cb : V → V → V × Bool) (current new : Logged V) : Logged V × Bool :=
  (((cb current.1 new.1).1, current.2 ++ new.2 ++ [(current.1, new.1)]), (cb current.1 new.1).2)

def Entry.logged (e : Entry K V) : Entry K (Logged V) := ⟨e.key, (e.value, []), e.hash⟩

def Entry.erase (e : Entry K (Logged V)) : Entry K V := ⟨e.key, e.value.1, e.hash⟩

theorem Entry.erase_default [Inhabited K] [Inhabited V] : (default : Entry K (Logged V)).erase = default := rfl

/-- The table with nothing on record yet. -/
def logged (t : HT K V) : HT K (Logged V) :=
  { canGrow := t.canGrow, size := t.size, cap := t.cap, hashKey := t.hashKey,
    duplicateCb := t.duplicateCb.map logCalls, entries := t.entries.map Entry.logged }

/-- What is on record. -/
def calls (t : HT K (Logged V)) : List (V × V) := t.live.flatMap fun e => e.value.2

/-- `t` is `l` without the record. -/
structure Erases (l : HT K (Logged V)) (t : HT K V) : Prop where
  canGrow : t.canGrow = l.canGrow
  size : t.size = l.size
  cap : t.cap = l.cap
  hashKey : t.hashKey = l.hashKey
  cb : l.duplicateCb = t.duplicateCb.map logCalls
  entries : t.entries = l.entries.map Entry.erase

variable {M : Methods K}

theorem logged_erases (t : HT K V) : Erases (logged t) t :=
  ⟨rfl, rfl, rfl, rfl, rfl, by simp [logged, Function.comp_def, Entry.erase, Entry.logged]⟩

theorem logged_live (t : HT K V) : (logged t).live = t.live.map Entry.logged := by
  rw [live, live, logged, List.filter_map]
  rfl

theorem calls_of_logged (es : List (Entry K V)) : (es.map Entry.logged).flatMap (fun e => e.value.2) = [] := by
  rw [List.flatMap_map, List.flatMap_eq_nil_iff]
  exact fun e _ => rfl

theorem calls_logged (t : HT K V) : calls (logged t) = [] := by
  rw [calls, logged_live, calls_of_logged]

theorem refuses_logged (t : HT K V) : refuses M (logged t) = refuses M t := rfl

/-! ## Recording changes nothing -/

namespace Erases

variable {l : HT K (Logged V)} {t : HT K V}

theorem setEntry (h : Erases l t) (i : Nat) (e : Entry K (Logged V)) : Erases (l.setEntry i e) (t.setEntry i e.erase) :=
  ⟨h.canGrow, h.size, h.cap, h.hashKey, h.cb, by simp [HT.setEntry, h.entries, List.map_set]⟩

theorem probeCount (h : Erases l t) (i hash : Nat) : t.probeCount i hash = l.probeCount i hash := by
  simp only [HT.probeCount, h.cap]

theorem hash_eq (h : Erases l t) (k : K) : hash M t k = hash M l k := by simp only [hash, h.hashKey]

theorem live_eq (h : Erases l t) : t.live = l.live.map Entry.erase := by
  rw [live, live, h.entries, List.filter_map]
  rfl

variable [Inhabited K] [Inhabited V]

theorem entry (h : Erases l t) (i : Nat) : t.entry i = (l.entry i).erase := by
  simp only [HT.entry, h.entries, List.getD_eq_getElem?_getD, List.getElem?_map]
  cases l.entries[i]? <;> rfl

/-- Both calls ran into the end of their fuel, or both returned the same, on tables that agree. -/
def Same : Option (HT K (Logged V) × Bool) → Option (HT K V × Bool) → Prop :=
  Option.Rel fun l t => Erases l.1 t.1 ∧ l.2 = t.2

theorem insertAtLoop : ∀ (fuel : Nat) {l : HT K (Logged V)} {t : HT K V} (i m : Nat) (e : Entry K (Logged V)),
    Erases l t → Same (A3Ht.insertAtLoop M fuel l i m e) (A3Ht.insertAtLoop M fuel t i m e.erase)
  | 0, _, _, _, _, _, _ => .none
  | fuel + 1, l, t, i, m, e, h => by
    have hent := h.entry i
    have hhash : (t.entry i).hash = (l.entry i).hash := by rw [hent]; rfl
    have hkey : (t.entry i).key = (l.entry i).key := by rw [hent]; rfl
    simp only [A3Ht.insertAtLoop, hhash, hkey, h.probeCount, h.cap]
    by_cases h0 : (l.entry i).hash = 0
    · simp only [if_pos h0]
      exact .some ⟨h.setEntry i e, rfl⟩
    · by_cases heq : e.hash = (l.entry i).hash ∧ M.C e.key (l.entry i).key = 0
      · have heq' : e.erase.hash = (l.entry i).hash ∧ M.C e.erase.key (l.entry i).key = 0 := heq
        simp only [if_neg h0, if_pos heq, if_pos heq', h.cb]
        cases t.duplicateCb with
        | none => exact .some ⟨h, rfl⟩
        | some cb =>
          have hset := h.setEntry i
            { l.entry i with value := (logCalls cb (l.entry i).value e.value).1 }
          rw [hent]
          exact .some ⟨hset, rfl⟩
      · have heq' : ¬(e.erase.hash = (l.entry i).hash ∧ M.C e.erase.key (l.entry i).key = 0) := heq
        simp only [if_neg h0, if_neg heq, if_neg heq']
        by_cases hlt : l.probeCount i (l.entry i).hash < m
        · simp only [if_pos hlt]
          rw [hent]
          exact insertAtLoop fuel _ _ _ (h.setEntry i e)
        · simp only [if_neg hlt]
          exact insertAtLoop fuel _ _ _ h

theorem insertAt (h : Erases l t) (hash : Nat) (k : K) (v : Logged V) :
    Same (A3Ht.insertAt M l hash k v) (A3Ht.insertAt M t hash k v.1) := by
  have := insertAtLoop (M := M) (l.cap + 1) (hash % l.cap) 0 ⟨k, v, hash⟩ h
  rw [A3Ht.insertAt, A3Ht.insertAt, h.cap]
  exact this

theorem reinsert : ∀ (prev : List (Entry K (Logged V))) {l : HT K (Logged V)} {t : HT K V}, Erases l t →
    Option.Rel Erases (A3Ht.reinsert M l prev) (A3Ht.reinsert M t (prev.map Entry.erase))
  | [], _, _, h => .some h
  | e :: prev, l, t, h => by
    have hhash : e.erase.hash = e.hash := rfl
    simp only [List.map_cons, A3Ht.reinsert, hhash]
    by_cases h0 : e.hash = 0
    · simp only [if_pos h0]
      exact reinsert prev h
    · simp only [if_neg h0]
      have hins : Same (A3Ht.insertAt M l e.hash e.key e.value) (A3Ht.insertAt M t e.hash e.erase.key e.erase.value) :=
        h.insertAt e.hash e.key e.value
      generalize A3Ht.insertAt M l e.hash e.key e.value = rl at hins ⊢
      generalize A3Ht.insertAt M t e.hash e.erase.key e.erase.value = rt at hins ⊢
      cases hins with
      | none => exact .none
      | some hs => exact reinsert prev hs.1

theorem resize (h : Erases l t) (newCap : Nat) :
    Option.Rel Erases (A3Ht.resize M l newCap) (A3Ht.resize M t newCap) := by
  have hfresh : Erases ({ l with cap := newCap, entries := List.replicate newCap default } : HT K (Logged V))
      { t with cap := newCap, entries := List.replicate newCap default } :=
    ⟨h.canGrow, h.size, rfl, h.hashKey, h.cb, by simp only [List.map_replicate, Entry.erase_default]⟩
  have := reinsert (M := M) (l.entries.take l.cap) hfresh
  rw [A3Ht.resize, A3Ht.resize, h.entries, h.cap, ← List.map_take]
  exact this

theorem grow (h : Erases l t) : Same (A3Ht.grow M l) (A3Ht.grow M t) := by
  rw [A3Ht.grow, A3Ht.grow, h.canGrow, h.cap]
  by_cases hgrow : l.canGrow = false
  · simp only [if_pos hgrow]
    exact .some ⟨h, rfl⟩
  · simp only [if_neg hgrow]
    have hre := h.resize (M := M) (l.cap * 2)
    generalize A3Ht.resize M l (l.cap * 2) = rl at hre ⊢
    generalize A3Ht.resize M t (l.cap * 2) = rt at hre ⊢
    cases hre with
    | none => exact .none
    | some hs => exact .some ⟨hs, rfl⟩

theorem insertCounted (h : Erases l t) (k : K) (v : Logged V) :
    Same (A3Ht.insertCounted M l k v) (A3Ht.insertCounted M t k v.1) := by
  have hcount : Erases { l with size := l.size + 1 } { t with size := t.size + 1 } :=
    ⟨h.canGrow, by rw [h.size], h.cap, h.hashKey, h.cb, h.entries⟩
  rw [A3Ht.insertCounted, A3Ht.insertCounted, h.hash_eq]
  exact hcount.insertAt _ k v

/-- **`A3_HT_INSERT`** does to a table what it does to the one that keeps a record. -/
theorem insert (h : Erases l t) (k : K) (v : Logged V) : Same (A3Ht.insert M l k v) (A3Ht.insert M t k v.1) := by
  rw [A3Ht.insert, A3Ht.insert, h.size, h.cap]
  by_cases hload : l.size * 100 ≥ l.cap * M.loadFactor
  · simp only [if_pos hload]
    have hgrow := h.grow (M := M)
    generalize A3Ht.grow M l = rl at hgrow ⊢
    generalize A3Ht.grow M t = rt at hgrow ⊢
    cases hgrow with
    | none => exact .none
    | @some a b hs =>
      obtain ⟨l', grown⟩ := a
      obtain ⟨t', grown'⟩ := b
      obtain ⟨hs, heq⟩ := hs
      simp only at hs heq
      subst heq
      simp only [hs.size, hs.cap]
      by_cases hfull : grown = false ∧ l'.size ≥ l'.cap
      · simp only [if_pos hfull]
        exact .some ⟨hs, rfl⟩
      · simp only [if_neg hfull]
        exact hs.insertCounted k v
  · simp only [if_neg hload]
    exact h.insertCounted k v

theorem rank_eq (h : Erases l t) : l.rank = t.rank := by
  funext p
  have hhash : (t.entry (p % l.cap)).hash = (l.entry (p % l.cap)).hash := by rw [h.entry]; rfl
  simp only [rank, rankOf, h.cap, hhash, h.probeCount]

theorem wf (h : Erases l t) (w : WF M t) : WF M l := by
  refine ⟨h.cap ▸ w.cap_pos, ?_, fun e he => ?_, ?_, ?_, ?_⟩
  · rw [← h.cap, ← w.len, h.entries, List.length_map]
  · rw [← h.hash_eq]
    exact w.hashes e.erase (h.live_eq ▸ List.mem_map_of_mem he)
  · have hkeys := w.keys
    rw [h.live_eq, List.pairwise_map] at hkeys
    exact hkeys
  · rw [h.rank_eq, ← h.cap]; exact w.layout
  · rw [h.rank_eq]; exact w.anchor

end Erases

/-! ## The contract -/

/-- The pairs a duplicate callback is owed by an INSERT of `v` over `current`. -/
def owedCalls (cb : Option (V → V → V × Bool)) (current v : V) : List (V × V) :=
  match cb with
  | none => []
  | some _ => [(current, v)]

theorem refuses_iff (t : HT K V) : refuses M t = false ↔ t.canGrow = true ∨ t.size < t.cap := by
  cases hgrow : t.canGrow with
  | true => simp [refuses, hgrow]
  | false => simp [refuses_fixed hgrow]

variable [Inhabited K] [Inhabited V] {t : HT K V}

/-- An INSERT of a stored key that gets past the capacity check makes the one call it owes. -/
theorem insert_calls (s : Sound M t) (href : refuses M t = false) {k : K} {current : V}
    (hk : bindings M t k = some current) (v : V) :
    ∃ l b, insert M (logged t) k (v, []) = some (l, b) ∧ calls l = owedCalls t.duplicateCb current v := by
  obtain ⟨e, he, hke, rfl⟩ := (lookup_eq_some s.wf.keys).1 hk
  have hl := logged_erases t
  have hlen : (logged t).live.length ≤ (logged t).size := by
    rw [logged_live, List.length_map]; exact s.size_ge
  have he' : e.logged ∈ (logged t).live := by rw [logged_live]; exact List.mem_map_of_mem he
  obtain ⟨l, rest, hins, -, -, hperm, hperm'⟩ := insert_present (hl.wf s.wf) hlen href (v, []) he' hke
  refine ⟨l, _, hins, ?_⟩
  -- of the entries, only the one of `k` can have a call on record
  have hrest : rest.flatMap (fun e => e.value.2) = [] := by
    rw [List.flatMap_eq_nil_iff]
    intro a ha
    have hmem := hperm.mem_iff.2 (List.mem_cons_of_mem _ ha)
    rw [logged_live] at hmem
    obtain ⟨b, -, rfl⟩ := List.mem_map.1 hmem
    rfl
  have hcalls := hperm'.flatMap_right fun e => e.value.2
  rw [List.flatMap_cons, hrest, List.append_nil] at hcalls
  cases hd : t.duplicateCb with
  | none =>
    have hd' : (logged t).duplicateCb = none := by rw [logged, hd]; rfl
    rw [hd'] at hcalls
    exact List.perm_nil.1 hcalls
  | some cb =>
    have hd' : (logged t).duplicateCb = some (logCalls cb) := by rw [logged, hd]; rfl
    rw [hd'] at hcalls
    exact List.perm_singleton.1 hcalls

/-- What is documented of `A3_HT_INSERT(k, v)` on a table that stores `current` for `k`; `l` is the table with
    its record after it. -/
structure AsDocumented (M : Methods K) (t : HT K V) (k : K) (current v : V) (t' : HT K V) (l : HT K (Logged V))
    (b : Bool) : Prop where
  returns : insert M t k v = some (t', b)
  recorded : insert M (logged t) k (v, []) = some (l, b) ∧ Erases l t'
  adds_nothing : t'.live.length = t.live.length
  others : ∀ k', M.C k' k ≠ 0 → bindings M t' k' = bindings M t k'
  stored : bindings M t' k = some (onDuplicateValue t.duplicateCb current v).1
  result : b = (onDuplicateValue t.duplicateCb current v).2
  called : calls l = owedCalls t.duplicateCb current v

/-- An INSERT of a stored key that gets past the capacity check, in terms of what is bound. -/
theorem insert_stored (s : Sound M t) (href : refuses M t = false) {k : K} {current : V}
    (hk : bindings M t k = some current) (v : V) :
    ∃ t', insert M t k v = some (t', (onDuplicateValue t.duplicateCb current v).2) ∧
      t'.live.length = t.live.length ∧ (∀ k', M.C k' k ≠ 0 → bindings M t' k' = bindings M t k') ∧
      bindings M t' k = some (onDuplicateValue t.duplicateCb current v).1 := by
  obtain ⟨e, he, hke, rfl⟩ := (lookup_eq_some s.wf.keys).1 hk
  obtain ⟨t', rest, hins, w', -, hperm, hperm'⟩ := insert_present s.wf s.size_ge href v he hke
  refine ⟨t', hins, ?_, fun k' hk' => ?_, ?_⟩
  · rw [hperm.length_eq, hperm'.length_eq, List.length_cons, List.length_cons]
  · have hne : M.C k' e.key ≠ 0 := fun h => hk' (C_trans h (C_comm.1 hke))
    rw [bindings_perm w' hperm', bindings_perm s.wf hperm, lookup_cons, lookup_cons, if_neg hne, if_neg hne]
  · rw [bindings_perm w' hperm', lookup_cons, if_pos hke]

/-- Past the capacity check the contract is kept. -/
theorem documented_of_accepted (s : Sound M t) (href : refuses M t = false) {k : K} {current : V}
    (hk : bindings M t k = some current) (v : V) : ∃ t' l b, AsDocumented M t k current v t' l b := by
  obtain ⟨t', hins, hlen, hothers, hstored⟩ := insert_stored s href hk v
  obtain ⟨l, b, hlog, hcalls⟩ := insert_calls s href hk v
  -- the two runs are one
  have hsame := (logged_erases t).insert (M := M) k (v, [])
  rw [hlog, hins] at hsame
  cases hsame with
  | some h =>
    obtain ⟨hl, rfl⟩ := h
    exact ⟨t', l, _, hins, ⟨hlog, hl⟩, hlen, hothers, hstored, rfl, hcalls⟩

/-- A refused INSERT calls nothing. -/
theorem refused_calls (href : refuses M t = true) {k : K} {current v : V} {t' : HT K V} {l : HT K (Logged V)} {b : Bool}
    (h : AsDocumented M t k current v t' l b) : owedCalls t.duplicateCb current v = [] := by
  have hlog := h.recorded.1
  rw [insert_refused (by rw [refuses_logged]; exact href)] at hlog
  simp only [Option.some.injEq, Prod.mk.injEq] at hlog
  rw [← h.called, ← hlog.1, calls_logged]

/-- Without a callback a refusal is the right answer. -/
theorem documented_of_no_callback (href : refuses M t = true) (hcb : t.duplicateCb = none) {k : K} {current : V}
    (hk : bindings M t k = some current) (v : V) : ∃ t' l b, AsDocumented M t k current v t' l b := by
  have hcur : onDuplicateValue t.duplicateCb current v = (current, false) := by rw [hcb]; rfl
  refine ⟨t, logged t, false, insert_refused href k v, ⟨?_, logged_erases t⟩, rfl, fun _ _ => rfl, ?_, ?_, ?_⟩
  · exact insert_refused (by rw [refuses_logged]; exact href) k (v, [])
  · rw [hcur]; exact hk
  · rw [hcur]
  · rw [calls_logged, hcb]; rfl

/-- **INSERT keeps its documented contract on a stored key exactly if no duplicate callback is set, or the
    table may grow, or `size` is below `cap`.** Otherwise the capacity check returns `false` before the key is
    looked for, and the callback is not called. -/
theorem insert_documented_iff (M : Methods K) (key : Option (List UInt8)) (rand : Nat → UInt8) (canGrow : Bool)
    {cs : List (Call K V)} {t : HT K V} (h : Run (Step M) (init M key rand canGrow) cs t) {k : K} {current : V}
    (hk : bindings M t k = some current) (v : V) :
    (∃ t' l b, AsDocumented M t k current v t' l b) ↔
      t.duplicateCb = none ∨ t.canGrow = true ∨ t.size < t.cap := by
  have s := run_sound h (init_sound M key rand canGrow)
  rw [← refuses_iff (M := M)]
  constructor
  · rintro ⟨t', l, b, hdoc⟩
    cases href : refuses M t with
    | false => exact Or.inr rfl
    | true =>
      have hnone := refused_calls href hdoc
      cases hcb : t.duplicateCb with
      | none => exact Or.inl rfl
      | some cb => rw [hcb] at hnone; cases hnone
  · intro hcond
    cases href : refuses M t with
    | false => exact documented_of_accepted s href hk v
    | true =>
      have hcb : t.duplicateCb = none := hcond.resolve_right (by simp [href])
      exact documented_of_no_callback href hcb hk v

/-- Values that are added up. -/
def addUp (current new : Nat) : Nat × Bool := (current + new, true)

/-- Two keys in two slots, the table not growing. -/
def fullOfTwo : HT Nat Nat := ⟨false, 2, 2, List.replicate 32 0, some addUp, [⟨2, 20, 2⟩, ⟨3, 30, 3⟩]⟩

def halfFull : HT Nat Nat := ⟨false, 1, 2, List.replicate 32 0, some addUp, [⟨2, 20, 2⟩, ⟨0, 0, 0⟩]⟩

theorem insert_documented_iff_halfFull :
    (∃ t' l b, AsDocumented numbersInTwo halfFull 2 20 5 t' l b) ↔
      halfFull.duplicateCb = none ∨ halfFull.canGrow = true ∨ halfFull.size < halfFull.cap :=
  insert_documented_iff numbersInTwo none (fun _ => 0) false
    (run_callAll [.setDuplicateCb (some addUp), .insert 2 20] rfl) rfl 5

/-- Full, a table returns `false` for a stored key although its callback would return `true`. -/
theorem full_ignores_callback : ∃ (cs : List (Call Nat Nat)),
    Run (Step numbersInTwo) (init numbersInTwo none (fun _ => 0) false) cs fullOfTwo ∧
    bindings numbersInTwo fullOfTwo 2 = some 20 ∧ fullOfTwo.duplicateCb = some addUp ∧
    insert numbersInTwo fullOfTwo 2 5 = some (fullOfTwo, false) ∧
    ¬∃ t' l b, AsDocumented numbersInTwo fullOfTwo 2 20 5 t' l b := by
  refine ⟨_, run_callAll [.setDuplicateCb (some addUp), .insert 2 20, .insert 3 30] rfl, rfl, rfl, rfl, ?_⟩
  rintro ⟨t', l, b, hdoc⟩
  exact absurd (refused_calls rfl hdoc) (by decide)

end A3Ht
