import LibA3.Cache.Fresh

/-!
# What a client of the cache knows

Whoever sees the calls and the eviction callback can tell what FIND returns: the value that was inserted last under an equal
key, if it has not been handed over since (`find_predicted`). This holds for every call that returns, also for INSERT of a key
that is in the cache, which returns if the entry it evicts is the one with the key.
-/

namespace A3Cache

open A3Ht Fallible HT Trans

variable {K V : Type} [Inhabited K] [Inhabited V] {M : Methods K} {c c' : Cache K V}

/-! ## The entries that leave -/

/-- What a call does to the entries: `removed` leave, `rest` stay, and what it inserts comes. -/
structure Moves (c c' : Cache K V) (a : Call K V) (removed rest : List (Entry K V)) : Prop where
  before : c.table.live.Perm (removed ++ rest)
  after : ∃ inserted : List (Entry K V), inserted.map pair = a.inserted ∧ c'.table.live.Perm (inserted ++ rest)
  handed : HandsOver c.evictionCallback a.handed removed

/-- **Step lemma.** What each call that returns does to the entries. -/
theorem step_moves {a : Call K V} (s : Sound M c) (h : Step M c a c') : ∃ removed rest, Moves c c' a removed rest := by
  obtain ⟨op, found, handed⟩ := a
  cases op with
  | insert key value =>
    have hins := insert_cases s key value
    rw [step_insert h] at hins
    cases hins with
    | room _ _ st _ => exact ⟨[], c.table.live, .refl _, ⟨[_], rfl, st.perm⟩, handsOver_nil _⟩
    | @replaced _ i n rest _ hv hperm _ st _ =>
      obtain ⟨hi, _, hocc⟩ := victim_spec hv
      have hho : HandsOver c.evictionCallback (callback c.evictionCallback { c.table with size := n } i)
          [c.table.entry i] := by
        have hone := (handsOver_nil c.evictionCallback (K := K) (V := V)).cons (t := { c.table with size := n }) (i := i)
          (by rw [s.wf.len]; exact hi) hocc
        rwa [List.append_nil] at hone
      exact ⟨[c.table.entry i], rest, hperm, ⟨[_], rfl, st.perm⟩, hho⟩
  | find key =>
    obtain ⟨blocks, hok, _⟩ := find_spec s key
    obtain ⟨hfind, rfl⟩ := step_find h
    cases hok.symm.trans hfind
    exact ⟨[], c.table.live, .refl _, ⟨[], rfl, .refl _⟩, handsOver_nil _⟩
  | clear =>
    obtain ⟨c1, handed1, removed, hok, _, _, _, _, hperm, hho⟩ := clear_spec s
    cases hok.symm.trans (step_clear h)
    exact ⟨removed, c'.table.live, hperm, ⟨[], rfl, .refl _⟩, hho⟩

/-! ## The value of a key -/

/-- The value under key `k` as a client sees it: a callback ends it, and an INSERT begins it anew. -/
def shown (M : Methods K) (k : K) (value : Option V) (a : Call K V) : Option V :=
  let kept := if a.handed.any fun y => M.C k y.key = 0 then none else value
  match a.op with
  | .insert key value => if M.C k key = 0 then some value else kept
  | _ => kept

omit [Inhabited K] [Inhabited V] in
/-- What is left of a table's bindings. -/
theorem lookup_rest {removed rest : List (Entry K V)} (hkeys : (removed ++ rest).Pairwise fun a b => M.C a.key b.key ≠ 0)
    (k : K) : lookup M rest k =
      if removed.any fun e => M.C k e.key = 0 then none else lookup M (removed ++ rest) k := by
  induction removed with
  | nil => rfl
  | cons e removed ih =>
    obtain ⟨hhead, htail⟩ := List.pairwise_cons.1 hkeys
    rw [List.cons_append, lookup_cons, List.any_cons]
    by_cases hk : M.C k e.key = 0
    · -- the key that goes was stored once
      have hnone : lookup M rest k = none := lookup_eq_none.2 fun e' he' hk' =>
        hhead e' (List.mem_append_right _ he') (C_trans (C_comm.1 hk) hk')
      simp [hk, hnone]
    · simp [hk, ih htail]

omit [Inhabited K] [Inhabited V] in
theorem HandsOver.any_key {handed : List (Handed K V)} {removed : List (Entry K V)} (h : HandsOver true handed removed)
    (p : K → Bool) : (handed.any fun y => p y.key) = removed.any fun e => p e.key := by
  have h' : List.Forall₂ (fun h e => h.key = e.key ∧ h.value = e.value ∧ e ∈ h.table.live) handed removed := h
  clear h
  induction h' with
  | nil => rfl
  | cons hd _ ih => rw [List.any_cons, List.any_cons, hd.1, ih]

/-- **Step lemma.** The client's view follows the table. -/
theorem step_shown {a : Call K V} (s : Sound M c) (hcb : c.evictionCallback = true) (h : Step M c a c') (k : K) :
    bindings M c'.table k = shown M k (bindings M c.table k) a := by
  have s' := (step_sound s h).1
  obtain ⟨removed, rest, hmoves⟩ := step_moves s h
  have hho := hmoves.handed
  rw [hcb] at hho
  have hkeys := keys_perm hmoves.before s.wf.keys
  have hrest : lookup M rest k =
      if a.handed.any fun y => M.C k y.key = 0 then none else bindings M c.table k := by
    rw [hho.any_key fun key => decide (M.C k key = 0), bindings, lookup_perm s.wf.keys hmoves.before k]
    exact lookup_rest hkeys k
  obtain ⟨inserted, hins, hafter⟩ := hmoves.after
  rw [bindings, lookup_perm s'.wf.keys hafter k, shown, ← hrest]
  obtain ⟨op, found, handed⟩ := a
  cases op with
  | insert key value =>
    obtain ⟨e, rfl, he⟩ := List.map_eq_singleton_iff.1 hins
    cases he
    exact lookup_cons e rest k
  | find key =>
    obtain rfl : inserted = [] := List.map_eq_nil_iff.1 hins
    rfl
  | clear =>
    obtain rfl : inserted = [] := List.map_eq_nil_iff.1 hins
    rfl

/-- **Run lemma.** -/
theorem run_shown {c0 : Cache K V} {l : List (Call K V)} (h : Run (Step M) c0 l c) (s : Sound M c0)
    (hcb : c0.evictionCallback = true) (k : K) :
    bindings M c.table k = l.foldl (shown M k) (bindings M c0.table k) := by
  induction h with
  | nil => rfl
  | cons hs _ ih =>
    obtain ⟨s1, _, hcb1⟩ := step_sound s hs
    rw [ih s1 (hcb1.trans hcb), step_shown s hcb hs k, List.foldl_cons]

/-! ## The entries of a run -/

/-- **Run lemma.** What was inserted has been handed over or is still there. -/
theorem run_ledger {c0 : Cache K V} {l : List (Call K V)} (h : Run (Step M) c0 l c) (s : Sound M c0)
    (hcb : c0.evictionCallback = true) :
    (l.flatMap Call.inserted ++ c0.table.live.map pair).Perm
      (l.flatMap (fun a => a.handed.map Handed.pair) ++ c.table.live.map pair) := by
  induction h with
  | nil => exact .refl _
  | @cons c0 c1 c a l hs _ ih =>
    obtain ⟨s1, _, hcb1⟩ := step_sound s hs
    obtain ⟨removed, rest, hmoves⟩ := step_moves s hs
    obtain ⟨inserted, hins, hafter⟩ := hmoves.after
    have hho := hmoves.handed
    rw [hcb] at hho
    have hbefore := hmoves.before.map pair
    rw [List.map_append, ← hho.pairs] at hbefore
    have hstep : (a.inserted ++ c0.table.live.map pair).Perm (a.handed.map Handed.pair ++ c1.table.live.map pair) := by
      have hthen := hafter.map pair
      rw [List.map_append, hins] at hthen
      refine (hbefore.append_left _).trans ?_
      exact (List.perm_append_comm_assoc _ _ _).trans (hthen.symm.append_left _)
    simp only [List.flatMap_cons, List.append_assoc]
    refine (List.perm_append_comm_assoc _ _ _).trans ((hstep.append_left _).trans ?_)
    exact (List.perm_append_comm_assoc _ _ _).trans ((ih s1 (hcb1.trans hcb)).append_left _)

/-- **FIND returns what the client expects.** In every run of calls that return, stored keys inserted again among them, FIND
returns the value inserted last under an equal key, unless it has been handed to the callback since; and the entries inserted
are those handed over and those still there. -/
theorem find_predicted (M : Methods K) (rand : Nat → UInt8) {capacity : Nat} (hcap : M.initialCap < capacity)
    (hdvd : entriesPerBlock ∣ capacity) : ∃ c0 : Cache K V, init M rand capacity true = .ok c0 ∧
      ∀ (l : List (Call K V)) (c : Cache K V), Run (Step M) c0 l c →
        (∀ k, ∃ c', find M c k = .ok (c', l.foldl (shown M k) none)) ∧
        (l.flatMap Call.inserted).Perm (l.flatMap (fun a => a.handed.map Handed.pair) ++ c.table.live.map pair) := by
  obtain ⟨c0, hinit, s0, _, hcb0, hlive0, _⟩ := init_sound (V := V) M rand true hcap hdvd
  refine ⟨c0, hinit, fun l c hrun => ⟨fun k => ?_, ?_⟩⟩
  · have hshown := run_shown hrun s0 hcb0 k
    have hnone : bindings M c0.table k = none := by
      rw [bindings, hlive0]
      rfl
    obtain ⟨blocks, hfind, _⟩ := find_spec (run_sound hrun s0).1 k
    rw [hshown, hnone] at hfind
    exact ⟨_, hfind⟩
  · have hledger := run_ledger hrun s0 hcb0
    rwa [hlive0, List.map_nil, List.append_nil] at hledger

/-- 1 has been handed over by the CLEAR, and 65 by the INSERT that has given it another value; the table had counted it
twice by then. -/
theorem find_predicted_64 : ∃ c0 c : Cache Nat Nat, init numbersInTwo (fun _ => 0) 64 true = .ok c0 ∧
    Run (Step numbersInTwo) c0
      (fewCalls ++ [⟨.insert 65 651, none, callback true { bothAtHome.table with size := 3 } 1⟩]) c ∧
    (∃ c', find numbersInTwo c 1 = .ok (c', none)) ∧ (∃ c', find numbersInTwo c 65 = .ok (c', some 651)) ∧
    c.table.live.map pair = [(64, 640), (65, 651)] := by
  obtain ⟨c0, hinit, hruns⟩ : ∃ c0 : Cache Nat Nat, init numbersInTwo (fun _ => 0) 64 true = .ok c0 ∧ _ :=
    find_predicted numbersInTwo (fun _ => 0) (by decide) (by decide)
  obtain rfl : cacheOf64 true 0#64 0 (List.replicate 64 default) = c0 := Except.ok.inj (few_run.1.symm.trans hinit)
  have hrun := few_run.2.mono fun _ _ _ h => h.2
  have hagain : Step numbersInTwo bothAtHome
      ⟨.insert 65 651, none, callback true { bothAtHome.table with size := 3 } 1⟩ _ := rfl
  obtain ⟨hfind, _⟩ := hruns _ _ (hrun.concat hagain)
  exact ⟨_, _, hinit, hrun.concat hagain, hfind 1, hfind 65, rfl⟩

end A3Cache
