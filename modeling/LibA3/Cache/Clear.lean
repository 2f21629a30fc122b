import LibA3.Cache.Fresh

/-!
# What CLEAR leaves behind

`A3_CACHE_CLEAR` goes through the slots upwards and deletes what it finds. A deletion pulls the rest of the
cluster back by one, so the next entry of the cluster is then in the slot just visited, and is not seen
again. So the loop empties the table iff it never meets such a cluster: iff every entry from slot 1 on is in
its home slot. (The entry of slot 0 may have wrapped round: the loop meets it first.)

`Passed` is the loop invariant while nothing has been pulled back: the visited slots are empty, the others
as they were. Once something has, the visited part of the table stays occupied (`clearLoop_occupied`).
-/

namespace A3Cache

open A3Ht HT Trans

variable {K V : Type} [Inhabited K] [Inhabited V] {M : Methods K} {c : Cache K V} {t t' : HT K V}

/-- The slots before `i` are empty, the others as in `t`. -/
structure Passed (t t' : HT K V) (i : Nat) : Prop where
  cap : t'.cap = t.cap
  empty : ∀ q, q < i → (t'.entry q).hash = 0
  rest : ∀ q, i ≤ q → t'.entry q = t.entry q

/-- Every entry from slot `i` on is at home. -/
def AtHome (t : HT K V) (i : Nat) : Prop :=
  ∀ q, i ≤ q → q < t.cap → (t.entry q).hash ≠ 0 → t.probeCount q (t.entry q).hash = 0

theorem rank_le_one_iff {q : Nat} (hq : q < t.cap) :
    t.rank q ≤ 1 ↔ ((t.entry q).hash ≠ 0 → t.probeCount q (t.entry q).hash = 0) := by
  simp only [rank, rankOf, Nat.mod_eq_of_lt hq]
  by_cases h0 : (t.entry q).hash = 0
  · simp [h0]
  · simp [h0]

/-- With the next slot at rest, the slot after the visited ones is passed too. -/
theorem Passed.next {t1 : HT K V} {i : Nat} (p : Passed t t' i) (w : WF M t') (hi : i < t'.cap)
    (hdel : deleteIndex t' i = some t1) (hcap : t1.cap = t'.cap) (hr : t'.rank (i + 1) ≤ 1) : Passed t t1 (i + 1) := by
  obtain ⟨hempty, hrest⟩ := (deleteIndex_slots w hi hdel).1 hr
  refine ⟨hcap.trans p.cap, fun q hq => ?_, fun q hq => ?_⟩
  · rcases Nat.lt_or_ge q i with hlt | hge
    · rw [hrest q (by omega)]; exact p.empty q hlt
    · have : q = i := by omega
      rw [this]; exact hempty
  · rw [hrest q (by omega)]; exact p.rest q (by omega)

/-- The rank behind the visited slot: the next slot's, or, at the end of the table, that of the emptied
    slot 0. -/
theorem Passed.rank_next {i : Nat} (p : Passed t t' i) (w : WF M t') (hi : i < t'.cap) :
    t'.rank (i + 1) ≤ 1 ↔ (i + 1 < t.cap → t.rank (i + 1) ≤ 1) := by
  rcases Nat.lt_or_ge (i + 1) t.cap with hlt | hge
  · have hrank : t'.rank (i + 1) = t.rank (i + 1) := by
      simp only [rank, rankOf, probeCount, p.cap, Nat.mod_eq_of_lt hlt, p.rest (i + 1) (by omega)]
    rw [hrank]
    exact ⟨fun h _ => h, fun h => h hlt⟩
  · have hcap := p.cap
    have hlast : i + 1 = 0 + t'.cap := by omega
    have h0 : t'.rank (i + 1) = t'.rank 0 := by rw [hlast, rank_periodic]
    refine ⟨fun _ h => absurd h (by omega), fun _ => ?_⟩
    rw [h0]
    rcases Nat.eq_zero_or_pos i with hz | hpos
    · -- a table of one slot
      have := w.layout.le_cap 0
      omega
    · have hent := p.empty 0 hpos
      rw [rank_eq_zero.2 (by rw [Nat.zero_mod]; exact hent)]
      exact Nat.zero_le _

/-- Once a visited slot is occupied, one always is. -/
theorem clearLoop_occupied (set : Bool) : ∀ (n : Nat) {t t' : HT K V} {i : Nat} {handed : List (Handed K V)},
    WF M t → i + n = t.cap → (∃ q, q < i ∧ (t.entry q).hash ≠ 0) → clearLoop set n t i = .ok (t', handed) →
    ∃ q, q < t'.cap ∧ (t'.entry q).hash ≠ 0
  | 0, t, t', i, handed, _, hi, ⟨q, hq, hocc⟩, h => by
    simp only [clearLoop, Except.ok.injEq, Prod.mk.injEq] at h
    obtain ⟨rfl, _⟩ := h
    exact ⟨q, by omega, hocc⟩
  | n + 1, t, t', i, handed, w, hi, ⟨q, hq, hocc⟩, h => by
    by_cases h0 : (t.entry i).hash = 0
    · rw [clearLoop, if_pos h0] at h
      exact clearLoop_occupied set n w (by omega) ⟨q, by omega, hocc⟩ h
    · have hic : i < t.cap := by omega
      obtain ⟨t1, hdel, hs1, w1, _⟩ := deleteIndex_spec w hic h0
      have hcap : t1.cap = t.cap := by rw [hs1]
      obtain ⟨hstill, hpulled⟩ := deleteIndex_slots w hic hdel
      have hocc1 : ∃ q, q < i + 1 ∧ (t1.entry q).hash ≠ 0 := by
        rcases Nat.lt_or_ge (t.rank (i + 1)) 2 with hr | hr
        · exact ⟨q, by omega, by rw [(hstill (by omega)).2 q (by omega)]; exact hocc⟩
        · exact ⟨i, by omega, hpulled hr⟩
      cases hloop : clearLoop set n t1 (i + 1) with
      | error f => simp [clearLoop, h0, hdel, returns, bind, Except.bind, hloop] at h
      | ok r =>
        simp only [clearLoop, h0, if_false, hdel, returns, bind, Except.bind, hloop, pure, Except.pure, Except.ok.injEq,
          Prod.mk.injEq] at h
        rw [← h.1]
        exact clearLoop_occupied set n w1 (by omega) hocc1 hloop

/-- An entry that is at home takes nothing from the rest. -/
theorem atHome_succ {i : Nat} (h : i + 1 < t.cap → t.rank (i + 1) ≤ 1) : AtHome t (i + 1 + 1) ↔ AtHome t (i + 1) := by
  constructor
  · intro hh q hq hqc
    rcases Nat.lt_or_ge (i + 1) q with hlt | hge
    · exact hh q hlt hqc
    · have hq1 : q = i + 1 := by omega
      subst hq1
      exact (rank_le_one_iff hqc).1 (h hqc)
  · intro hh q hq hqc
    exact hh q (by omega) hqc

theorem Passed.next_empty {u : HT K V} {i : Nat} (p : Passed t u i) (h0 : (u.entry i).hash = 0) : Passed t u (i + 1) := by
  refine ⟨p.cap, fun q hq => ?_, fun q hq => p.rest q (by omega)⟩
  rcases Nat.lt_or_ge q i with hlt | hge
  · exact p.empty q hlt
  · have heq : q = i := by omega
    rw [heq]
    exact h0

/-- **The loop of `A3_CACHE_CLEAR`** empties the table iff what it has not passed yet, but for the slot it is
    at, is at home. -/
theorem clearLoop_empties_iff (set : Bool) : ∀ (n : Nat) {t u t' : HT K V} {i : Nat} {handed : List (Handed K V)},
    WF M u → WF M t → Passed t u i → i + n = u.cap → clearLoop set n u i = .ok (t', handed) →
    ((∀ q, q < t'.cap → (t'.entry q).hash = 0) ↔ AtHome t (i + 1))
  | 0, t, u, t', i, handed, wu, w, p, hi, h => by
    simp only [clearLoop, Except.ok.injEq, Prod.mk.injEq] at h
    obtain ⟨rfl, _⟩ := h
    have hcap := p.cap
    exact ⟨fun _ q hq hqc => by omega, fun _ q hq => p.empty q (by omega)⟩
  | n + 1, t, u, t', i, handed, wu, w, p, hi, h => by
    have hic : i < u.cap := by omega
    have hcap := p.cap
    by_cases h0 : (u.entry i).hash = 0
    · -- an empty slot: the next entry, if any, is at home
      rw [clearLoop, if_pos h0] at h
      rw [clearLoop_empties_iff set n wu w (p.next_empty h0) (by omega) h]
      refine atHome_succ fun hlt => ?_
      have hstep := w.layout.step i
      have hti : t.rank i = 0 := rank_eq_zero.2 (by
        rw [Nat.mod_eq_of_lt (by omega), ← p.rest i (Nat.le_refl i)]; exact h0)
      omega
    · obtain ⟨t1, hdel, hs1, w1, _⟩ := deleteIndex_spec wu hic h0
      have hcap1 : t1.cap = u.cap := by rw [hs1]
      obtain ⟨r, hloop⟩ : ∃ r, clearLoop set n t1 (i + 1) = .ok r := by
        cases hloop : clearLoop set n t1 (i + 1) with
        | error f => simp [clearLoop, h0, hdel, returns, bind, Except.bind, hloop] at h
        | ok r => exact ⟨r, rfl⟩
      simp only [clearLoop, h0, if_false, hdel, returns, bind, Except.bind, hloop, pure, Except.pure, Except.ok.injEq,
        Prod.mk.injEq] at h
      obtain ⟨rfl, _⟩ := h
      rcases Nat.lt_or_ge (u.rank (i + 1)) 2 with hr | hr
      · have hr1 : u.rank (i + 1) ≤ 1 := by omega
        have p' := p.next wu hic hdel hcap1 hr1
        rw [clearLoop_empties_iff set n w1 w p' (by omega) hloop]
        exact atHome_succ ((p.rank_next wu hic).1 hr1)
      · -- an entry is pulled back into the visited slot
        have hocc := (deleteIndex_slots wu hic hdel).2 hr
        obtain ⟨q, hq, hqo⟩ := clearLoop_occupied set n w1 (by omega) ⟨i, by omega, hocc⟩ hloop
        refine ⟨fun hall => absurd (hall q hq) hqo, fun hh => ?_⟩
        have : u.rank (i + 1) ≤ 1 := (p.rank_next wu hic).2 fun hlt =>
          (rank_le_one_iff hlt).2 (hh (i + 1) (Nat.le_refl _) hlt)
        omega

/-! ## From `A3_CACHE_INIT` -/

/-- What one would expect CLEAR to do. -/
structure Emptied (M : Methods K) (c c' : Cache K V) (handed : List (Handed K V)) : Prop where
  slots : ∀ q, q < c'.table.cap → (c'.table.entry q).hash = 0
  size : c'.table.size = 0
  not_found : ∀ key, ∃ c'', find M c' key = .ok (c'', none)
  handed_over : c.evictionCallback = true → (handed.map Handed.pair).Perm (c.table.live.map pair)

theorem clear_loop {c' : Cache K V} {handed : List (Handed K V)} (h : clear c = .ok (c', handed)) :
    clearLoop c.evictionCallback c.table.cap c.table 0 = .ok (c'.table, handed) := by
  unfold clear at h
  cases hloop : clearLoop c.evictionCallback c.table.cap c.table 0 with
  | error f => simp [hloop, bind, Except.bind] at h
  | ok r =>
    simp only [hloop, bind, Except.bind, resetAccessed] at h
    split at h
    · cases h
    · rename_i c1 hc1
      split at hc1
      · simp only [Except.ok.injEq] at hc1
        simp only [pure, Except.pure, Except.ok.injEq, Prod.mk.injEq] at h
        rw [← h.1, ← hc1, ← h.2]
      · cases hc1

theorem live_eq_nil (w : WF M t) (h : ∀ q, q < t.cap → (t.entry q).hash = 0) : t.live = [] := by
  rw [List.eq_nil_iff_forall_not_mem]
  intro e he
  obtain ⟨h0, i, hi, rfl⟩ := mem_live.1 he
  exact h0 (h i (by rw [← w.len]; exact hi))

theorem clear_emptied_iff (s : Sound M c) : ∃ c' handed, clear c = .ok (c', handed) ∧
    (Emptied M c c' handed ↔ AtHome c.table 1 ∧ c.table.size = c.table.live.length) := by
  obtain ⟨c', handed, removed, hok, s', _, hcb, hs, hperm, hho⟩ := clear_spec s
  have hsize : c'.table.size = c.table.size - removed.length := by rw [hs]
  have hlen := hperm.length_eq
  have hge := s.size_ge
  rw [List.length_append] at hlen
  have hiff := clearLoop_empties_iff c.evictionCallback c.table.cap (i := 0) s.wf s.wf
    ⟨rfl, fun _ h => absurd h (Nat.not_lt_zero _), fun _ _ => rfl⟩ (by omega) (clear_loop hok)
  refine ⟨c', handed, hok, fun hE => ?_, fun ⟨hhome, hcount⟩ => ?_⟩
  · have hnil := live_eq_nil s'.wf hE.slots
    have hzero := hE.size
    rw [hnil] at hlen
    simp only [List.length_nil] at hlen
    exact ⟨hiff.1 hE.slots, by omega⟩
  · have hslots := hiff.2 hhome
    have hnil := live_eq_nil s'.wf hslots
    rw [hnil] at hlen hperm
    simp only [List.length_nil] at hlen
    rw [List.append_nil] at hperm
    refine ⟨hslots, by omega, fun key => ?_, fun hset => ?_⟩
    · obtain ⟨blocks, hfind, _⟩ := find_spec s' key
      have hnone : bindings M c'.table key = none := by rw [bindings, hnil]; rfl
      exact ⟨_, by rw [hfind, hnone]⟩
    · rw [hset] at hho
      rw [hho.pairs]
      exact (hperm.map pair).symm

/-- **CLEAR empties the cache iff every entry from slot 1 on is in its home slot**, and `size` is right. -/
theorem clear_empties_iff (M : Methods K) (rand : Nat → UInt8) {capacity : Nat} (cb : Bool)
    (hcap : M.initialCap < capacity) (hdvd : entriesPerBlock ∣ capacity) :
    ∃ c0 : Cache K V, init M rand capacity cb = .ok c0 ∧
      ∀ (l : List (Call K V)) (c : Cache K V), Run (Step M) c0 l c → ∃ c' handed, clear c = .ok (c', handed) ∧
        (Emptied M c c' handed ↔ AtHome c.table 1 ∧ c.table.size = c.table.live.length) := by
  obtain ⟨c0, hinit, s0, _⟩ := init_sound (V := V) M rand cb hcap hdvd
  exact ⟨c0, hinit, fun l c h => clear_emptied_iff (run_sound h s0).1⟩

theorem clear_empties_iff_64 : ∃ c0 c : Cache Nat Nat, init numbersInTwo (fun _ => 0) 64 true = .ok c0 ∧
    Run (Step numbersInTwo) c0 fewCalls c ∧ ∃ c' handed, clear c = .ok (c', handed) ∧
      (Emptied numbersInTwo c c' handed ↔ AtHome c.table 1 ∧ c.table.size = c.table.live.length) := by
  obtain ⟨c0, hinit, hruns⟩ : ∃ c0 : Cache Nat Nat, init numbersInTwo (fun _ => 0) 64 true = .ok c0 ∧ _ :=
    clear_empties_iff numbersInTwo (fun _ => 0) true (by decide) (by decide)
  obtain rfl : cacheOf64 true 0#64 0 (List.replicate 64 default) = c0 := Except.ok.inj (few_run.1.symm.trans hinit)
  have hrun := few_run.2.mono fun _ _ _ h => h.2
  exact ⟨_, _, hinit, hrun, hruns _ _ hrun⟩

/-- Two colliding keys in a cache of 64 slots: after CLEAR the second is still there, and was not handed
    over. -/
theorem clear_misses_collision : ∃ c0 c1 c2 c3 : Cache Nat Nat, ∃ handed,
    init numbersInTwo (fun _ => 0) 64 true = .ok c0 ∧
    Run (Step numbersInTwo) c0 [⟨.insert 1 10, none, []⟩, ⟨.insert 65 650, none, []⟩] c1 ∧
    clear c1 = .ok (c2, handed) ∧ handed.map Handed.pair = [(1, 10)] ∧ c2.table.size = 1 ∧
    find numbersInTwo c2 65 = .ok (c3, some 650) := by
  have h1 : Step numbersInTwo (cacheOf64 true 0#64 0 (List.replicate 64 default)) ⟨.insert 1 10, none, []⟩
      (cacheOf64 true 2#64 1 ((List.replicate 64 default).set 1 ⟨1, 10, 1⟩)) := rfl
  have h2 : Step numbersInTwo (cacheOf64 true 2#64 1 ((List.replicate 64 default).set 1 ⟨1, 10, 1⟩))
      ⟨.insert 65 650, none, []⟩
      (cacheOf64 true 6#64 2 (((List.replicate 64 default).set 1 ⟨1, 10, 1⟩).set 2 ⟨65, 650, 65⟩)) := rfl
  exact ⟨_, _, cacheOf64 true 0#64 1 (((List.replicate 64 default).set 1 ⟨65, 650, 65⟩).set 2 ⟨65, 650, 0⟩),
    cacheOf64 true 2#64 1 (((List.replicate 64 default).set 1 ⟨65, 650, 65⟩).set 2 ⟨65, 650, 0⟩),
    callback true (cacheOf64 true 6#64 2 (((List.replicate 64 default).set 1 ⟨1, 10, 1⟩).set 2 ⟨65, 650, 65⟩)).table 1,
    rfl, .cons h1 (Run.single h2), rfl, rfl, rfl, rfl⟩

end A3Cache
