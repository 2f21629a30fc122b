import LibA3.Cache.Fresh

/-!
# Evictions in a row

`A3_CACHE_EVICT` (`cache.h:136`) needs a stored entry whose bit is clear, and clears all bits at its end. So once it has
found a victim it finds one for as long as there are entries, and emptying a cache takes as many calls as it has entries.
-/

namespace A3Cache

open A3Ht Fallible HT Trans

variable {K V : Type} [Inhabited K] [Inhabited V] {M : Methods K} {c c' : Cache K V} {n : Nat}

/-- `n` calls of `A3_CACHE_EVICT`, and the entries they hand over. -/
def evicts : Nat → Cache K V → Except Fault (Cache K V × List (Handed K V))
  | 0, c => .ok (c, [])
  | n + 1, c => do
    let (c, first) ← evict c
    let (c, others) ← evicts n c
    return (c, first ++ others)

/-- An entry is stored in a slot whose bit is clear. -/
def Evictable (c : Cache K V) : Prop := ∃ i < c.table.cap, (c.table.entry i).hash ≠ 0 ∧ accessed c i = .ok false

/-! ## One eviction -/

theorem victim_isSome_iff (s : Sound M c) : (victim c).isSome = true ↔ Evictable c := by
  constructor
  · intro h
    obtain ⟨i, hi⟩ := Option.isSome_iff_exists.1 h
    obtain ⟨hlt, hbit, hocc⟩ := victim_spec hi
    exact ⟨i, hlt, hocc, by rw [accessed_eq (s.block_lt hlt), hbit]⟩
  · rintro ⟨i, hlt, hocc, hacc⟩
    rw [accessed_eq (s.block_lt hlt)] at hacc
    obtain ⟨j, hj⟩ := victim_exists hlt (Except.ok.inj hacc) hocc
    rw [hj]
    rfl

/-- With all bits clear any entry will do. -/
theorem evictable_of_clear (hclear : AllClear c) (hwf : WF M c.table) (h : c.table.live ≠ []) : Evictable c := by
  obtain ⟨e, he⟩ := List.exists_mem_of_ne_nil _ h
  obtain ⟨hocc, i, hi, rfl⟩ := mem_live.1 he
  rw [hwf.len] at hi
  exact ⟨i, hi, hocc, hclear i hi⟩

theorem evictable_of_full (s : Sound M c) (hfull : c.table.live.length = c.table.cap) : Evictable c := by
  rw [← victim_isSome_iff s]
  obtain ⟨i, hi⟩ := victim_of_full s.bitmap s.aligned s.wf.cap_pos fun i hi => occupied_of_full s.wf hfull hi
  rw [hi]
  rfl

/-! ## Evictions in a row -/

/-- What `n` evictions do to a cache. -/
structure Evicted (c : Cache K V) (n : Nat) (c' : Cache K V) (handed : List (Handed K V)) : Prop where
  removed : ∃ removed : List (Entry K V), removed.length = n ∧ c.table.live.Perm (removed ++ c'.table.live) ∧
    HandsOver c.evictionCallback handed removed
  clear : 0 < n → AllClear c'

omit [Inhabited K] [Inhabited V] in
theorem evicts_zero (c : Cache K V) : Evicted c 0 c [] where
  removed := ⟨[], rfl, .refl _, handsOver_nil _⟩
  clear := fun h => absurd h (Nat.lt_irrefl 0)

/-- While there are entries left, each eviction finds the next victim. -/
theorem evicts_ok (s : Sound M c) (hle : n ≤ c.table.live.length) (h : n = 0 ∨ Evictable c) :
    ∃ c' handed, evicts n c = .ok (c', handed) ∧ Sound M c' ∧ Evicted c n c' handed := by
  induction n generalizing c with
  | zero => exact ⟨c, [], rfl, s, evicts_zero c⟩
  | succ n ih =>
    have hsome := (victim_isSome_iff s).2 (h.resolve_left (Nat.succ_ne_zero n))
    obtain ⟨i, hi⟩ := Option.isSome_iff_exists.1 hsome
    obtain ⟨hlt, _, hocc⟩ := victim_spec hi
    obtain ⟨c1, hev, s1, hcb1, hclear1, _, hperm1⟩ := evict_spec s hi
    have hlen := hperm1.length_eq
    rw [List.length_cons] at hlen
    have hnext : n = 0 ∨ Evictable c1 := by
      rcases Nat.eq_zero_or_pos n with hzero | hpos
      · exact Or.inl hzero
      · refine Or.inr (evictable_of_clear hclear1 s1.wf fun hnil => ?_)
        rw [hnil] at hlen
        simp only [List.length_nil] at hlen
        omega
    obtain ⟨c2, handed, hrest, s2, ⟨removed, hcount, hperm2, hho⟩, hclear2⟩ := ih s1 (by omega) hnext
    rw [hcb1] at hho
    refine ⟨c2, callback c.evictionCallback c.table i ++ handed, ?_, s2,
      ⟨c.table.entry i :: removed, by rw [List.length_cons, hcount], hperm1.trans (hperm2.cons _),
        hho.cons (by rw [s.wf.len]; exact hlt) hocc⟩, fun _ => ?_⟩
    · rw [evicts, hev, ok_bind]
      simp only [hrest, ok_bind, pure_ok]
    · rcases Nat.eq_zero_or_pos n with rfl | hpos
      · cases hrest
        exact hclear1
      · exact hclear2 hpos

/-- One call too many, or a first one that finds every entry accessed, ends in the panic. -/
theorem evicts_panic (s : Sound M c) (h : ¬(n ≤ c.table.live.length ∧ (n = 0 ∨ Evictable c))) :
    evicts n c = .error .unableToEvict := by
  induction n generalizing c with
  | zero => exact absurd ⟨Nat.zero_le _, Or.inl rfl⟩ h
  | succ n ih =>
    by_cases hev : Evictable c
    · obtain ⟨i, hi⟩ := Option.isSome_iff_exists.1 ((victim_isSome_iff s).2 hev)
      obtain ⟨c1, hevict, s1, _, _, _, hperm⟩ := evict_spec s hi
      have hlen := hperm.length_eq
      rw [List.length_cons] at hlen
      have hlong : ¬n ≤ c1.table.live.length := fun hle => h ⟨by omega, Or.inr hev⟩
      rw [evicts, hevict, ok_bind]
      simp only [ih s1 fun hn => hlong hn.1]
      rfl
    · have hnone : victim c = none := by
        rw [← Option.not_isSome_iff_eq_none, victim_isSome_iff s]
        exact hev
      rw [evicts, evict_none s hnone]
      rfl

/-- **What a row of evictions does.** In every cache that is reached, `n` calls of `A3_CACHE_EVICT` return if there are that
many entries and, for the first call, one of them in a slot whose bit is clear, as there is in a full cache; then they remove
`n` different entries and hand each of them over once, and the last one leaves all bits clear. Otherwise they end in the
panic. -/
theorem evicts_drain (M : Methods K) (rand : Nat → UInt8) {capacity : Nat} (cb : Bool) (hcap : M.initialCap < capacity)
    (hdvd : entriesPerBlock ∣ capacity) : ∃ c0 : Cache K V, init M rand capacity cb = .ok c0 ∧
      ∀ (l : List (Call K V)) (c : Cache K V) (n : Nat), Run (Step M) c0 l c →
        (n ≤ c.table.live.length ∧ (n = 0 ∨ Evictable c) →
          ∃ c' handed, evicts n c = .ok (c', handed) ∧ Evicted c n c' handed) ∧
        (¬(n ≤ c.table.live.length ∧ (n = 0 ∨ Evictable c)) → evicts n c = .error .unableToEvict) ∧
        (c.table.live.length = capacity → Evictable c) := by
  obtain ⟨c0, hinit, s0, hc0, _⟩ := init_sound (V := V) M rand cb hcap hdvd
  refine ⟨c0, hinit, fun l c n hrun => ?_⟩
  obtain ⟨s, hc, _⟩ := run_sound hrun s0
  refine ⟨?_, evicts_panic s, fun hfull => evictable_of_full s (hfull.trans (hc0.symm.trans hc.symm))⟩
  rintro ⟨hle, hfirst⟩
  obtain ⟨c', handed, hok, _, hev⟩ := evicts_ok s hle hfirst
  exact ⟨c', handed, hok, hev⟩

/-- The two entries stored go, and there is no third. -/
theorem evicts_drain_64 : ∃ c0 c : Cache Nat Nat, init numbersInTwo (fun _ => 0) 64 true = .ok c0 ∧
    Run (Step numbersInTwo) c0 fewCalls c ∧ (∃ c' handed, evicts 2 c = .ok (c', handed) ∧ Evicted c 2 c' handed) ∧
    evicts 3 c = .error .unableToEvict := by
  obtain ⟨c0, hinit, hruns⟩ : ∃ c0 : Cache Nat Nat, init numbersInTwo (fun _ => 0) 64 true = .ok c0 ∧ _ :=
    evicts_drain numbersInTwo (fun _ => 0) true (by decide) (by decide)
  obtain rfl : cacheOf64 true 0#64 0 (List.replicate 64 default) = c0 := Except.ok.inj (few_run.1.symm.trans hinit)
  have hrun := few_run.2.mono fun _ _ _ h => h.2
  have hlive : bothAtHome.table.live.length = 2 := rfl
  refine ⟨_, _, hinit, hrun, (hruns _ _ 2 hrun).1 ⟨Nat.le_of_eq hlive.symm, Or.inr ⟨1, by decide, by decide, rfl⟩⟩,
    (hruns _ _ 3 hrun).2.1 fun h => ?_⟩
  rw [hlive] at h
  exact absurd h.1 (by decide)

end A3Cache
