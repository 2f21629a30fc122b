import LibA3.Ht.Invariant
import Mathlib.Data.List.Pairwise

/-!
# Lookup and iteration: `A3_HT_FIND_INDEX`, `A3_HT_FIND`, `A3_HT_FOR_EACH`

The loop stops at a slot whose rank is at most the probe count: empty, or held by an entry closer to its
home than the probe is. On the way to a stored key that never happens (`RobinHood.Layout.reach`); for an
absent key it happens after at most a lap, whether or not there is an empty slot, because no rank exceeds
`cap`. So `find` decides membership: `findIndex_present`, `findIndex_absent`.
-/

namespace A3Ht

open HT

variable {K V : Type} {M : Methods K}

/-! ## What a table binds -/

/-- The value of the entry of `l` whose key equals `k`. -/
def lookup (M : Methods K) (l : List (Entry K V)) (k : K) : Option V :=
  (l.find? fun e => M.C k e.key = 0).map Entry.value

/-- The value stored for a key equal to `k`. -/
def bindings (M : Methods K) (t : HT K V) (k : K) : Option V := lookup M t.live k

theorem lookup_cons (e : Entry K V) (l : List (Entry K V)) (k : K) :
    lookup M (e :: l) k = if M.C k e.key = 0 then some e.value else lookup M l k := by
  simp only [lookup, List.find?_cons]
  by_cases h : M.C k e.key = 0 <;> simp [h]

theorem lookup_eq_none {l : List (Entry K V)} {k : K} : lookup M l k = none ↔ ∀ e ∈ l, M.C k e.key ≠ 0 := by
  simp [lookup, List.find?_eq_none]

theorem lookup_isSome {l : List (Entry K V)} {k : K} : (lookup M l k).isSome = true ↔ ∃ e ∈ l, M.C k e.key = 0 := by
  simp [lookup]

theorem lookup_of_mem {l : List (Entry K V)} (hkeys : l.Pairwise fun a b => M.C a.key b.key ≠ 0) {e : Entry K V}
    (he : e ∈ l) {k : K} (hk : M.C k e.key = 0) : lookup M l k = some e.value := by
  unfold lookup
  cases hf : l.find? (fun e => M.C k e.key = 0) with
  | none => exact absurd hk (by simpa using List.find?_eq_none.1 hf e he)
  | some a =>
    have ha := List.mem_of_find?_eq_some hf
    have hka : M.C k a.key = 0 := by simpa using List.find?_some hf
    -- equal keys are stored once
    have hae : a = e := by
      by_contra hne
      exact hkeys.forall ha he hne (C_trans (C_comm.1 hka) hk)
    rw [hae]; rfl

theorem lookup_eq_some {l : List (Entry K V)} (hkeys : l.Pairwise fun a b => M.C a.key b.key ≠ 0) {k : K} {v : V} :
    lookup M l k = some v ↔ ∃ e ∈ l, M.C k e.key = 0 ∧ e.value = v := by
  constructor
  · intro h
    obtain ⟨e, hf, hv⟩ := Option.map_eq_some_iff.1 h
    exact ⟨e, List.mem_of_find?_eq_some hf, by simpa using List.find?_some hf, hv⟩
  · rintro ⟨e, he, hk, rfl⟩; exact lookup_of_mem hkeys he hk

/-- The order of the entries does not matter. -/
theorem lookup_perm {l l' : List (Entry K V)} (hkeys : l.Pairwise fun a b => M.C a.key b.key ≠ 0) (h : l.Perm l')
    (k : K) : lookup M l k = lookup M l' k := by
  cases hl : lookup M l k with
  | none =>
    refine (lookup_eq_none.2 fun e he => ?_).symm
    exact lookup_eq_none.1 hl e (h.mem_iff.2 he)
  | some v =>
    obtain ⟨e, he, hk, rfl⟩ := (lookup_eq_some hkeys).1 hl
    exact (lookup_of_mem (keys_perm h hkeys) (h.mem_iff.1 he) hk).symm

/-- Equal keys have the same value. -/
theorem lookup_congr (l : List (Entry K V)) {k k' : K} (h : M.C k k' = 0) : lookup M l k = lookup M l k' := by
  have hiff : ∀ e : Entry K V, (M.C k e.key = 0) = (M.C k' e.key = 0) := fun e =>
    propext ⟨fun he => C_trans (C_comm.1 h) he, fun he => C_trans h he⟩
  simp only [lookup, hiff]

/-- At most one entry has a given key, and `lookup` finds it. -/
theorem filter_key_eq {l : List (Entry K V)} (hkeys : l.Pairwise fun a b => M.C a.key b.key ≠ 0) (k : K) :
    (l.filter fun e => M.C k e.key = 0).map Entry.value = (lookup M l k).toList := by
  induction l with
  | nil => rfl
  | cons e l ih =>
    obtain ⟨hne, hl⟩ := List.pairwise_cons.1 hkeys
    rw [lookup_cons]
    by_cases hk : M.C k e.key = 0
    · have hnone : lookup M l k = none := lookup_eq_none.2 fun a ha hka => hne a ha (C_trans (C_comm.1 hk) hka)
      have := ih hl
      rw [hnone] at this
      simpa [hk] using this
    · simpa [hk] using ih hl

/-! ## Probing -/

/-- The slots of a probe sequence are visited by stepping round the ring. -/
theorem succ_pos_mod (t : HT K V) (p : Nat) : (p % t.cap + 1) % t.cap = (p + 1) % t.cap := Nat.mod_add_mod _ _ _

variable [Inhabited K] [Inhabited V]

/-- The two stop conditions of the probe loops are one on ranks. -/
theorem stop_iff (t : HT K V) (p m : Nat) :
    ((t.entry (p % t.cap)).hash = 0 ∨ t.probeCount (p % t.cap) (t.entry (p % t.cap)).hash < m) ↔ t.rank p ≤ m := by
  unfold rank rankOf
  by_cases h : (t.entry (p % t.cap)).hash = 0
  · simp [h]
  · simp only [h, false_or, if_false]; omega

/-- A stored entry sits at some probe distance from the home its hash gives it. -/
theorem WF.probe_of_mem {t : HT K V} (w : WF M t) {e : Entry K V} (he : e ∈ t.live) :
    ∃ d, d < t.cap ∧ t.entry ((e.hash % t.cap + d) % t.cap) = e ∧ t.rank (e.hash % t.cap + d) = d + 1 := by
  obtain ⟨h0, i, hi, rfl⟩ := mem_live.1 he
  have hi' : i % t.cap = i := Nat.mod_eq_of_lt (by rw [← w.len]; exact hi)
  have hd := probeCount_lt w.cap_pos (i % t.cap) (t.entry i).hash
  have hpos := home_add_probeCount w.cap_pos i (t.entry i).hash
  refine ⟨_, hd, by rw [hpos, hi'], ?_⟩
  have hent : t.entry (((t.entry i).hash % t.cap + t.probeCount (i % t.cap) (t.entry i).hash) % t.cap) = t.entry i := by
    rw [hpos, hi']
  rw [rank, hent]
  exact rankOf_eq h0 hd rfl

/-- A stored entry whose key equals `key` has the hash of `key`. -/
theorem WF.hash_of_mem {t : HT K V} (w : WF M t) {e : Entry K V} (he : e ∈ t.live) {key : K}
    (hk : M.C key e.key = 0) : e.hash = hash M t key := by
  rw [w.hashes e he]; exact (hash_congr hk t).symm

theorem slot_lt {t : HT K V} (w : WF M t) (p : Nat) : p % t.cap < t.entries.length := by
  rw [w.len]; exact Nat.mod_lt _ w.cap_pos

/-- Before the slot of a stored key, the probe sequence meets neither a stop nor an equal key. -/
theorem WF.path {t : HT K V} (w : WF M t) {h d m : Nat} (hd : d < t.cap) (hrank : t.rank (h + d) = d + 1)
    {key : K} (hk : M.C key (t.entry ((h + d) % t.cap)).key = 0) (hm : m < d) :
    m < t.rank (h + m) ∧ M.C key (t.entry ((h + m) % t.cap)).key ≠ 0 := by
  have hopen : m < t.rank (h + m) := w.layout.reach hrank (Nat.le_of_lt hm)
  refine ⟨hopen, fun hkm => ?_⟩
  have hom : (t.entry ((h + m) % t.cap)).hash ≠ 0 := fun h0 => by rw [rank_eq_zero.2 h0] at hopen; omega
  have hod : (t.entry ((h + d) % t.cap)).hash ≠ 0 := fun h0 => by rw [rank_eq_zero.2 h0] at hrank; omega
  have heq := w.slot_unique (Nat.mod_lt _ w.cap_pos) (Nat.mod_lt _ w.cap_pos) hom hod (C_trans (C_comm.1 hkm) hk)
  have := RobinHood.offset_inj (by omega) hd heq
  omega

theorem findIndexLoop_present {t : HT K V} (w : WF M t) {h d : Nat} (hd : d < t.cap) {key : K} {hash : Nat}
    (hrank : t.rank (h + d) = d + 1) (hk : M.C key (t.entry ((h + d) % t.cap)).key = 0)
    (hh : (t.entry ((h + d) % t.cap)).hash = hash) :
    ∀ (fuel m : Nat), m ≤ d → d < fuel + m →
      findIndexLoop M fuel t ((h + m) % t.cap) m hash key = some (some ((h + d) % t.cap))
  | 0, m, hm, hf => by omega
  | fuel + 1, m, hm, hf => by
    simp only [findIndexLoop]
    rcases Nat.lt_or_ge m d with hlt | hge
    · obtain ⟨hopen, hne⟩ := w.path hd hrank hk hlt
      rw [if_neg (by rw [stop_iff]; omega), if_neg (fun hc => hne hc.2), succ_pos_mod, Nat.add_assoc]
      exact findIndexLoop_present w hd hrank hk hh fuel (m + 1) hlt (by omega)
    · have : m = d := by omega
      subst this
      rw [if_neg (by rw [stop_iff]; omega), if_pos ⟨hh.symm, hk⟩]

theorem findIndexLoop_absent {t : HT K V} (w : WF M t) (h : Nat) {key : K} (hash : Nat)
    (habs : ∀ e ∈ t.live, M.C key e.key ≠ 0) :
    ∀ (fuel m : Nat), t.cap < fuel + m → findIndexLoop M fuel t ((h + m) % t.cap) m hash key = some none ∨ t.cap < m
  | 0, m, hf => Or.inr (by omega)
  | fuel + 1, m, hf => by
    simp only [findIndexLoop]
    by_cases hstop : t.rank (h + m) ≤ m
    · rw [if_pos ((stop_iff t _ _).2 hstop)]; exact Or.inl rfl
    · have hocc : (t.entry ((h + m) % t.cap)).hash ≠ 0 := fun h0 => hstop (by rw [rank_eq_zero.2 h0]; omega)
      have hne := habs _ (entry_mem_live (slot_lt w _) hocc)
      rw [if_neg (fun hc => hstop ((stop_iff t _ _).1 hc)), if_neg (fun hc => hne hc.2), succ_pos_mod, Nat.add_assoc]
      have hcap := w.layout.le_cap (h + m)
      rcases findIndexLoop_absent w h hash habs fuel (m + 1) (by omega) with hr | hr
      · exact Or.inl hr
      · omega

/-- **`A3_HT_FIND_INDEX` (`ht.h:294`)** on a stored key: the index of its slot. -/
theorem findIndex_present {t : HT K V} (w : WF M t) {e : Entry K V} (he : e ∈ t.live) {key : K}
    (hk : M.C key e.key = 0) : ∃ i, findIndex M t key = some (some i) ∧ i < t.cap ∧ t.entry i = e := by
  obtain ⟨d, hd, hent, hrank⟩ := w.probe_of_mem he
  have hh := w.hash_of_mem he hk
  rw [hh] at hent hrank
  refine ⟨(hash M t key % t.cap + d) % t.cap, ?_, Nat.mod_lt _ w.cap_pos, hent⟩
  have hk' : M.C key (t.entry ((hash M t key % t.cap + d) % t.cap)).key = 0 := by rw [hent]; exact hk
  have hh' : (t.entry ((hash M t key % t.cap + d) % t.cap)).hash = hash M t key := by rw [hent]; exact hh
  have := findIndexLoop_present w hd hrank hk' hh' (t.cap + 1) 0 (Nat.zero_le _) (by omega)
  simpa only [findIndex, Nat.add_zero, Nat.mod_mod] using this

/-- **`A3_HT_FIND_INDEX`** on any other key: `-1`. -/
theorem findIndex_absent {t : HT K V} (w : WF M t) {key : K} (habs : ∀ e ∈ t.live, M.C key e.key ≠ 0) :
    findIndex M t key = some none := by
  rcases findIndexLoop_absent w (hash M t key % t.cap) (hash M t key) habs (t.cap + 1) 0 (by omega) with h | h
  · simpa only [findIndex, Nat.add_zero, Nat.mod_mod] using h
  · omega

/-- **`A3_HT_FIND` (`ht.h:369`)** returns the bound value, `NULL` if there is none. -/
theorem find_spec {t : HT K V} (w : WF M t) (key : K) : find M t key = some (bindings M t key) := by
  unfold find findEntry
  cases hb : bindings M t key with
  | none => rw [findIndex_absent w (lookup_eq_none.1 hb)]; rfl
  | some v =>
    obtain ⟨e, he, hk, rfl⟩ := (lookup_eq_some w.keys).1 hb
    obtain ⟨i, hfi, _, hi⟩ := findIndex_present w he hk
    rw [hfi, ← hi]; rfl

/-! ## Iteration -/

/-- From slot `index` on, the loop visits the occupied slots of the rest of the table. -/
theorem forEachLoop_eq {t : HT K V} (hlen : t.entries.length = t.cap) : ∀ (n fuel index : Nat), index + n = t.cap →
    n < fuel → forEachLoop t fuel (nextEntryLoop t n index) = (t.entries.drop index).filter fun e => e.hash ≠ 0
  | 0, fuel, index, hn, hf => by
    rw [List.drop_of_length_le (by omega)]
    cases fuel <;> rfl
  | n + 1, fuel, index, hn, hf => by
    have hi : index < t.entries.length := by omega
    rw [List.drop_eq_getElem_cons hi, ← entry_eq_getElem t hi]
    simp only [nextEntryLoop]
    by_cases h0 : (t.entry index).hash = 0
    · have ih := forEachLoop_eq hlen n fuel (index + 1) (by omega) (by omega)
      simpa [h0] using ih
    · cases fuel with
      | zero => omega
      | succ fuel =>
        have ih := forEachLoop_eq hlen n fuel (index + 1) (by omega) (by omega)
        have hnext : nextEntry t (index + 1) = nextEntryLoop t n (index + 1) := by
          rw [nextEntry]; congr 1; omega
        have hic : index < t.cap := by omega
        simp only [ne_eq, h0, not_false_eq_true, if_true, forEachLoop, hic, hnext, ih, decide_true, List.filter_cons]

/-- **`A3_HT_FOR_EACH` (`ht.h:427`)** visits every stored entry once, in slot order. -/
theorem forEach_eq_live {t : HT K V} (hlen : t.entries.length = t.cap) : forEach t = t.live := by
  have := forEachLoop_eq hlen (t.cap - 0) (t.cap + 1) 0 (by omega) (by omega)
  rwa [List.drop_zero] at this

end A3Ht
