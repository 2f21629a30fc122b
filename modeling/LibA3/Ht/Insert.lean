import LibA3.Ht.Find

/-!
# Insertion: `A3_HT_INSERT_AT`

The loop carries an entry from slot to slot and puts it where the occupant is closer to its home; the
occupant is then carried on. `Carry` is the loop invariant: the table without the carried entry is in the
Robin Hood ordering at every iteration, the carried entry fits at the current slot as far as the slot
before it is concerned, and table and carried entry together hold no two equal keys. It is kept by passing
a slot (`Carry.next`), by trading the carried entry for the occupant (`Carry.swap`), and ends with the
entry placed in an empty slot (`Carry.place`).

A key that is already stored is met before any occupant is displaced (`insertAt_present`).
-/

namespace A3Ht

open HT

variable {K V : Type} [Inhabited K] [Inhabited V] {M : Methods K}

/-! ## Carrying an entry round the ring -/

/-- The loop of `A3_HT_INSERT_AT` at position `p`, `m` slots after the home of the entry `e` in hand. -/
structure Carry (M : Methods K) (t : HT K V) (p m : Nat) (e : Entry K V) : Prop where
  cap_pos : 0 < t.cap
  len : t.entries.length = t.cap
  layout : RobinHood.Layout t.cap t.rank
  hash_ne : e.hash ≠ 0
  home : (e.hash % t.cap + m) % t.cap = p % t.cap
  back : m ≤ t.rank (p + t.cap - 1)
  keys : (e :: t.live).Pairwise fun a b => M.C a.key b.key ≠ 0

variable {t : HT K V} {p m : Nat} {e : Entry K V}

theorem Carry.slot_lt (c : Carry M t p m e) : p % t.cap < t.entries.length := by
  rw [c.len]; exact Nat.mod_lt _ c.cap_pos

/-- As long as there is an empty slot, the entry has not been carried a full lap. -/
theorem Carry.lt_cap (c : Carry M t p m e) {q : Nat} (hq : (t.entry (q % t.cap)).hash = 0) : m < t.cap :=
  Nat.lt_of_le_of_lt c.back (c.layout.lt_of_empty c.cap_pos (rank_eq_zero.2 hq) _)

/-- The entry in hand is equal to nothing in the table. -/
theorem Carry.ne_current (c : Carry M t p m e) (hocc : (t.entry (p % t.cap)).hash ≠ 0) :
    M.C e.key (t.entry (p % t.cap)).key ≠ 0 :=
  (List.pairwise_cons.1 c.keys).1 _ (entry_mem_live c.slot_lt hocc)

/-- The slot holds an entry at least as far from home: carry on. -/
theorem Carry.next (c : Carry M t p m e) (hr : m < t.rank p) : Carry M t (p + 1) (m + 1) e where
  cap_pos := c.cap_pos
  len := c.len
  layout := c.layout
  hash_ne := c.hash_ne
  home := by rw [← Nat.add_assoc]; exact Nat.add_mod_eq_add_mod_right 1 c.home
  back := by
    have hp : p + 1 + t.cap - 1 = p + t.cap := by omega
    rw [hp, rank_periodic]; exact hr
  keys := c.keys

/-- Writing the entry in hand over an occupant closer to its home, or into an empty slot. -/
theorem Carry.layout_set (c : Carry M t p m e) (hm : m < t.cap) (hr : t.rank p ≤ m) :
    RobinHood.Layout t.cap (t.setEntry (p % t.cap) e).rank := by
  rw [rank_setEntry c.cap_pos c.len, rankOf_eq c.hash_ne hm c.home]
  have hback := c.back
  have hstep := c.layout.step p
  exact c.layout.put c.cap_pos (by omega) (by omega) (by omega)

theorem Carry.rank_set (c : Carry M t p m e) (hm : m < t.cap) : (t.setEntry (p % t.cap) e).rank p = m + 1 := by
  rw [rank_setEntry c.cap_pos c.len, RobinHood.put_self rfl, rankOf_eq c.hash_ne hm c.home]

theorem Carry.rank_set_ne (c : Carry M t p m e) {q : Nat} (hq : q % t.cap ≠ p % t.cap) :
    (t.setEntry (p % t.cap) e).rank q = t.rank q := by
  rw [rank_setEntry c.cap_pos c.len, RobinHood.put_ne hq]

/-- The slot holds an entry closer to its home: leave ours there and carry that one on. -/
theorem Carry.swap (c : Carry M t p m e) (hm : m < t.cap) (hocc : (t.entry (p % t.cap)).hash ≠ 0)
    (hr : t.rank p ≤ m) :
    Carry M (t.setEntry (p % t.cap) e) (p + 1)
      (t.probeCount (p % t.cap) (t.entry (p % t.cap)).hash + 1) (t.entry (p % t.cap)) where
  cap_pos := c.cap_pos
  len := by rw [length_setEntry]; exact c.len
  layout := c.layout_set hm hr
  hash_ne := hocc
  home := by
    rw [← Nat.add_assoc]
    exact Nat.add_mod_eq_add_mod_right 1 (home_add_probeCount c.cap_pos p _)
  back := by
    have hp : p + 1 + t.cap - 1 = p + t.cap := by omega
    rw [rank, rankOf, if_neg hocc] at hr
    rw [cap_setEntry, hp]
    have := rank_periodic (t.setEntry (p % t.cap) e) p
    rw [cap_setEntry] at this
    rw [this, c.rank_set hm]; omega
  keys := by
    have hperm := live_setEntry_perm t c.slot_lt e
    rw [liveOne_of_ne c.hash_ne, liveOne_of_ne hocc] at hperm
    exact keys_perm hperm c.keys

/-- What a finished insertion leaves: the entry added, nothing else changed. `z` is any slot that was
    empty or had its occupant at home, and was not displaced. -/
structure Placed (t t' : HT K V) (e : Entry K V) (z : Nat) : Prop where
  same : SameBut t t'
  len : t'.entries.length = t'.cap
  layout : RobinHood.Layout t'.cap t'.rank
  perm : t'.live.Perm (e :: t.live)
  anchor : t'.rank z ≤ 1

/-- The slot is empty: the loop ends. -/
theorem Carry.place (c : Carry M t p m e) (hemp : (t.entry (p % t.cap)).hash = 0) {z : Nat} (hz : t.rank z ≤ 1)
    (hzp : z % t.cap = p % t.cap → m = 0) : Placed t (t.setEntry (p % t.cap) e) e z where
  same := SameBut.setEntry t _ e
  len := by rw [length_setEntry]; exact c.len
  layout := c.layout_set (c.lt_cap hemp) (by rw [rank_eq_zero.2 hemp]; exact Nat.zero_le _)
  perm := by
    have hperm := live_setEntry_perm t c.slot_lt e
    rw [liveOne_of_ne c.hash_ne, liveOne_of_eq hemp] at hperm
    exact hperm.symm
  anchor := by
    by_cases hz' : z % t.cap = p % t.cap
    · have hp : (t.setEntry (p % t.cap) e).rank z = (t.setEntry (p % t.cap) e).rank p := by
        have := RobinHood.periodic_congr (rank_periodic (t.setEntry (p % t.cap) e)) hz'
        exact this
      rw [hp, c.rank_set (c.lt_cap hemp), hzp hz']
    · rw [c.rank_set_ne hz']; exact hz

/-- The empty slot is ahead while the current one is occupied. -/
theorem empty_ahead {k : Nat} (hemp : (t.entry ((p + k) % t.cap)).hash = 0) (h0 : (t.entry (p % t.cap)).hash ≠ 0) :
    ∃ k', k = k' + 1 ∧ (t.entry ((p + 1 + k') % t.cap)).hash = 0 := by
  cases k with
  | zero => exact absurd hemp h0
  | succ k =>
    have hpk : p + (k + 1) = p + 1 + k := by omega
    exact ⟨k, rfl, by rw [← hpk]; exact hemp⟩

/-- **The loop of `A3_HT_INSERT_AT` (`ht.h:227`)** with a key that is not in the table: it ends at the
    first empty slot, `k` slots on at most, without displacing the occupant of `z`. -/
theorem insertAtLoop_absent : ∀ (k fuel : Nat) {t : HT K V} {p m : Nat} {e : Entry K V} {z : Nat},
    Carry M t p m e → k < fuel → k < t.cap → (t.entry ((p + k) % t.cap)).hash = 0 → t.rank z ≤ 1 →
    (∀ j, j ≤ k → z % t.cap = (p + j) % t.cap → j = 0 ∧ m = 0) →
    ∃ t', insertAtLoop M fuel t (p % t.cap) m e = some (t', true) ∧ Placed t t' e z
  | k, 0, _, _, _, _, _, _, hf, _, _, _, _ => by omega
  | k, fuel + 1, t, p, m, e, z, c, hf, hk, hemp, hz, hsafe => by
    simp only [insertAtLoop]
    by_cases h0 : (t.entry (p % t.cap)).hash = 0
    · rw [if_pos h0]
      exact ⟨_, rfl, c.place h0 hz fun h => (hsafe 0 (Nat.zero_le _) h).2⟩
    · obtain ⟨k, rfl, hahead⟩ := empty_ahead hemp h0
      rw [if_neg h0, if_neg (fun h => c.ne_current h0 h.2), succ_pos_mod]
      have hm : m < t.cap := c.lt_cap hemp
      have hsafe' : ∀ m' j, j ≤ k → z % t.cap = (p + 1 + j) % t.cap → j = 0 ∧ m' = 0 := by
        intro m' j hj hzj
        have := hsafe (j + 1) (by omega) (by rw [hzj]; congr 1; omega)
        omega
      have hstop := stop_iff t p m
      simp only [h0, false_or] at hstop
      by_cases hlt : t.probeCount (p % t.cap) (t.entry (p % t.cap)).hash < m
      · -- the occupant is closer to its home than `e`
        have hr := hstop.1 hlt
        rw [if_pos hlt]
        have hempty' : ((t.setEntry (p % t.cap) e).entry ((p + 1 + k) % t.cap)).hash = 0 := by
          rw [entry_setEntry, if_neg]
          · exact hahead
          · rintro ⟨h, _⟩; rw [← h] at hahead; exact h0 hahead
        have hzp : z % t.cap ≠ p % t.cap := fun h => by
          have := (hsafe 0 (Nat.zero_le _) h).2; omega
        obtain ⟨t', hloop, pl⟩ := insertAtLoop_absent k fuel (c.swap hm h0 hr) (by omega) (by simp; omega) hempty'
          (by rw [c.rank_set_ne hzp]; exact hz) (fun j hj hzj => hsafe' _ j hj hzj)
        refine ⟨t', hloop, ⟨(SameBut.setEntry t _ e).trans pl.same, pl.len, pl.layout, ?_, pl.anchor⟩⟩
        have hperm := live_setEntry_perm t c.slot_lt e
        rw [liveOne_of_ne c.hash_ne, liveOne_of_ne h0] at hperm
        exact pl.perm.trans hperm.symm
      · rw [if_neg hlt]
        have hr : m < t.rank p := Nat.lt_of_not_le fun h => hlt (hstop.2 h)
        exact insertAtLoop_absent k fuel (c.next hr) (by omega) (by omega) hahead hz
          (fun j hj hzj => hsafe' _ j hj hzj)

/-- The loop starts at the home of the new entry. -/
theorem carry_home {t : HT K V} (w : WF M t) {key : K} (habs : ∀ e ∈ t.live, M.C key e.key ≠ 0) (value : V) :
    Carry M t (hash M t key) 0 ⟨key, value, hash M t key⟩ :=
  ⟨w.cap_pos, w.len, w.layout, hash_ne_zero M t key, by simp, Nat.zero_le _, List.pairwise_cons.2 ⟨habs, w.keys⟩⟩

/-- **`A3_HT_INSERT_AT` (`ht.h:221`)** on a key that is not stored, with an empty slot in the table. -/
theorem insertAt_absent {t : HT K V} (w : WF M t) (hfree : t.live.length < t.cap) {key : K} (value : V)
    (habs : ∀ e ∈ t.live, M.C key e.key ≠ 0) :
    ∃ t', insertAt M t (hash M t key) key value = some (t', true) ∧ SameBut t t' ∧ WF M t' ∧
      t'.live.Perm (⟨key, value, hash M t key⟩ :: t.live) := by
  obtain ⟨i, hi, hemp⟩ := exists_empty (by rw [w.len]; exact hfree)
  rw [w.len] at hi
  obtain ⟨k, hk, hki⟩ := RobinHood.exists_offset w.cap_pos (hash M t key) i
  have hemp' : (t.entry ((hash M t key + k) % t.cap)).hash = 0 := by rw [hki, Nat.mod_eq_of_lt hi]; exact hemp
  have c := carry_home w habs value
  -- the slot after the empty one is an anchor, and the loop does not displace its occupant
  have hz : t.rank (hash M t key + k + 1) ≤ 1 := by
    have := w.layout.step (hash M t key + k)
    rwa [rank_eq_zero.2 hemp'] at this
  have hsafe : ∀ j, j ≤ k → (hash M t key + k + 1) % t.cap = (hash M t key + j) % t.cap → j = 0 ∧ (0 : Nat) = 0 := by
    intro j hj hzj
    refine ⟨?_, rfl⟩
    rcases Nat.lt_or_ge (k + 1) t.cap with hlt | hge
    · have := RobinHood.offset_inj hlt (show j < t.cap by omega) (by rw [← Nat.add_assoc]; exact hzj)
      omega
    · have hkc : hash M t key + k + 1 = hash M t key + 0 + t.cap := by omega
      rw [hkc, Nat.add_mod_right] at hzj
      exact (RobinHood.offset_inj w.cap_pos (show j < t.cap by omega) hzj).symm
  obtain ⟨t', hloop, pl⟩ := insertAtLoop_absent k (t.cap + 1) c (by omega) hk hemp' hz hsafe
  refine ⟨t', hloop, pl.same, ⟨?_, pl.len, fun e he => ?_, ?_, pl.layout, ⟨_, pl.anchor⟩⟩, pl.perm⟩
  · rw [SameBut.cap_eq pl.same]; exact w.cap_pos
  · rw [hash_same pl.same]
    rcases List.mem_cons.1 (pl.perm.mem_iff.1 he) with rfl | h
    · rfl
    · exact w.hashes e h
  · exact keys_perm pl.perm.symm c.keys

/-! ## A key that is already stored -/

/-- What `A3_HT_INSERT_AT` does on finding an equal key in slot `i` (`ht.h:240-244`). -/
def onDuplicate (t : HT K V) (i : Nat) (value : V) : HT K V × Bool :=
  match t.duplicateCb with
  | none => (t, false)
  | some cb => (t.setEntry i { t.entry i with value := (cb (t.entry i).value value).1 }, (cb (t.entry i).value value).2)

theorem insertAtLoop_present {t : HT K V} (w : WF M t) {h d : Nat} (hd : d < t.cap) {e : Entry K V}
    (hrank : t.rank (h + d) = d + 1) (hk : M.C e.key (t.entry ((h + d) % t.cap)).key = 0)
    (hh : (t.entry ((h + d) % t.cap)).hash = e.hash) :
    ∀ (fuel m : Nat), m ≤ d → d < fuel + m →
      insertAtLoop M fuel t ((h + m) % t.cap) m e = some (onDuplicate t ((h + d) % t.cap) e.value)
  | 0, m, hm, hf => by omega
  | fuel + 1, m, hm, hf => by
    simp only [insertAtLoop]
    rcases Nat.lt_or_ge m d with hlt | hge
    · obtain ⟨hopen, hne⟩ := w.path hd hrank hk hlt
      have hns : ¬ t.rank (h + m) ≤ m := by omega
      rw [← stop_iff, not_or] at hns
      rw [if_neg hns.1, if_neg (fun hc => hne hc.2), if_neg hns.2, succ_pos_mod, Nat.add_assoc]
      exact insertAtLoop_present w hd hrank hk hh fuel (m + 1) hlt (by omega)
    · have : m = d := by omega
      subst this
      have hocc : (t.entry ((h + m) % t.cap)).hash ≠ 0 := fun h0 => by rw [rank_eq_zero.2 h0] at hrank; omega
      rw [if_neg hocc, if_pos ⟨hh.symm, hk⟩]
      unfold onDuplicate
      cases t.duplicateCb <;> rfl

/-- **`A3_HT_INSERT_AT`** on a stored key: only the duplicate callback can change anything. -/
theorem insertAt_present {t : HT K V} (w : WF M t) {e : Entry K V} (he : e ∈ t.live) {key : K} (value : V)
    (hk : M.C key e.key = 0) :
    ∃ i, i < t.cap ∧ t.entry i = e ∧ insertAt M t (hash M t key) key value = some (onDuplicate t i value) := by
  obtain ⟨d, hd, hent, hrank⟩ := w.probe_of_mem he
  have hh := w.hash_of_mem he hk
  rw [hh] at hent hrank
  refine ⟨_, Nat.mod_lt _ w.cap_pos, hent, ?_⟩
  have := insertAtLoop_present w hd (e := ⟨key, value, hash M t key⟩) hrank (by rw [hent]; exact hk)
    (by rw [hent]; exact hh) (t.cap + 1) 0 (Nat.zero_le _) (by omega)
  simpa only [insertAt, Nat.add_zero, Nat.mod_mod] using this

/-- Changing a stored value keeps the invariant. -/
theorem WF.setValue {t : HT K V} (w : WF M t) {i : Nat} (hi : i < t.cap) (hocc : (t.entry i).hash ≠ 0)
    (e' : Entry K V) (hkey : e'.key = (t.entry i).key) (hhash : e'.hash = (t.entry i).hash) :
    WF M (t.setEntry i e') ∧
      ∃ rest, t.live.Perm (t.entry i :: rest) ∧ (t.setEntry i e').live.Perm (e' :: rest) := by
  have hil : i < t.entries.length := by rw [w.len]; exact hi
  have himod : i % t.cap = i := Nat.mod_eq_of_lt hi
  obtain ⟨rest, hrest⟩ : ∃ rest, t.live.Perm (t.entry i :: rest) := by
    obtain ⟨l1, l2, hl⟩ := List.append_of_mem (w.entry_mem_live hi hocc)
    exact ⟨l1 ++ l2, by rw [hl]; exact List.perm_middle⟩
  have hperm := live_setEntry_perm t hil e'
  rw [liveOne_of_ne hocc, liveOne_of_ne (hhash ▸ hocc)] at hperm
  have hlive : (t.setEntry i e').live.Perm (e' :: rest) :=
    (List.perm_cons _).1 (hperm.symm.trans ((hrest.cons _).trans (List.Perm.swap _ _ _)))
  have hrank : (t.setEntry i e').rank = t.rank := by
    funext q
    have hset := rank_setEntry w.cap_pos w.len i e'
    rw [himod] at hset
    rw [hset]
    by_cases hq : q % t.cap = i % t.cap
    · rw [RobinHood.put_self hq, RobinHood.periodic_congr (rank_periodic t) hq, rank, himod, rankOf, rankOf, hhash]
    · rw [RobinHood.put_ne hq]
  have hkeys := keys_perm hrest w.keys
  refine ⟨⟨w.cap_pos, by rw [length_setEntry]; exact w.len, fun a ha => ?_, ?_, ?_, ?_⟩, rest, hrest, hlive⟩
  · rcases List.mem_cons.1 (hlive.mem_iff.1 ha) with rfl | h
    · rw [hhash, w.hashes _ (w.entry_mem_live hi hocc), ← hkey]; rfl
    · exact w.hashes a (hrest.mem_iff.2 (List.mem_cons_of_mem _ h))
  · rw [List.pairwise_cons] at hkeys
    refine keys_perm hlive.symm (List.pairwise_cons.2 ⟨fun a ha => ?_, hkeys.2⟩)
    rw [hkey]; exact hkeys.1 a ha
  · rw [hrank]; exact w.layout
  · rw [hrank]; exact w.anchor

/-- What the duplicate callback (or none) makes of a stored value, and what `A3_HT_INSERT` then returns. -/
def onDuplicateValue (cb : Option (V → V → V × Bool)) (current new : V) : V × Bool :=
  match cb with
  | none => (current, false)
  | some f => f current new

theorem WF.onDuplicate {t : HT K V} (w : WF M t) {i : Nat} (hi : i < t.cap) {e : Entry K V} (he : t.entry i = e)
    (hocc : e.hash ≠ 0) (value : V) :
    ∃ t' rest, onDuplicate t i value = (t', (onDuplicateValue t.duplicateCb e.value value).2) ∧ SameBut t t' ∧
      WF M t' ∧ t.live.Perm (e :: rest) ∧
      t'.live.Perm ({ e with value := (onDuplicateValue t.duplicateCb e.value value).1 } :: rest) := by
  subst he
  obtain ⟨w', rest, hrest, hlive⟩ := w.setValue hi hocc
    { t.entry i with value := (onDuplicateValue t.duplicateCb (t.entry i).value value).1 } rfl rfl
  unfold A3Ht.onDuplicate
  cases hd : t.duplicateCb with
  | none => exact ⟨t, rest, rfl, SameBut.refl t, w, hrest, hrest⟩
  | some f =>
    rw [hd] at w' hlive
    exact ⟨_, rest, rfl, SameBut.setEntry t _ _, w', hrest, hlive⟩

end A3Ht
