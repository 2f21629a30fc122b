import LibA3.Ht.Basic
import LibA3.RobinHood.Layout

/-!
# The hash table invariant

`WF M t`: the slots of `t` are in the Robin Hood ordering, their stored hashes are the hashes of their
keys, and no two keys are equal. The ordering is stated on ranks (`rank t i`: 0 for an empty slot, one
more than `A3_HT_PROBE_COUNT` for an occupied one; see `RobinHood.Layout`), at unrolled positions.

The entries of a table are `live t`. A write to one slot permutes them in the way
`live_setEntry_perm` says, and every statement about what is stored goes through that.
-/

namespace A3Ht

variable {K V : Type}

/-! ## Slots -/

namespace HT

@[simp] theorem length_setEntry (t : HT K V) (i : Nat) (e : Entry K V) :
    (t.setEntry i e).entries.length = t.entries.length := by simp [setEntry]

@[simp] theorem cap_setEntry (t : HT K V) (i : Nat) (e : Entry K V) : (t.setEntry i e).cap = t.cap := rfl

/-- Two tables that differ in their slots only. -/
def SameBut (t t' : HT K V) : Prop := t' = { t with entries := t'.entries }

theorem SameBut.refl (t : HT K V) : SameBut t t := rfl

theorem SameBut.setEntry (t : HT K V) (i : Nat) (e : Entry K V) : SameBut t (t.setEntry i e) := rfl

theorem SameBut.trans {t t' t'' : HT K V} (h : SameBut t t') (h' : SameBut t' t'') : SameBut t t'' := by
  unfold SameBut at *; rw [h', h]

theorem SameBut.cap_eq {t t' : HT K V} (h : SameBut t t') : t'.cap = t.cap := by rw [h]

/-! ## Probe counts -/

/-- An entry `d` slots past its home has probe count `d`. -/
theorem probeCount_eq {t : HT K V} {p h d : Nat} (hd : d < t.cap) (hp : (h % t.cap + d) % t.cap = p % t.cap) :
    t.probeCount (p % t.cap) h = d := by
  have hh := Nat.mod_lt h (show 0 < t.cap by omega)
  unfold probeCount
  rw [← hp]
  rcases Nat.lt_or_ge (h % t.cap + d) t.cap with hlt | hge
  · rw [Nat.mod_eq_of_lt hlt, show h % t.cap + d + t.cap - h % t.cap = d + t.cap by omega, Nat.add_mod_right,
      Nat.mod_eq_of_lt hd]
  · have e : (h % t.cap + d) % t.cap = h % t.cap + d - t.cap := by
      rw [Nat.mod_eq_sub_mod hge, Nat.mod_eq_of_lt (by omega)]
    rw [e, show h % t.cap + d - t.cap + t.cap - h % t.cap = d by omega, Nat.mod_eq_of_lt hd]

theorem probeCount_lt {t : HT K V} (hc : 0 < t.cap) (i h : Nat) : t.probeCount i h < t.cap := Nat.mod_lt _ hc

/-- Going `A3_HT_PROBE_COUNT` slots from its home leads to the entry. -/
theorem home_add_probeCount {t : HT K V} (hc : 0 < t.cap) (p h : Nat) :
    (h % t.cap + t.probeCount (p % t.cap) h) % t.cap = p % t.cap := by
  have hh := Nat.mod_lt h hc
  have hp := Nat.mod_lt p hc
  unfold probeCount
  rw [Nat.add_mod_mod, show h % t.cap + (p % t.cap + t.cap - h % t.cap) = p % t.cap + t.cap by omega,
    Nat.add_mod_right, Nat.mod_mod]

/-- The rank an entry has (or would have) at position `p`. -/
def rankOf (t : HT K V) (p : Nat) (e : Entry K V) : Nat :=
  if e.hash = 0 then 0 else t.probeCount (p % t.cap) e.hash + 1

theorem rankOf_empty (t : HT K V) (p : Nat) {e : Entry K V} (h : e.hash = 0) : t.rankOf p e = 0 := by
  simp [rankOf, h]

theorem rankOf_eq {t : HT K V} {p d : Nat} {e : Entry K V} (he : e.hash ≠ 0) (hd : d < t.cap)
    (hp : (e.hash % t.cap + d) % t.cap = p % t.cap) : t.rankOf p e = d + 1 := by
  rw [rankOf, if_neg he, probeCount_eq hd hp]

/-! ## The stored entries -/

/-- The occupied slots, in slot order. -/
def live (t : HT K V) : List (Entry K V) := t.entries.filter fun e => e.hash ≠ 0

theorem length_live_le (t : HT K V) : t.live.length ≤ t.entries.length := List.length_filter_le _ _

/-- An entry as a list of stored entries: itself if it counts as one. -/
def liveOne (e : Entry K V) : List (Entry K V) := [e].filter fun e => e.hash ≠ 0

@[simp] theorem liveOne_of_ne {e : Entry K V} (h : e.hash ≠ 0) : liveOne e = [e] := by simp [liveOne, h]

@[simp] theorem liveOne_of_eq {e : Entry K V} (h : e.hash = 0) : liveOne e = [] := by simp [liveOne, h]

end HT

open HT

/-! ## Hashes and keys -/

variable {M : Methods K}

theorem hash_ne_zero (M : Methods K) (t : HT K V) (k : K) : hash M t k ≠ 0 := by
  unfold hash; simp only; split
  · assumption
  · exact Nat.one_ne_zero

theorem hash_congr {a b : K} (h : M.C a b = 0) (t : HT K V) : hash M t a = hash M t b := by
  simp only [hash, M.H_congr t.hashKey a b h]

/-- Tables that differ in their slots only hash alike. -/
theorem hash_same {t t' : HT K V} (h : SameBut t t') (k : K) : hash M t' k = hash M t k := by
  rw [h]; rfl

theorem C_comm {a b : K} : M.C a b = 0 ↔ M.C b a = 0 := ⟨M.C_equiv.symm, M.C_equiv.symm⟩

theorem C_trans {a b c : K} (h : M.C a b = 0) (h' : M.C b c = 0) : M.C a c = 0 := M.C_equiv.trans h h'

instance : Std.Symm fun a b : Entry K V => M.C a.key b.key ≠ 0 := ⟨fun _ _ h => mt C_comm.1 h⟩

theorem keys_perm {l l' : List (Entry K V)} (h : l.Perm l') (hl : l.Pairwise fun a b => M.C a.key b.key ≠ 0) :
    l'.Pairwise fun a b => M.C a.key b.key ≠ 0 := h.pairwise hl fun hab => mt C_comm.1 hab

/-! ## What a slot holds -/

variable [Inhabited K] [Inhabited V]

namespace HT

@[simp] theorem entry_setEntry (t : HT K V) (i j : Nat) (e : Entry K V) :
    (t.setEntry i e).entry j = if i = j ∧ i < t.entries.length then e else t.entry j := by
  simp only [entry, setEntry, List.getD_eq_getElem?_getD, List.getElem?_set]
  by_cases hij : i = j
  · subst hij
    by_cases hl : i < t.entries.length
    · simp [hl]
    · simp [hl]
  · simp [hij]

theorem entry_eq_getElem (t : HT K V) {i : Nat} (hi : i < t.entries.length) : t.entry i = t.entries[i] := by
  simp [entry, List.getD_eq_getElem?_getD, hi]

theorem mem_live {t : HT K V} {e : Entry K V} :
    e ∈ t.live ↔ e.hash ≠ 0 ∧ ∃ i, i < t.entries.length ∧ t.entry i = e := by
  rw [live, List.mem_filter, List.mem_iff_getElem, decide_eq_true_eq]
  constructor
  · rintro ⟨⟨i, hi, rfl⟩, h⟩; exact ⟨h, i, hi, entry_eq_getElem t hi⟩
  · rintro ⟨h, i, hi, rfl⟩; exact ⟨⟨i, hi, (entry_eq_getElem t hi).symm⟩, h⟩

theorem hash_ne_of_mem_live {t : HT K V} {e : Entry K V} (h : e ∈ t.live) : e.hash ≠ 0 := (mem_live.1 h).1

theorem entry_mem_live {t : HT K V} {i : Nat} (hi : i < t.entries.length) (h : (t.entry i).hash ≠ 0) :
    t.entry i ∈ t.live := mem_live.2 ⟨h, i, hi, rfl⟩

/-- Writing a slot trades its occupant for the new one. -/
theorem live_setEntry_perm (t : HT K V) {i : Nat} (hi : i < t.entries.length) (e : Entry K V) :
    (liveOne e ++ t.live).Perm (liveOne (t.entry i) ++ (t.setEntry i e).live) := by
  have hsplit : t.entries = t.entries.take i ++ t.entries[i] :: t.entries.drop (i + 1) := by
    rw [List.getElem_cons_drop, List.take_append_drop]
  have hset : (t.setEntry i e).entries = t.entries.take i ++ e :: t.entries.drop (i + 1) :=
    List.set_eq_take_append_cons_drop.trans (if_pos hi)
  have hperm : (e :: t.entries).Perm (t.entries[i] :: (t.setEntry i e).entries) := by
    rw [hset]
    conv => lhs; rw [hsplit]
    exact (List.perm_middle.cons e).trans ((List.Perm.swap _ _ _).trans (List.perm_middle.symm.cons _))
  have := hperm.filter fun e => decide (e.hash ≠ 0)
  rw [entry_eq_getElem t hi]
  simpa only [live, liveOne, ← List.filter_append, List.singleton_append] using this

/-- A table that stores nothing has empty slots only. -/
theorem hash_eq_zero_of_live {t : HT K V} (h : t.live = []) (i : Nat) : (t.entry i).hash = 0 := by
  by_contra h0
  rcases Nat.lt_or_ge i t.entries.length with hlt | hge
  · have := entry_mem_live hlt h0
    rw [h] at this
    cases this
  · rw [entry, List.getD_eq_getElem?_getD, List.getElem?_eq_none hge] at h0
    exact h0 rfl

/-- A table that is not full has an empty slot. -/
theorem exists_empty {t : HT K V} (h : t.live.length < t.entries.length) :
    ∃ i, i < t.entries.length ∧ (t.entry i).hash = 0 := by
  obtain ⟨e, he, h0⟩ := List.length_filter_lt_length_iff_exists.1 h
  obtain ⟨i, hi, rfl⟩ := List.mem_iff_getElem.1 he
  exact ⟨i, hi, by rw [entry_eq_getElem t hi]; simpa using h0⟩

/-- A table with an empty slot is not full. -/
theorem length_live_lt {t : HT K V} {i : Nat} (hi : i < t.entries.length) (h : (t.entry i).hash = 0) :
    t.live.length < t.entries.length :=
  List.length_filter_lt_length_iff_exists.2
    ⟨t.entries[i], List.getElem_mem hi, by rw [← entry_eq_getElem t hi]; simpa using h⟩

/-! ## Ranks -/

def rank (t : HT K V) (p : Nat) : Nat := t.rankOf p (t.entry (p % t.cap))

theorem rank_periodic (t : HT K V) (p : Nat) : t.rank (p + t.cap) = t.rank p := by
  simp [rank, rankOf]

theorem rank_eq_zero {t : HT K V} {p : Nat} : t.rank p = 0 ↔ (t.entry (p % t.cap)).hash = 0 := by
  unfold rank rankOf; split <;> simp_all

/-- Writing a slot writes its rank. -/
theorem rank_setEntry {t : HT K V} (hc : 0 < t.cap) (hl : t.entries.length = t.cap) (p : Nat) (e : Entry K V) :
    (t.setEntry (p % t.cap) e).rank = RobinHood.put t.cap t.rank p (t.rankOf p e) := by
  funext q
  have hp : p % t.cap < t.entries.length := by rw [hl]; exact Nat.mod_lt _ hc
  by_cases h : q % t.cap = p % t.cap
  · rw [RobinHood.put_self h]
    simp [rank, rankOf, hp, h, probeCount, cap_setEntry]
  · rw [RobinHood.put_ne h]
    simp [rank, rankOf, Ne.symm h, probeCount, cap_setEntry]

end HT

/-! ## The invariant -/

/-- The invariant of every table the operations leave behind. -/
structure WF (M : Methods K) (t : HT K V) : Prop where
  cap_pos : 0 < t.cap
  len : t.entries.length = t.cap
  hashes : ∀ e ∈ t.live, e.hash = hash M t e.key
  keys : t.live.Pairwise fun a b => M.C a.key b.key ≠ 0
  layout : RobinHood.Layout t.cap t.rank
  anchor : RobinHood.Anchored t.rank

theorem WF.entry_mem_live {t : HT K V} (w : WF M t) {i : Nat} (hi : i < t.cap) (hocc : (t.entry i).hash ≠ 0) :
    t.entry i ∈ t.live := HT.entry_mem_live (by rw [w.len]; exact hi) hocc

/-- Equal keys are in one slot. -/
theorem WF.slot_unique {t : HT K V} (w : WF M t) {i j : Nat} (hi : i < t.cap) (hj : j < t.cap)
    (hio : (t.entry i).hash ≠ 0) (hjo : (t.entry j).hash ≠ 0) (h : M.C (t.entry i).key (t.entry j).key = 0) :
    i = j := by
  have hlen := w.len
  have hpair := w.keys
  rw [live, List.pairwise_filter, List.pairwise_iff_getElem] at hpair
  rw [entry_eq_getElem t (by omega)] at hio h
  rw [entry_eq_getElem t (by omega)] at hjo h
  rcases Nat.lt_trichotomy i j with hlt | heq | hgt
  · exact absurd h (hpair i j _ _ hlt (by simpa using hio) (by simpa using hjo))
  · exact heq
  · exact absurd (C_comm.1 h) (hpair j i _ _ hgt (by simpa using hjo) (by simpa using hio))

end A3Ht
