import LibA3.Ht.Run
import LibA3.RobinHood.Unique
import Mathlib.Data.List.Rotate
import Mathlib.Data.List.Perm.Basic

/-!
# The layout forgets its history

Which slots are occupied, and from which home bucket each, is determined by the stored keys and the
capacity: the home buckets are (`homes_eq`: the slots whose ranks point back to bucket `i` are as many as
the stored entries that hash there), the keys of two tables correspond one to one (`countP_home_eq`), and
an anchored Robin Hood layout is determined by its homes (`RobinHood.Layout.unique`).
-/

namespace A3Ht

open HT Trans

variable {K V : Type} {M M' : Methods K}

/-! ## Keys up to equality -/

/-- Keys up to equality. -/
def keySetoid (M : Methods K) : Setoid K := ⟨fun a b => M.C a b = 0, M.C_equiv⟩

def keyClass (M : Methods K) (e : Entry K V) : Quotient (keySetoid M) := Quotient.mk _ e.key

theorem keyClass_eq {a b : Entry K V} : keyClass M a = keyClass M b ↔ M.C a.key b.key = 0 :=
  ⟨fun h => Quotient.exact h, fun h => Quotient.sound h⟩

theorem keyClass_nodup {l : List (Entry K V)} (hkeys : l.Pairwise fun a b => M.C a.key b.key ≠ 0) :
    (l.map (keyClass M)).Nodup := by
  rw [List.Nodup, List.pairwise_map]
  exact hkeys.imp fun h => mt keyClass_eq.1 h

theorem mem_keyClass {l : List (Entry K V)} {k : K} :
    Quotient.mk (keySetoid M) k ∈ l.map (keyClass M) ↔ (lookup M l k).isSome = true := by
  rw [List.mem_map, lookup_isSome]
  constructor
  · rintro ⟨e, he, h⟩
    have hc : M.C e.key k = 0 := Quotient.exact h
    exact ⟨e, he, C_comm.1 hc⟩
  · rintro ⟨e, he, h⟩
    exact ⟨e, he, Quotient.sound (C_comm.1 h)⟩

/-- The hash of a class of equal keys. -/
def classHash (M : Methods K) (t : HT K V) : Quotient (keySetoid M) → Nat :=
  Quotient.lift (hash M t) fun _ _ h => hash_congr h t

theorem countP_home (t : HT K V) {l : List (Entry K V)} (hhashes : ∀ e ∈ l, e.hash = hash M t e.key) (n j : Nat) :
    (l.countP fun e => e.hash % n = j) = (l.map (keyClass M)).countP fun q => classHash M t q % n = j := by
  rw [List.countP_map]
  refine List.countP_congr fun e he => ?_
  have hclass : classHash M t (keyClass M e) = hash M t e.key := rfl
  rw [hhashes e he, Function.comp_apply, hclass]

/-! ## Home buckets, seen from the slots and from the entries -/

variable [Inhabited K] [Inhabited V]

/-- Seen from slot `i`, the slot `m` on holds an entry of bucket `i` iff its rank is `m + 1`. -/
theorem rank_eq_home_iff {t : HT K V} (hc : 0 < t.cap) (i : Nat) {m : Nat} (hm : m < t.cap) :
    t.rank (i + m) = m + 1 ↔
      (t.entry ((i + m) % t.cap)).hash ≠ 0 ∧ (t.entry ((i + m) % t.cap)).hash % t.cap = i % t.cap := by
  generalize he : t.entry ((i + m) % t.cap) = e
  have hrank : t.rank (i + m) = t.rankOf (i + m) e := by rw [rank, he]
  rw [hrank]
  constructor
  · intro hr
    have h0 : e.hash ≠ 0 := fun h0 => by rw [rankOf_empty t _ h0] at hr; omega
    refine ⟨h0, ?_⟩
    rw [rankOf, if_neg h0] at hr
    have hhome := home_add_probeCount hc (i + m) e.hash
    rw [Nat.add_right_cancel hr] at hhome
    have := Nat.ModEq.add_right_cancel' m hhome
    rwa [Nat.ModEq, Nat.mod_mod] at this
  · rintro ⟨h0, hhome⟩
    refine rankOf_eq h0 hm ?_
    rw [hhome, Nat.mod_add_mod]

theorem count_eq_countP (p : Nat → Bool) (n : Nat) : Nat.count (fun m => p m = true) n = (List.range n).countP p := by
  induction n with
  | zero => rfl
  | succ n ih => rw [Nat.count_succ, List.range_succ, List.countP_append, ih]; simp

/-- One lap round the table, from slot `i` on. -/
theorem entries_rotate {t : HT K V} (hl : t.entries.length = t.cap) (i : Nat) :
    (List.range t.cap).map (fun m => t.entry ((i + m) % t.cap)) = t.entries.rotate i := by
  apply List.ext_getElem
  · simp [hl]
  · intro m h1 h2
    have hm : m < t.cap := by simpa using h1
    have hlt : (i + m) % t.cap < t.entries.length := by rw [hl]; exact Nat.mod_lt _ (by omega)
    rw [List.getElem_map, List.getElem_range, List.getElem_rotate, entry_eq_getElem t hlt]
    simp only [hl, Nat.add_comm]

/-- As many slots have bucket `i` as their home as there are entries that hash to it. -/
theorem homes_eq {t : HT K V} (w : WF M t) (i : Nat) :
    RobinHood.homes t.cap t.rank i = t.live.countP fun e => e.hash % t.cap = i % t.cap := by
  have hslots : RobinHood.homes t.cap t.rank i =
      Nat.count (fun m => (decide ((t.entry ((i + m) % t.cap)).hash ≠ 0) &&
        decide ((t.entry ((i + m) % t.cap)).hash % t.cap = i % t.cap)) = true) t.cap := by
    unfold RobinHood.homes
    rw [Nat.count_eq_card_filter_range, Nat.count_eq_card_filter_range]
    congr 1
    apply Finset.filter_congr
    intro m hm
    simpa using rank_eq_home_iff w.cap_pos i (Finset.mem_range.1 hm)
  rw [hslots, count_eq_countP]
  have hmap := List.countP_map (p := fun e : Entry K V => decide (e.hash % t.cap = i % t.cap) && decide (e.hash ≠ 0))
    (f := fun m => t.entry ((i + m) % t.cap)) (l := List.range t.cap)
  rw [entries_rotate w.len, (List.rotate_perm t.entries i).countP_eq] at hmap
  rw [live, List.countP_filter, hmap]
  simp only [Function.comp_def, Bool.and_comm]

/-! ## Tables with the same keys -/

/-- Tables with the same keys and the same hash function have equally many entries for each home. -/
theorem countP_home_eq {t t' : HT K V} (w : WF M t) (w' : WF M' t') (hC : M.C = M'.C)
    (hhash : ∀ k, hash M t k = hash M' t' k) (hkeys : ∀ k, (bindings M t k).isSome = (bindings M' t' k).isSome)
    (n j : Nat) : (t.live.countP fun e => e.hash % n = j) = t'.live.countP fun e => e.hash % n = j := by
  have hkeys' : t'.live.Pairwise fun a b => M.C a.key b.key ≠ 0 := by rw [hC]; exact w'.keys
  have hlookup : ∀ k, bindings M' t' k = lookup M t'.live k := by
    intro k; simp only [bindings, lookup, hC]
  -- the same classes of keys, each once
  have hperm : (t.live.map (keyClass M)).Perm (t'.live.map (keyClass M)) := by
    rw [List.perm_ext_iff_of_nodup (keyClass_nodup w.keys) (keyClass_nodup hkeys')]
    intro q
    induction q using Quotient.inductionOn with
    | h k => rw [mem_keyClass, mem_keyClass, ← hlookup, ← hkeys]; rfl
  rw [countP_home t w.hashes, countP_home t (fun e he => by rw [hhash]; exact w'.hashes e he)]
  exact hperm.countP_eq _

/-! ## Two tables -/

/-- Equal ranks are equal occupancy, and equal home buckets of what occupies. -/
theorem slot_eq_of_rank_eq {t t' : HT K V} (hc : 0 < t.cap) (hcap : t.cap = t'.cap) {i : Nat} (hi : i < t.cap)
    (hrank : t.rank i = t'.rank i) :
    ((t.entry i).hash = 0 ↔ (t'.entry i).hash = 0) ∧
      ((t.entry i).hash ≠ 0 →
        (t.entry i).hash % t.cap = (t'.entry i).hash % t.cap ∧
        t.probeCount i (t.entry i).hash = t'.probeCount i (t'.entry i).hash) := by
  have himod : i % t.cap = i := Nat.mod_eq_of_lt hi
  have himod' : i % t'.cap = i := by rw [← hcap]; exact himod
  have hiff : (t.entry i).hash = 0 ↔ (t'.entry i).hash = 0 := by
    have h1 := rank_eq_zero (t := t) (p := i)
    have h2 := rank_eq_zero (t := t') (p := i)
    rw [himod] at h1
    rw [himod'] at h2
    rw [← h1, ← h2, hrank]
  refine ⟨hiff, fun h0 => ?_⟩
  have h0' : (t'.entry i).hash ≠ 0 := fun h => h0 (hiff.2 h)
  simp only [rank, himod, himod', rankOf, if_neg h0, if_neg h0'] at hrank
  have hprobe : t.probeCount i (t.entry i).hash = t'.probeCount i (t'.entry i).hash := Nat.add_right_cancel hrank
  refine ⟨?_, hprobe⟩
  -- both homes are the probe count back from slot `i`
  have h1 := home_add_probeCount hc i (t.entry i).hash
  have h2 := home_add_probeCount (by rw [← hcap]; exact hc) i (t'.entry i).hash
  rw [himod', ← hcap] at h2
  rw [himod, hprobe] at h1
  have := Nat.ModEq.add_right_cancel' _ (h1.trans h2.symm)
  rwa [Nat.ModEq, Nat.mod_mod, Nat.mod_mod] at this

/-- **The layout is history independent.** Two tables reached by any calls from `A3_HT_INIT`, with one hash
    function and comparator, one capacity and the same stored keys, have the same slots occupied, each by an
    entry of the same home bucket at the same probe count. -/
theorem layout_history_independent (M M' : Methods K) (hC : M.C = M'.C) (key key' : Option (List UInt8))
    (rand rand' : Nat → UInt8) (canGrow canGrow' : Bool) {l l' : List (Call K V)} {t t' : HT K V}
    (h : Run (Step M) (init M key rand canGrow) l t) (h' : Run (Step M') (init M' key' rand' canGrow') l' t')
    (hhash : ∀ k, hash M t k = hash M' t' k) (hcap : t.cap = t'.cap)
    (hkeys : ∀ k, (bindings M t k).isSome = (bindings M' t' k).isSome) :
    ∀ i, i < t.cap →
      ((t.entry i).hash = 0 ↔ (t'.entry i).hash = 0) ∧
      ((t.entry i).hash ≠ 0 →
        (t.entry i).hash % t.cap = (t'.entry i).hash % t.cap ∧
        t.probeCount i (t.entry i).hash = t'.probeCount i (t'.entry i).hash) := by
  have w := (run_sound h (init_sound M key rand canGrow)).wf
  have w' := (run_sound h' (init_sound M' key' rand' canGrow')).wf
  have hlayout := w'.layout
  have hhomes : ∀ i, RobinHood.homes t.cap t.rank i = RobinHood.homes t.cap t'.rank i := by
    intro i
    have h1 := homes_eq w i
    have h2 := homes_eq w' i
    rw [← hcap] at h2
    rw [h1, h2]
    exact countP_home_eq w w' hC hhash hkeys t.cap (i % t.cap)
  rw [← hcap] at hlayout
  intro i hi
  exact slot_eq_of_rank_eq w.cap_pos hcap hi
    (RobinHood.Layout.unique w.layout hlayout w.cap_pos w.anchor w'.anchor hhomes i)

/-- A full table of two slots, filled one way and, with a deletion on the way, the other. -/
theorem layout_history_independent_full :
    let t : HT Nat Nat := ⟨false, 2, 2, List.replicate 32 0, none, [⟨2, 20, 2⟩, ⟨4, 40, 4⟩]⟩
    let t' : HT Nat Nat := ⟨false, 2, 2, List.replicate 32 0, none, [⟨4, 40, 4⟩, ⟨2, 20, 2⟩]⟩
    ∀ i, i < t.cap →
      ((t.entry i).hash = 0 ↔ (t'.entry i).hash = 0) ∧
      ((t.entry i).hash ≠ 0 →
        (t.entry i).hash % t.cap = (t'.entry i).hash % t.cap ∧
        t.probeCount i (t.entry i).hash = t'.probeCount i (t'.entry i).hash) :=
  layout_history_independent numbersInTwo numbersInTwo rfl none none (fun _ => 0) (fun _ => 0) false false
    (run_callAll [.insert 2 20, .insert 4 40] rfl)
    (run_callAll [.insert 6 60, .insert 4 40, .delete 6, .insert 2 20] rfl)
    (fun _ => rfl) rfl
    (fun k => congrArg Option.isSome
      (lookup_perm (M := numbersInTwo) (l := [⟨2, 20, 2⟩, ⟨4, 40, 4⟩]) (by decide) (List.Perm.swap _ _ []) k))

end A3Ht
