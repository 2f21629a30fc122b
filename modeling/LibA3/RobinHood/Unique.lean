import LibA3.RobinHood.Layout
import Mathlib.Data.Nat.Count

/-!
# A Robin Hood layout is determined by the homes of its entries

Cut the ring just before slot `i`. The entries that cross the cut (home before it, slot at or after it)
fill an initial segment of the slots from `i` on, so their number `crossing n r i` says everything about
the ranks there (`lt_crossing_iff`). Going one slot forward, the crossing entries are joined by those
whose home is `i`, and one of them stays behind if there is any: `crossing_succ`, a recurrence that
mentions the layout only through `homes n r`. An anchor is a slot no entry crosses to, so two anchored
layouts with the same homes agree on every crossing number, hence on every rank (`Layout.unique`).
-/

namespace RobinHood

variable {n : Nat} {r r' : Nat → Nat}

/-- How many entries have slot `i` as their home. -/
def homes (n : Nat) (r : Nat → Nat) (i : Nat) : Nat := Nat.count (fun m => r (i + m) = m + 1) n

/-- How many entries sit at or after slot `i` with their home before it. -/
def crossing (n : Nat) (r : Nat → Nat) (i : Nat) : Nat := Nat.count (fun m => m + 1 < r (i + m)) n

/-- How many entries sit at or after slot `i` with their home at or before it. -/
def arriving (n : Nat) (r : Nat → Nat) (i : Nat) : Nat := Nat.count (fun m => m < r (i + m)) n

/-! ## Counting -/

/-- A downward closed set of numbers is counted by its bound. -/
theorem lt_count_iff {p : Nat → Prop} [DecidablePred p] (hp : ∀ m, p (m + 1) → p m) :
    ∀ n m, m < n → (p m ↔ m < Nat.count p n)
  | 0, _, hm => by omega
  | n + 1, m, hm => by
    have ih := lt_count_iff hp n
    have hle := Nat.count_le (p := p) (n := n)
    rw [Nat.count_succ]
    by_cases hn : p n
    · -- everything below `n` is in the set too
      have hall : ∀ k, k ≤ n → p (n - k) := by
        intro k
        induction k with
        | zero => intro _; exact hn
        | succ k ihk => intro hk; exact hp _ (by rw [show n - (k + 1) + 1 = n - k by omega]; exact ihk (by omega))
      have hcnt : Nat.count p n = n := Nat.count_of_forall fun k hk => by
        have := hall (n - k) (by omega)
        rwa [show n - (n - k) = k by omega] at this
      have hpm : p m := by have := hall (n - m) (by omega); rwa [show n - (n - m) = m by omega] at this
      rw [if_pos hn, hcnt]
      exact ⟨fun _ => hm, fun _ => hpm⟩
    · rw [if_neg hn, Nat.add_zero]
      rcases Nat.lt_or_ge m n with h | h
      · exact ih m h
      · have : m = n := by omega
        subst this
        exact ⟨fun hpm => absurd hpm hn, fun h' => by omega⟩

theorem count_or {p q : Nat → Prop} [DecidablePred p] [DecidablePred q] (hpq : ∀ m, p m → ¬ q m) (n : Nat) :
    Nat.count (fun m => p m ∨ q m) n = Nat.count p n + Nat.count q n := by
  induction n with
  | zero => simp
  | succ n ih =>
    simp only [Nat.count_succ, ih]
    by_cases h : p n
    · simp [h, hpq n h]; omega
    · by_cases h' : q n <;> simp [h, h']; omega

/-! ## The recurrence -/

theorem lt_crossing_iff (h : Layout n r) (i : Nat) {m : Nat} (hm : m < n) :
    m + 1 < r (i + m) ↔ m < crossing n r i :=
  lt_count_iff (p := fun m => m + 1 < r (i + m))
    (fun k hk => by have := h.step (i + k); rw [Nat.add_assoc] at this; omega) n m hm

theorem lt_arriving_iff (h : Layout n r) (i : Nat) {m : Nat} (hm : m < n) :
    m < r (i + m) ↔ m < arriving n r i :=
  lt_count_iff (p := fun m => m < r (i + m))
    (fun k hk => by have := h.step (i + k); rw [Nat.add_assoc] at this; omega) n m hm

theorem arriving_eq (n : Nat) (r : Nat → Nat) (i : Nat) : arriving n r i = crossing n r i + homes n r i := by
  unfold arriving crossing homes
  rw [← count_or (fun m h1 h2 => by omega)]
  congr 1
  funext m
  exact propext (by omega)

/-- Past slot `i` there is one entry less to place, if there is any. -/
theorem crossing_succ (h : Layout n r) (hn : 0 < n) (i : Nat) :
    crossing n r (i + 1) = crossing n r i + homes n r i - 1 := by
  have hlap : Nat.count (fun m => m < r (i + m)) (n + 1) = arriving n r i := by
    have hno : ¬ n < r (i + n) := by have := h.le_cap (i + n); omega
    rw [Nat.count_succ, if_neg hno]; rfl
  have hshift : Nat.count (fun m => m < r (i + m)) (n + 1) = crossing n r (i + 1) + if 0 < r i then 1 else 0 := by
    rw [Nat.count_succ']
    simp only [crossing, Nat.add_zero, show ∀ k, i + 1 + k = i + (k + 1) by omega]
  rw [hlap] at hshift
  rw [← arriving_eq, hshift]
  by_cases h0 : 0 < r i
  · rw [if_pos h0]; omega
  · have : ¬ 0 < arriving n r i := fun ha => h0 ((lt_arriving_iff h i hn).2 ha)
    rw [if_neg h0] at hshift ⊢; omega

theorem crossing_periodic (hp : ∀ i, r (i + n) = r i) (i : Nat) : crossing n r (i + n) = crossing n r i := by
  unfold crossing
  congr 1
  funext m
  rw [show i + n + m = i + m + n by omega, hp]

/-- No entry crosses to an anchor. -/
theorem crossing_anchor (h : Layout n r) (hn : 0 < n) {z : Nat} (hz : r z ≤ 1) : crossing n r z = 0 := by
  by_contra hc
  have := (lt_crossing_iff h z hn).2 (Nat.pos_of_ne_zero hc)
  simp at this; omega

/-! ## Uniqueness -/

/-- From a slot no entry crosses to, the recurrence can only stay below another solution of it. -/
theorem crossing_le (h : Layout n r) (h' : Layout n r') (hn : 0 < n) (ha : Anchored r)
    (hh : ∀ i, homes n r i = homes n r' i) (i : Nat) : crossing n r i ≤ crossing n r' i := by
  obtain ⟨z, hz⟩ := ha
  have hle : ∀ m, crossing n r (z + m) ≤ crossing n r' (z + m) := by
    intro m
    induction m with
    | zero => rw [Nat.add_zero, crossing_anchor h hn hz]; exact Nat.zero_le _
    | succ m ih =>
      rw [← Nat.add_assoc, crossing_succ h hn, crossing_succ h' hn, hh]
      omega
  obtain ⟨m, _, hm⟩ := exists_offset hn z i
  rw [← periodic_congr (crossing_periodic h.periodic) hm, ← periodic_congr (crossing_periodic h'.periodic) hm]
  exact hle m

/-- The ranks in terms of the crossing numbers and the homes. -/
theorem lt_rank_iff (h : Layout n r) (i : Nat) {d : Nat} (hd : d < n) :
    d + 1 < r i ↔ d < crossing n r (i + n - d) := by
  have := lt_crossing_iff h (i + n - d) hd
  rwa [show i + n - d + d = i + n by omega, h.periodic] at this

theorem pos_rank_iff (h : Layout n r) (hn : 0 < n) (i : Nat) : 0 < r i ↔ 0 < crossing n r i + homes n r i := by
  have := lt_arriving_iff h i hn
  rwa [arriving_eq] at this

/-- **A layout is determined by the homes of its entries.** Two anchored Robin Hood layouts of one ring
    with the same number of entries for each home have the same rank in every slot. -/
theorem Layout.unique (h : Layout n r) (h' : Layout n r') (hn : 0 < n) (ha : Anchored r) (ha' : Anchored r')
    (hh : ∀ i, homes n r i = homes n r' i) (i : Nat) : r i = r' i := by
  have hc : ∀ j, crossing n r j = crossing n r' j := fun j =>
    Nat.le_antisymm (crossing_le h h' hn ha hh j) (crossing_le h' h hn ha' (fun i => (hh i).symm) j)
  -- the two ranks exceed the same numbers
  have hlt : ∀ d, d < r i ↔ d < r' i := by
    intro d
    cases d with
    | zero => rw [pos_rank_iff h hn, pos_rank_iff h' hn, hc, hh]
    | succ d =>
      rcases Nat.lt_or_ge d n with hd | hd
      · rw [lt_rank_iff h i hd, lt_rank_iff h' i hd, hc]
      · have h1 := h.le_cap i; have h2 := h'.le_cap i
        exact ⟨fun _ => by omega, fun _ => by omega⟩
  have h1 := hlt (r i); have h2 := hlt (r' i)
  omega

end RobinHood
