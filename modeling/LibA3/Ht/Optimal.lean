import LibA3.Ht.Terminate
import LibA3.RobinHood.Optimal

/-!
# The longest probe

Where a table keeps its entries decides how far a lookup has to go. No arrangement of the same entries in as many slots has
a shorter longest probe than the one a run of the operations leads to, and `A3_HT_FIND_INDEX` makes at most two turns more
than that probe is long, whether it finds the key or not (`probes_optimal`).
-/

namespace A3Ht

open HT Trans

variable {K V : Type} [Inhabited K] [Inhabited V] {M : Methods K} {t u : HT K V} {d : Nat}

/-- No entry is more than `d` slots from its home. -/
def ProbesWithin (t : HT K V) (d : Nat) : Prop :=
  ∀ i < t.cap, (t.entry i).hash ≠ 0 → t.probeCount i (t.entry i).hash ≤ d

instance (t : HT K V) (d : Nat) : Decidable (ProbesWithin t d) := inferInstanceAs (Decidable (∀ i < t.cap, _))

/-- A table that has the entries of `t` in some of its slots. -/
def Stores (t u : HT K V) : Prop := ∀ e ∈ t.live, ∃ i < u.cap, u.entry i = e

instance [DecidableEq K] [DecidableEq V] (t u : HT K V) : Decidable (Stores t u) :=
  inferInstanceAs (Decidable (∀ e ∈ t.live, _))

/-- What sits at a position with a rank. -/
theorem WF.mem_of_rank (w : WF M t) {p : Nat} (hp : 0 < t.rank p) :
    t.entry (p % t.cap) ∈ t.live ∧ t.rank p = t.probeCount (p % t.cap) (t.entry (p % t.cap)).hash + 1 := by
  have hocc : (t.entry (p % t.cap)).hash ≠ 0 := fun h0 => by
    rw [rank_eq_zero.2 h0] at hp
    exact Nat.lt_irrefl 0 hp
  exact ⟨w.entry_mem_live (Nat.mod_lt _ w.cap_pos) hocc, by rw [rank, rankOf, if_neg hocc]⟩

/-- The home of the entry at a position, as the layout has it. -/
theorem WF.home_mod (w : WF M t) {p : Nat} (hlap : t.cap ≤ p) (hp : 0 < t.rank p) :
    RobinHood.home t.rank p % t.cap = (t.entry (p % t.cap)).hash % t.cap := by
  obtain ⟨_, hrank⟩ := w.mem_of_rank hp
  have hlt := probeCount_lt w.cap_pos (p % t.cap) (t.entry (p % t.cap)).hash
  have hadd := home_add_probeCount w.cap_pos p (t.entry (p % t.cap)).hash
  have hhome : RobinHood.home t.rank p + t.probeCount (p % t.cap) (t.entry (p % t.cap)).hash = p := by
    rw [RobinHood.home, hrank]
    omega
  have hcancel : RobinHood.home t.rank p ≡ (t.entry (p % t.cap)).hash % t.cap [MOD t.cap] := by
    refine Nat.ModEq.add_right_cancel' (t.probeCount (p % t.cap) (t.entry (p % t.cap)).hash) ?_
    rw [hhome]
    exact hadd.symm
  rw [hcancel, Nat.mod_mod]

/-- **No arrangement has a shorter longest probe.** -/
theorem probesWithin_of_stores (w : WF M t) (hcap : u.cap = t.cap) (hstores : Stores t u) (hu : ProbesWithin u d) :
    ProbesWithin t d := by
  have hpos := w.cap_pos
  -- the slot in which `u` has the entry
  have hslot : ∀ e, ∃ i, e ∈ t.live → i < u.cap ∧ u.entry i = e := by
    intro e
    by_cases he : e ∈ t.live
    · obtain ⟨i, hi, heq⟩ := hstores e he
      exact ⟨i, fun _ => ⟨hi, heq⟩⟩
    · exact ⟨0, fun he' => absurd he' he⟩
  choose f hf using hslot
  let g : Nat → Nat := fun p => u.probeCount (f (t.entry (p % t.cap))) (t.entry (p % t.cap)).hash
  have hplace : ∀ p, t.cap ≤ p → 0 < t.rank p →
      (RobinHood.home t.rank p + g p) % t.cap = f (t.entry (p % t.cap)) := by
    intro p hlap hp
    obtain ⟨hlt, _⟩ := hf _ (w.mem_of_rank hp).1
    have hadd := home_add_probeCount (hcap ▸ hpos) (f (t.entry (p % t.cap))) (t.entry (p % t.cap)).hash (t := u)
    rw [Nat.mod_eq_of_lt hlt, hcap] at hadd
    rw [Nat.add_mod, w.home_mod hlap hp, ← Nat.add_mod, ← Nat.mod_add_mod, hadd]
  have hinj : ∀ i j, t.cap ≤ i → t.cap ≤ j → 0 < t.rank i → 0 < t.rank j →
      (RobinHood.home t.rank i + g i) % t.cap = (RobinHood.home t.rank j + g j) % t.cap → i % t.cap = j % t.cap := by
    intro i j hi hj hri hrj heq
    rw [hplace i hi hri, hplace j hj hrj] at heq
    have hmi := (w.mem_of_rank hri).1
    have hmj := (w.mem_of_rank hrj).1
    have hsame : t.entry (i % t.cap) = t.entry (j % t.cap) := by
      rw [← (hf _ hmi).2, heq, (hf _ hmj).2]
    refine w.slot_unique (Nat.mod_lt _ hpos) (Nat.mod_lt _ hpos) (hash_ne_of_mem_live hmi) (hash_ne_of_mem_live hmj) ?_
    rw [hsame]
    exact M.C_equiv.refl _
  intro q hq hocc
  have hrank : t.rank q = t.probeCount q (t.entry q).hash + 1 := by
    rw [rank, Nat.mod_eq_of_lt hq, rankOf, if_neg hocc, Nat.mod_eq_of_lt hq]
  obtain ⟨i, _, hri, hle⟩ := w.layout.optimal hpos w.anchor (g := g) (q := q)
    (fun i => by simp only [g, Nat.add_mod_right]) hinj (by rw [hrank]; exact Nat.succ_pos _)
  have hmi := (w.mem_of_rank hri).1
  obtain ⟨hlt, hent⟩ := hf _ hmi
  have hbound := hu _ hlt (by rw [hent]; exact hash_ne_of_mem_live hmi)
  rw [hent] at hbound
  have hgi : g i ≤ d := hbound
  omega

/-! ## How long a lookup takes -/

/-- The loop of `A3_HT_FIND_INDEX` stops once the probe is longer than any entry's. -/
theorem findIndexLoop_short (w : WF M t) (hd : ProbesWithin t d) (h hash : Nat) (key : K) : ∀ (n m : Nat), m + n = d + 1 →
    ∃ r, findIndexLoop M (n + 1) t ((h + m) % t.cap) m hash key = some r
  | 0, m, hm => by
    have hstop : t.rank (h + m) ≤ m := by
      rcases Nat.eq_zero_or_pos (t.rank (h + m)) with h0 | hpos
      · omega
      · obtain ⟨hmem, hrank⟩ := w.mem_of_rank hpos
        have := hd _ (Nat.mod_lt _ w.cap_pos) (hash_ne_of_mem_live hmem)
        omega
    rw [findIndexLoop, if_pos ((stop_iff t _ _).2 hstop)]
    exact ⟨none, rfl⟩
  | n + 1, m, hm => by
    rw [findIndexLoop]
    split
    · exact ⟨none, rfl⟩
    · split
      · exact ⟨_, rfl⟩
      · rw [succ_pos_mod, Nat.add_assoc]
        exact findIndexLoop_short w hd h hash key n (m + 1) (by omega)

/-- **The longest probe is as short as it can be.** For every table that a run leads to: if the same entries fit into the
slots of any table of the same capacity with no entry more than `d` slots from its home, then none is here, and
`A3_HT_FIND_INDEX` ends within `d + 2` turns for every key. -/
theorem probes_optimal (M : Methods K) (key : Option (List UInt8)) (rand : Nat → UInt8) (canGrow : Bool)
    {l : List (Call K V)} {t u : HT K V} {d : Nat} (h : Run (Step M) (init M key rand canGrow) l t) (hcap : u.cap = t.cap)
    (hstores : Stores t u) (hu : ProbesWithin u d) :
    ProbesWithin t d ∧
    ∀ k, Fuel.Within (fun fuel => findIndexLoop M fuel t (hash M t k % t.cap) 0 (hash M t k) k) (d + 2) := by
  have w := (run_sound h (init_sound M key rand canGrow)).wf
  have hd := probesWithin_of_stores w hcap hstores hu
  refine ⟨hd, fun k => ?_⟩
  obtain ⟨r, hr⟩ := findIndexLoop_short w hd (hash M t k % t.cap) (hash M t k) k (d + 1) 0 (Nat.zero_add _)
  simp only [Nat.add_zero, Nat.mod_mod] at hr
  exact Fuel.within (fun n r => findIndexLoop_succ M n _ _ _ _ _ r) hr

/-- Two keys with one home, the other way round. -/
theorem probes_optimal_swapped :
    let t : HT Nat Nat := ⟨false, 2, 2, List.replicate 32 0, none, [⟨2, 20, 2⟩, ⟨4, 40, 4⟩]⟩
    ProbesWithin t 1 ∧
    ∀ k, Fuel.Within (fun fuel => findIndexLoop numbersInTwo fuel t (hash numbersInTwo t k % t.cap) 0
      (hash numbersInTwo t k) k) (1 + 2) := by
  let u : HT Nat Nat := ⟨false, 2, 2, List.replicate 32 0, none, [⟨4, 40, 4⟩, ⟨2, 20, 2⟩]⟩
  have hstores : Stores ⟨false, 2, 2, List.replicate 32 0, none, [⟨2, 20, 2⟩, ⟨4, 40, 4⟩]⟩ u := by decide
  have hu : ProbesWithin u 1 := by decide
  exact probes_optimal (u := u) numbersInTwo none (fun _ => 0) false (run_callAll [.insert 2 20, .insert 4 40] rfl) rfl
    hstores hu

end A3Ht
