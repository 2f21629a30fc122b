import LibA3.Amortized
import LibA3.Ht.Run

/-!
# What growing costs

A table that grows inserts its entries anew, one after the other. Doubling the capacity pays for it: as long as nobody calls
`A3_HT_RESIZE`, all entries inserted anew by all growths are no more than the capacity has gained, and the capacity is no
more than the number of INSERT calls asks for (`rehash_amortized`).
-/

namespace A3Ht

open HT Trans

variable {K V : Type} [Inhabited K] [Inhabited V] {M : Methods K} {t t' : HT K V} {a : Call K V} {l : List (Call K V)}

/-- The calls of `A3_HT_INSERT_AT` that `A3_HT_RESIZE` makes (`ht.h:275`): one for each entry, if there is a new array. -/
def rehashed (t : HT K V) (_ : Call K V) (t' : HT K V) : Nat := if t'.cap = t.cap then 0 else t.live.length

def Op.isInsert : Op K V → Bool
  | .insert _ _ => true
  | _ => false

def Op.isResize : Op K V → Bool
  | .resize _ => true
  | _ => false

/-- A call other than `A3_HT_RESIZE`: the table grows by itself, if it does. -/
def OwnStep (M : Methods K) (t : HT K V) (a : Call K V) (t' : HT K V) : Prop := Step M t a t' ∧ a.op.isResize = false

/-- The INSERT calls of a run. -/
def inserts (l : List (Call K V)) : Nat := l.countP fun a => a.op.isInsert

omit [Inhabited K] [Inhabited V] in
theorem inserts_append (l : List (Call K V)) (a : Call K V) :
    inserts (l ++ [a]) = inserts l + if a.op.isInsert then 1 else 0 := by
  rw [inserts, List.countP_append, List.countP_singleton, inserts]

/-! ## One call -/

/-- What a call does to the capacity and the counter. -/
theorem OwnStep.grown (h : OwnStep M t a t') (s : Sound M t) :
    (t'.cap = t.cap ∧ t'.size ≤ t.size + (if a.op.isInsert then 1 else 0)) ∨
      (a.op.isInsert = true ∧ t'.cap = t.cap * 2 ∧ t'.size = t.size + 1 ∧ t.cap * M.loadFactor ≤ t.size * 100) := by
  have hgrown : ∀ {t' : HT K V},
      SameBut { t with size := t.size + 1, cap := if grows M t then t.cap * 2 else t.cap } t' →
      (t'.cap = t.cap ∧ t'.size ≤ t.size + 1) ∨
        (t'.cap = t.cap * 2 ∧ t'.size = t.size + 1 ∧ t.cap * M.loadFactor ≤ t.size * 100) := by
    intro t' hs
    have hsize : t'.size = t.size + 1 := by rw [hs]
    have hcap : t'.cap = if grows M t then t.cap * 2 else t.cap := by rw [hs]
    cases hg : grows M t with
    | true =>
      rw [hg, if_pos rfl] at hcap
      rw [grows, Bool.and_eq_true, decide_eq_true_eq] at hg
      exact Or.inr ⟨hcap, hsize, hg.1⟩
    | false =>
      rw [hg, if_neg Bool.false_ne_true] at hcap
      exact Or.inl ⟨hcap, Nat.le_of_eq hsize⟩
  obtain ⟨hstep, hown⟩ := h
  have heff := (step_effect s hstep).1
  cases heff with
  | insertRefused => exact Or.inl ⟨rfl, Nat.le_succ _⟩
  | insertAbsent _ _ _ _ _ _ hs => exact (hgrown hs).imp id fun hg => ⟨rfl, hg⟩
  | insertPresent _ _ _ _ _ _ _ _ _ hs => exact (hgrown hs).imp id fun hg => ⟨rfl, hg⟩
  | deleteAbsent => exact Or.inl ⟨rfl, Nat.le_refl _⟩
  | deletePresent _ _ _ _ _ hs =>
    have hsize : t'.size = t.size - 1 := by rw [hs]
    exact Or.inl ⟨by rw [hs], by rw [hsize]; exact Nat.le_trans (Nat.sub_le _ _) (Nat.le_add_right _ _)⟩
  | find => exact Or.inl ⟨rfl, Nat.le_refl _⟩
  | resize => cases hown
  | setDuplicateCb => exact Or.inl ⟨rfl, Nat.le_refl _⟩

/-- Doubling the capacity pays for inserting the entries anew. -/
theorem OwnStep.rehashed_le (h : OwnStep M t a t') (s : Sound M t) : rehashed t a t' + t.cap ≤ t'.cap := by
  have hlive := s.wf.live_le_cap
  unfold rehashed
  rcases h.grown s with ⟨hcap, _⟩ | ⟨_, hcap, _⟩
  · rw [if_pos hcap, hcap]
    omega
  · split <;> omega

/-! ## Runs -/

/-- The capacity, and the counter, in terms of the INSERT calls. -/
theorem grown_run {t0 : HT K V} (h : Run (OwnStep M) t0 l t) (s0 : Sound M t0) (h0 : t0.size = 0) :
    t.size ≤ inserts l ∧ (t.cap = t0.cap ∨ t.cap * M.loadFactor ≤ 200 * inserts l) := by
  have hstart : Sound M t0 ∧ t0.size ≤ inserts ([] : List (Call K V)) ∧
      (t0.cap = t0.cap ∨ t0.cap * M.loadFactor ≤ 200 * inserts ([] : List (Call K V))) :=
    ⟨s0, Nat.le_of_eq h0, Or.inl rfl⟩
  have hinv := h.invariant_trace
    (P := fun t l => Sound M t ∧ t.size ≤ inserts l ∧ (t.cap = t0.cap ∨ t.cap * M.loadFactor ≤ 200 * inserts l))
    (fun t l a t' hP hs => ?_) hstart
  · exact hinv.2
  · obtain ⟨s, hsize, hcap⟩ := hP
    refine ⟨(step_effect s hs.1).2, ?_⟩
    rw [inserts_append]
    rcases hs.grown s with ⟨hcap', hsize'⟩ | ⟨hins, hcap', hsize', hload⟩
    · rw [hcap']
      refine ⟨by omega, hcap.imp id fun hle => ?_⟩
      omega
    · rw [hins, if_pos rfl, hcap']
      refine ⟨by omega, Or.inr ?_⟩
      rw [Nat.mul_right_comm]
      omega

/-- **Growing is cheap.** In every run of calls other than `A3_HT_RESIZE`, the entries that all growths insert anew are at
most what the capacity has gained; and the capacity is the initial one, or at most 200 INSERT calls over the load factor. So
there are `200 / loadFactor` of them for each INSERT call at most. -/
theorem rehash_amortized (M : Methods K) (key : Option (List UInt8)) (rand : Nat → UInt8) (canGrow : Bool)
    {l : List (Call K V)} {t : HT K V} {c : Nat} (h : Spent (OwnStep M) rehashed (init M key rand canGrow) l t c) :
    c + M.initialCap ≤ t.cap ∧ (t.cap = M.initialCap ∨ t.cap * M.loadFactor ≤ 200 * inserts l) ∧
      c * M.loadFactor ≤ 200 * inserts l := by
  have s0 : Sound M (init M key rand canGrow : HT K V) := init_sound M key rand canGrow
  have hpaid := h.le (P := Sound M) (fun t => -(t.cap : Int)) (fun _ => 0)
    (fun t a t' s hs => ⟨(step_effect s hs.1).2, by have := hs.rehashed_le s; omega⟩) s0
  have hcap0 : (init M key rand canGrow : HT K V).cap = M.initialCap := rfl
  have hgain : c + M.initialCap ≤ t.cap := by
    simp only [List.map_const', List.sum_replicate_nat, Nat.mul_zero, hcap0] at hpaid
    omega
  obtain ⟨_, hcap⟩ := grown_run h.run s0 rfl
  rw [hcap0] at hcap
  refine ⟨hgain, hcap, ?_⟩
  rcases hcap with heq | hle
  · have hzero : c = 0 := by omega
    rw [hzero, Nat.zero_mul]
    exact Nat.zero_le _
  · exact Nat.le_trans (Nat.mul_le_mul_right _ (by omega)) hle

/-- The third key makes a table of two slots grow. -/
theorem rehash_amortized_three : ∃ t : HT Nat Nat, ∃ l c,
    l.map Call.op = [.insert 2 20, .insert 4 40, .insert 6 60] ∧ t.cap = 4 ∧
      Spent (OwnStep numbersInTwo) rehashed (init numbersInTwo none (fun _ => 0) true) l t c ∧
      c + 2 ≤ t.cap ∧ (t.cap = 2 ∨ t.cap * 90 ≤ 200 * inserts l) ∧ c * 90 ≤ 200 * inserts l := by
  have hspent : Spent (OwnStep numbersInTwo) rehashed (init numbersInTwo none (fun _ => 0) true)
      [⟨.insert 2 20, false, false, .bool true⟩, ⟨.insert 4 40, false, false, .bool true⟩,
        ⟨.insert 6 60, false, false, .bool true⟩] _ _ :=
    .cons ⟨⟨trivial, rfl, rfl, rfl⟩, rfl⟩ (.cons ⟨⟨trivial, rfl, rfl, rfl⟩, rfl⟩ (.cons ⟨⟨trivial, rfl, rfl, rfl⟩, rfl⟩ (.nil _)))
  exact ⟨_, _, _, rfl, rfl, hspent, rehash_amortized numbersInTwo none (fun _ => 0) true hspent⟩

end A3Ht
