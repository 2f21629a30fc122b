import Mathlib.Data.List.Basic

/-!
# Searching for a sequence

Where a sequence occurs in another, and what a search for its first occurrence finds. Such a search goes on behind the
head (`Found.cons`) until the sequence starts there (`Found.here`); there is one answer (`Found.unique`). Backwards for
a single element likewise (`LastUpTo`).
-/

namespace Text

variable {α : Type} {needle haystack : List α} {c : α} {i j : Nat} {r r' : Option Nat}

def OccursAt (needle haystack : List α) (i : Nat) : Prop := needle <+: haystack.drop i

/-- The answer of a search: the first occurrence, or that there is none. -/
def Found (needle haystack : List α) : Option Nat → Prop
  | none => ∀ i, ¬OccursAt needle haystack i
  | some i => OccursAt needle haystack i ∧ ∀ j, j < i → ¬OccursAt needle haystack j

/-- The first occurrence ends where the haystack does. -/
def OnlyAtEnd (needle haystack : List α) : Prop :=
  ∃ i, Found needle haystack (some i) ∧ i + needle.length = haystack.length

theorem OccursAt.le (hne : needle ≠ []) (h : OccursAt needle haystack i) :
    i + needle.length ≤ haystack.length := by
  have hpos := List.length_pos_of_ne_nil hne
  have hle := h.length_le
  rw [List.length_drop] at hle
  omega

theorem occursAt_zero : OccursAt needle haystack 0 ↔ needle <+: haystack := Iff.rfl

/-! ## Searching from the head on -/

theorem Found.nil (hne : needle ≠ []) : Found needle [] none := by
  intro i h
  rw [OccursAt, List.drop_nil, List.prefix_nil] at h
  exact hne h

theorem Found.here (h : needle <+: haystack) : Found needle haystack (some 0) := ⟨h, fun _ hj => absurd hj (Nat.not_lt_zero _)⟩

theorem Found.cons (h : ¬needle <+: c :: haystack) (hr : Found needle haystack r) :
    Found needle (c :: haystack) (r.map (· + 1)) := by
  cases r with
  | none =>
    intro i
    cases i with
    | zero => exact h
    | succ i => exact hr i
  | some i =>
    refine ⟨hr.1, fun j hj => ?_⟩
    cases j with
    | zero => exact h
    | succ j => exact hr.2 j (Nat.lt_of_succ_lt_succ hj)

theorem Found.unique (h : Found needle haystack r) (h' : Found needle haystack r') : r = r' := by
  cases r with
  | none =>
    cases r' with
    | none => rfl
    | some j => exact absurd h'.1 (h j)
  | some i =>
    cases r' with
    | none => exact absurd h.1 (h' i)
    | some j =>
      rcases Nat.lt_trichotomy i j with hlt | rfl | hlt
      · exact absurd h.1 (h'.2 i hlt)
      · rfl
      · exact absurd h'.1 (h.2 j hlt)

/-- An occurrence at the front, of as much as there is, is all of it. -/
theorem onlyAtEnd_zero (h : Found needle haystack (some 0)) : OnlyAtEnd needle haystack ↔ needle = haystack := by
  constructor
  · rintro ⟨i, hi, hend⟩
    cases h.unique hi
    rw [Nat.zero_add] at hend
    exact (occursAt_zero.1 h.1).eq_of_length hend
  · rintro rfl
    exact ⟨0, h, Nat.zero_add _⟩

/-! ## Searching backwards for one element -/

/-- The last place up to `i` at which `c` stands, or that there is none. -/
def LastUpTo (xs : List α) (c : α) (i : Nat) : Option Nat → Prop
  | none => ∀ j, j ≤ i → xs[j]? ≠ some c
  | some k => k ≤ i ∧ xs[k]? = some c ∧ ∀ j, k < j → j ≤ i → xs[j]? ≠ some c

theorem LastUpTo.here (h : haystack[i]? = some c) : LastUpTo haystack c i (some i) :=
  ⟨Nat.le_refl i, h, fun _ hlt hle => absurd hlt (Nat.not_lt.2 hle)⟩

theorem LastUpTo.zero (h : haystack[0]? ≠ some c) : LastUpTo haystack c 0 none := by
  intro j hj
  rw [Nat.le_zero.1 hj]
  exact h

theorem LastUpTo.succ (h : haystack[i + 1]? ≠ some c) (hr : LastUpTo haystack c i r) : LastUpTo haystack c (i + 1) r := by
  cases r with
  | none =>
    intro j hj
    rcases Nat.le_or_eq_of_le_succ hj with hj | rfl
    · exact hr j hj
    · exact h
  | some k =>
    refine ⟨Nat.le_succ_of_le hr.1, hr.2.1, fun j hlt hj => ?_⟩
    rcases Nat.le_or_eq_of_le_succ hj with hj | rfl
    · exact hr.2.2 j hlt hj
    · exact h

theorem LastUpTo.not_mem (h : LastUpTo haystack c i none) (hi : haystack.length ≤ i + 1) : c ∉ haystack := by
  intro hmem
  obtain ⟨j, hj, hget⟩ := List.mem_iff_getElem.1 hmem
  exact h j (by omega) (by rw [List.getElem?_eq_getElem hj, hget])

/-- With all of the sequence looked at, it is where the last occurrence stands. -/
theorem LastUpTo.eq_length {k : Nat} {as bs : List α} (h : LastUpTo (as ++ c :: bs) c i (some k))
    (hi : (as ++ c :: bs).length ≤ i + 1) (hbs : c ∉ bs) : k = as.length := by
  have hlen : (as ++ c :: bs).length = as.length + (bs.length + 1) := List.length_append
  rcases Nat.lt_trichotomy k as.length with hlt | heq | hgt
  · have hc : (as ++ c :: bs)[as.length]? = some c := by simp
    exact absurd hc (h.2.2 as.length hlt (by omega))
  · exact heq
  · -- behind the last occurrence
    have hget := h.2.1
    obtain ⟨d, rfl⟩ := Nat.exists_eq_add_of_lt hgt
    have hsub : as.length + d + 1 - as.length = d + 1 := by omega
    rw [List.getElem?_append_right (by omega), hsub, List.getElem?_cons_succ] at hget
    exact absurd (List.mem_of_getElem? hget) hbs

end Text
