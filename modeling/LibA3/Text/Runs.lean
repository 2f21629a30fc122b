import Mathlib.Data.List.Basic

/-!
# Maximal runs

The pieces of a sequence between separators, without the empty ones. The first is what a scanner finds that skips
separators and then takes what are none; the others are those of the rest.
-/

namespace Text

variable {α : Type} {p : α → Bool} {s : List α} {c : α}

/-- The maximal runs of elements that are no separators, in order. -/
def runs (p : α → Bool) (s : List α) : List (List α) := (s.splitOnP p).filter fun t => !t.isEmpty

theorem runs_sep (h : p c = true) : runs p (c :: s) = runs p s := by
  have hsplit : ([] ++ c :: s).splitOnP p = [] :: s.splitOnP p :=
    List.splitOnP_append_cons_of_forall_mem (fun _ hx => absurd hx List.not_mem_nil) c h s
  rw [List.nil_append] at hsplit
  rw [runs, hsplit]
  rfl

/-- Separators in front make no difference. -/
theorem runs_dropWhile : runs p (s.dropWhile p) = runs p s := by
  induction s with
  | nil => rfl
  | cons c s ih =>
    rw [List.dropWhile_cons]
    split
    · next h => rw [ih, runs_sep h]
    · rfl

/-- The first run of a sequence that starts with one. -/
theorem runs_append {t rest : List α} (ht : t ≠ []) (hnone : ∀ x ∈ t, p x = false)
    (hrest : ∀ c rest', rest = c :: rest' → p c = true) : runs p (t ++ rest) = t :: runs p rest := by
  have hkeep : ∀ l : List (List α), (t :: l).filter (fun t => !t.isEmpty) = t :: l.filter fun t => !t.isEmpty := by
    intro l
    simp [ht]
  cases rest with
  | nil =>
    have hsplit : t.splitOnP p = [t] := List.splitOnP_eq_singleton hnone
    rw [List.append_nil, runs, hsplit, hkeep]
    rfl
  | cons c rest =>
    have hc := hrest c rest rfl
    rw [runs_sep hc, runs, List.splitOnP_append_cons_of_forall_mem hnone c hc, hkeep, runs]

/-- What dropping stopped at. -/
theorem head_dropWhile {q : α → Bool} {s' : List α} (h : s.dropWhile q = c :: s') : q c = false := by
  have hne : s.dropWhile q ≠ [] := by
    rw [h]
    exact List.cons_ne_nil _ _
  have hhead := List.head_dropWhile_not q hne
  rw [← hhead]
  congr 1
  simp only [h, List.head_cons]

theorem runs_scan : runs p s =
    if s.dropWhile p = [] then []
    else ((s.dropWhile p).takeWhile fun c => !p c) :: runs p ((s.dropWhile p).dropWhile fun c => !p c) := by
  rw [← runs_dropWhile]
  split
  · next h =>
    rw [h]
    rfl
  · next h =>
    obtain ⟨c, s', hs⟩ := List.exists_cons_of_ne_nil h
    have hc : p c = false := head_dropWhile hs
    have hne : ((s.dropWhile p).takeWhile fun c => !p c) ≠ [] := by
      rw [hs, List.takeWhile_cons, hc]
      exact List.cons_ne_nil _ _
    conv_lhs => rw [← List.takeWhile_append_dropWhile (p := fun c => !p c) (l := s.dropWhile p)]
    refine runs_append hne (fun x hx => ?_) fun c rest hrest => ?_
    · simpa using List.all_eq_true.1 List.all_takeWhile x hx
    · simpa using head_dropWhile hrest

/-- The first run, or nothing. -/
theorem runs_first : (runs p s).getD 0 [] = (s.dropWhile p).takeWhile fun c => !p c := by
  rw [runs_scan]
  split
  · next h =>
    rw [h]
    rfl
  · rfl

/-- The other runs are those of the rest. -/
theorem runs_rest (i : Nat) :
    (runs p s).getD (i + 1) [] = (runs p ((s.dropWhile p).dropWhile fun c => !p c)).getD i [] := by
  rw [runs_scan]
  split
  · next h =>
    rw [h]
    rfl
  · rfl

theorem runs_tail : runs p ((s.dropWhile p).dropWhile fun c => !p c) = (runs p s).tail := by
  rw [runs_scan (s := s)]
  split
  · next h =>
    rw [h]
    rfl
  · rfl

/-! ## Records -/

/-- Empty, or with a separator at the end: what is appended starts a run of its own. -/
def Closed (p : α → Bool) (s : List α) : Prop := ∀ c, s.getLast? = some c → p c = true

theorem closed_nil : Closed p ([] : List α) := nofun

theorem closed_concat (h : p c = true) : Closed p (s ++ [c]) := by
  intro c' hc'
  rw [List.getLast?_concat] at hc'
  cases hc'
  exact h

theorem Closed.suffix {s' : List α} (h : Closed p s) (hs : s' <:+ s) : Closed p s' := by
  obtain ⟨t, rfl⟩ := hs
  intro c hc
  refine h c ?_
  rw [List.getLast?_append, hc, Option.some_or]

/-- A run appended with its separator is the last one. -/
theorem runs_concat {t : List α} (hs : Closed p s) (ht : t ≠ []) (hnone : ∀ x ∈ t, p x = false) (hc : p c = true) :
    runs p (s ++ (t ++ [c])) = runs p s ++ [t] := by
  have hlast : runs p (t ++ [c]) = [t] := by
    rw [runs_append ht hnone (fun c' rest' h => by cases h; exact hc), runs_sep hc]
    rfl
  have hsplit : ∀ (s' r : List α) (c' : α), p c' = true → runs p (s' ++ c' :: r) = runs p s' ++ runs p r := by
    intro s' r c' hc'
    rw [runs, List.splitOnP_append_cons _ _ hc', List.filter_append]
    rfl
  rcases List.eq_nil_or_concat s with rfl | ⟨s', c', rfl⟩
  · exact hlast
  · rw [List.concat_eq_append] at hs ⊢
    have hc' : p c' = true := hs c' List.getLast?_concat
    rw [List.append_assoc, List.singleton_append, hsplit _ _ _ hc', hsplit _ _ _ hc', hlast]
    exact congrArg (· ++ [t]) (List.append_nil _).symm

end Text
