/-!
# Labelled runs

A step relation on a state type, each step carrying a label. A component says what one step can do;
what holds after any number of steps follows from the two rules below: the invariant rule
(`Run.invariant`) and the simulation rule (`Run.simulate`).
-/

namespace Trans

section Runs
variable {σ α τ : Type} {step : σ → α → σ → Prop}

/-- A finite run, with the labels of its steps in order. -/
inductive Run (step : σ → α → σ → Prop) : σ → List α → σ → Prop
  | nil (s : σ) : Run step s [] s
  | cons {s s' s'' : σ} {a : α} {l : List α} : step s a s' → Run step s' l s'' → Run step s (a :: l) s''

/-- **Invariant rule.** What every step keeps, every run keeps. -/
theorem Run.invariant {P : σ → Prop} (hstep : ∀ s a s', P s → step s a s' → P s') {s s' : σ} {l : List α}
    (h : Run step s l s') (h0 : P s) : P s' := by
  induction h with
  | nil => exact h0
  | cons hs _ ih => exact ih (hstep _ _ _ h0 hs)

/-- **Simulation rule.** If every step from related states can be matched, every run can. -/
theorem Run.simulate {astep : τ → α → τ → Prop} {R : σ → τ → Prop}
    (hsim : ∀ s t a s', R s t → step s a s' → ∃ t', astep t a t' ∧ R s' t')
    {s s' : σ} {l : List α} (h : Run step s l s') : ∀ {t : τ}, R s t → ∃ t', Run astep t l t' ∧ R s' t' := by
  induction h with
  | nil => exact fun hr => ⟨_, .nil _, hr⟩
  | cons hs _ ih =>
    intro t hr
    obtain ⟨t1, ha, hr1⟩ := hsim _ _ _ _ hr hs
    obtain ⟨t2, hrun, hr2⟩ := ih hr1
    exact ⟨t2, .cons ha hrun, hr2⟩

/-- Invariant rule for a property of the state and the labels seen so far. -/
theorem Run.invariant_trace {P : σ → List α → Prop}
    (hstep : ∀ s l a s', P s l → step s a s' → P s' (l ++ [a])) {s s' : σ} {l : List α}
    (h : Run step s l s') : ∀ {l0 : List α}, P s l0 → P s' (l0 ++ l) := by
  induction h with
  | nil => intro l0 h0; simpa using h0
  | @cons s s1 s2 a l hs _ ih =>
    intro l0 h0
    have := ih (hstep _ _ _ _ h0 hs)
    rwa [List.append_assoc, List.singleton_append] at this

theorem Run.single {s s' : σ} {a : α} (h : step s a s') : Run step s [a] s' := .cons h (.nil _)

/-- One step more. -/
theorem Run.concat {s s' s'' : σ} {a : α} {l : List α} (h : Run step s l s') (hs : step s' a s'') :
    Run step s (l ++ [a]) s'' := by
  induction h with
  | nil => exact .single hs
  | cons hs' _ ih => exact .cons hs' (ih hs)

/-- A run of a system with stronger steps is a run of the weaker one. -/
theorem Run.mono {step' : σ → α → σ → Prop} (hle : ∀ s a s', step s a s' → step' s a s') {s s' : σ} {l : List α}
    (h : Run step s l s') : Run step' s l s' := by
  induction h with
  | nil => exact .nil _
  | cons hs _ ih => exact .cons (hle _ _ _ hs) ih

theorem Run.append {s s' s'' : σ} {l l' : List α} (h : Run step s l s') (h' : Run step s' l' s'') :
    Run step s (l ++ l') s'' := by
  induction h with
  | nil => exact h'
  | cons hs _ ih => exact .cons hs (ih h')

/-- **Simulation rule**, with any number of steps that show what the one step shows. -/
theorem Run.simulate_weak {β γ : Type} {astep : τ → β → τ → Prop} {shown : α → Option γ} {ashown : β → Option γ}
    {R : σ → τ → Prop}
    (hsim : ∀ s t a s', R s t → step s a s' →
      ∃ l t', Run astep t l t' ∧ l.filterMap ashown = (shown a).toList ∧ R s' t')
    {s s' : σ} {l : List α} (h : Run step s l s') :
    ∀ {t : τ}, R s t → ∃ l' t', Run astep t l' t' ∧ l'.filterMap ashown = l.filterMap shown ∧ R s' t' := by
  induction h with
  | nil => exact fun hr => ⟨[], _, .nil _, rfl, hr⟩
  | @cons s s1 s2 a l hs _ ih =>
    intro t hr
    obtain ⟨l1, t1, hrun1, hshown1, hr1⟩ := hsim _ _ _ _ hr hs
    obtain ⟨l2, t2, hrun2, hshown2, hr2⟩ := ih hr1
    refine ⟨l1 ++ l2, t2, hrun1.append hrun2, ?_, hr2⟩
    rw [List.filterMap_append, hshown1, hshown2]
    cases hx : shown a with
    | none => rw [List.filterMap_cons_none hx]; rfl
    | some x => rw [List.filterMap_cons_some hx]; rfl

end Runs

end Trans
