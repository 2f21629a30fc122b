import LibA3.Trans
import Mathlib.Logic.Function.Basic

/-!
# Atomic objects

A sequential object is a relation `apply v op r v'`: in state `v` the operation `op` may return `r` and leave `v'`.
Threads call operations on a shared implementation, one call of each thread at a time; what they see of it is a
history of calls and returns. The history is linearizable (`Linearizable`) if a point can be put between each call
that has returned and its return, such that at these points, in their order, the sequential object returns what the
calls return.

The atomic object (`Step`) is the machine that has these histories and no others: each call takes effect in one
step of its own. A system is shown to be linearizable by simulating it (`linearizable_of_simulation`).
-/

namespace Atomic

open Trans

variable {σ ι ω ρ τ α : Type} {apply : σ → ω → ρ → σ → Prop}

/-- What a client sees. -/
inductive Shown (ι ω ρ : Type) where
  | call (t : ι) (op : ω)
  | ret (t : ι) (r : ρ)

/-- A history with the points at which the calls take effect. -/
inductive Act (ι ω ρ : Type) where
  | call (t : ι) (op : ω)
  | point (t : ι) (op : ω) (r : ρ)
  | ret (t : ι) (r : ρ)

namespace Act

def shown : Act ι ω ρ → Option (Shown ι ω ρ)
  | .call t op => some (.call t op)
  | .point _ _ _ => none
  | .ret t r => some (.ret t r)

def effect : Act ι ω ρ → Option (ω × ρ)
  | .point _ op r => some (op, r)
  | _ => none

def thread : Act ι ω ρ → ι
  | .call t _ => t
  | .point t _ _ => t
  | .ret t _ => t

end Act

/-- Where a thread is with its call. -/
inductive Phase (ω ρ : Type) where
  | idle
  | called (op : ω)
  | done (r : ρ)

/-- What one thread does: it calls, the call takes effect with some result, and returns it. -/
def Alternates : Phase ω ρ → List (Act ι ω ρ) → Prop
  | _, [] => True
  | .idle, .call _ op :: l => Alternates (.called op) l
  | .called op, .point _ op' r :: l => op' = op ∧ Alternates (.done r) l
  | .done r, .ret _ r' :: l => r' = r ∧ Alternates .idle l
  | _, _ :: _ => False

/-- One operation of the sequential object, with its result. -/
def Apply (apply : σ → ω → ρ → σ → Prop) (v : σ) (a : ω × ρ) (v' : σ) : Prop := apply v a.1 a.2 v'

/-- `l` is the history `h` with the points added. -/
structure Linearizes [DecidableEq ι] (apply : σ → ω → ρ → σ → Prop) (v : σ) (h : List (Shown ι ω ρ)) (l : List (Act ι ω ρ)) :
    Prop where
  shown : l.filterMap Act.shown = h
  threads : ∀ t, Alternates .idle (l.filter fun a => a.thread = t)
  legal : ∃ v', Run (Apply apply) v (l.filterMap Act.effect) v'

def Linearizable [DecidableEq ι] (apply : σ → ω → ρ → σ → Prop) (v : σ) (h : List (Shown ι ω ρ)) : Prop :=
  ∃ l, Linearizes apply v h l

/-! ## The atomic object -/

structure State (σ ι ω ρ : Type) where
  val : σ
  phase : ι → Phase ω ρ

def start (v : σ) : State σ ι ω ρ := ⟨v, fun _ => .idle⟩

def State.put (s : State σ ι ω ρ) (v : σ) : State σ ι ω ρ := { s with val := v }

@[simp] theorem State.put_val (s : State σ ι ω ρ) (v : σ) : (s.put v).val = v := rfl

@[simp] theorem State.put_phase (s : State σ ι ω ρ) (v : σ) : (s.put v).phase = s.phase := rfl

section Machine
variable [DecidableEq ι]

def State.at (s : State σ ι ω ρ) (t : ι) (p : Phase ω ρ) : State σ ι ω ρ := { s with phase := Function.update s.phase t p }

@[simp] theorem State.at_val (s : State σ ι ω ρ) (t : ι) (p : Phase ω ρ) : (s.at t p).val = s.val := rfl

@[simp] theorem State.at_self (s : State σ ι ω ρ) (t : ι) (p : Phase ω ρ) : (s.at t p).phase t = p :=
  Function.update_self ..

theorem State.at_ne {t t' : ι} (h : t' ≠ t) (s : State σ ι ω ρ) (p : Phase ω ρ) : (s.at t p).phase t' = s.phase t' :=
  Function.update_of_ne h ..

inductive Step (apply : σ → ω → ρ → σ → Prop) : State σ ι ω ρ → Act ι ω ρ → State σ ι ω ρ → Prop
  | call (s : State σ ι ω ρ) (t : ι) (op : ω) : s.phase t = .idle → Step apply s (.call t op) (s.at t (.called op))
  | point (s : State σ ι ω ρ) (t : ι) (op : ω) (r : ρ) (v : σ) : s.phase t = .called op → apply s.val op r v →
      Step apply s (.point t op r) ((s.at t (.done r)).put v)
  | ret (s : State σ ι ω ρ) (t : ι) (r : ρ) : s.phase t = .done r → Step apply s (.ret t r) (s.at t .idle)

variable {s s' : State σ ι ω ρ} {l : List (Act ι ω ρ)} {a : Act ι ω ρ} {t : ι}

/-- A step of thread `t` and then what `t` goes on with. -/
theorem Step.alternates (hs : Step apply s a s') (h : Alternates (s'.phase t) (l.filter fun b => b.thread = t)) :
    Alternates (s.phase t) ((a :: l).filter fun b => b.thread = t) := by
  by_cases ht : a.thread = t
  · rw [List.filter_cons_of_pos (by simpa using ht)]
    subst ht
    cases hs with
    | call t op hidle =>
      rw [Act.thread, State.at_self] at h
      rw [Act.thread, hidle]
      exact h
    | point t op r v hcalled _ =>
      rw [Act.thread, State.put_phase, State.at_self] at h
      rw [Act.thread, hcalled]
      exact ⟨rfl, h⟩
    | ret t r hdone =>
      rw [Act.thread, State.at_self] at h
      rw [Act.thread, hdone]
      exact ⟨rfl, h⟩
  · rw [List.filter_cons_of_neg (by simpa using ht)]
    have hsame : s'.phase t = s.phase t := by
      cases hs with
      | call t' op _ => exact State.at_ne (Ne.symm ht) s _
      | point t' op r v _ _ => exact State.at_ne (Ne.symm ht) s _
      | ret t' r _ => exact State.at_ne (Ne.symm ht) s _
    rwa [← hsame]

theorem run_alternates (h : Run (Step apply) s l s') : Alternates (s.phase t) (l.filter fun a => a.thread = t) := by
  induction h with
  | nil s => cases s.phase t <;> trivial
  | cons hs _ ih => exact hs.alternates ih

theorem run_legal (h : Run (Step apply) s l s') : Run (Apply apply) s.val (l.filterMap Act.effect) s'.val := by
  induction h with
  | nil s => exact .nil _
  | @cons s s1 s2 a l hs _ ih =>
    cases hs with
    | call t op _ => exact ih
    | point t op r v _ happly => exact .cons happly ih
    | ret t r _ => exact ih

/-- **The histories of the atomic object are linearizable.** -/
theorem run_linearizes {v : σ} (h : Run (Step apply) (start v) l s') : Linearizes apply v (l.filterMap Act.shown) l :=
  ⟨rfl, fun _ => run_alternates h, s'.val, run_legal h⟩

/-- **Simulation rule.** A system each step of which the atomic object can follow, showing the same, is linearizable. -/
theorem linearizable_of_simulation {step : τ → α → τ → Prop} {shown : α → Option (Shown ι ω ρ)}
    {R : τ → State σ ι ω ρ → Prop}
    (hsim : ∀ c s a c', R c s → step c a c' →
      ∃ l s', Run (Step apply) s l s' ∧ l.filterMap Act.shown = (shown a).toList ∧ R c' s')
    {c c' : τ} {v : σ} {as : List α} (h : Run step c as c') (hstart : R c (start v)) :
    Linearizable apply v (as.filterMap shown) := by
  obtain ⟨l, s', hrun, hshown, _⟩ := h.simulate_weak hsim hstart
  exact ⟨l, hshown ▸ run_linearizes hrun⟩

end Machine

end Atomic
