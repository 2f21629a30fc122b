import LibA3.Links.Loop
import LibA3.Ll.Refine

/-!
# Removing items while iterating

`A3_LL_FOR_EACH` and `A3_LL_FOR_EACH_REV` with a body that takes some of its items out of the list, and may put them into
another. Taking out the current item changes the link that leads to the next one, and not those behind it.
-/

namespace A3Ll

open Fallible Trans Links

variable {L N : Type} [DecidableEq L] [DecidableEq N] {m m' m0 : Mem L N} {A : Lists L N} {l : L} {xs as bs : List N}
  {x : N} {s : Mem L N × Lists L N} {calls : List (Op L N)} {fate : N → Fate L} {arrange : List N → List N}

/-! ## The loops -/

/-- What is done with an item that has been taken out -/
def put (m : Mem L N) (elem : N) : Fate L → Except Fault (Mem L N)
  | .keep | .remove => .ok m
  | .push l => push m l elem
  | .enqueue l => enqueue m l elem

/-- A loop's body -/
def body (fate : N → Fate L) (m : Mem L N) : Ptr L N → Except Fault (Mem L N)
  | .node elem =>
    if (fate elem).kept then .ok m
    else do
      let m ← remove m elem
      put m elem (fate elem)
  | .null | .sentinel _ | .wild => .error .badAccess

def forward : Walk (Mem L N) (Ptr L N) Fault := ⟨.null, .diverges, nextElem⟩

def backward : Walk (Mem L N) (Ptr L N) Fault := ⟨.null, .diverges, prevElem⟩

/-- `A3_LL_FOR_EACH` (`ll.h:179`) -/
def forEachDo (fate : N → Fate L) (fuel : Nat) (m : Mem L N) (l : L) : Except Fault (List (Ptr L N) × Mem L N) :=
  forward.forEach (fun _ => body fate) fuel m (headElem m l)

/-- `A3_LL_FOR_EACH_REV` (`ll.h:185`) -/
def forEachRevDo (fate : N → Fate L) (fuel : Nat) (m : Mem L N) (l : L) : Except Fault (List (Ptr L N) × Mem L N) :=
  backward.forEach (fun _ => body fate) fuel m (endElem m l)

/-! ## One item -/

theorem put_spec {f : Fate L} (h : Inv m A) (hfree : Free A x) (hgoal : ∀ l', f.goal = some l' → (A l').isSome) :
    ∃ m' A', put m x f = .ok m' ∧ Inv m' A' ∧ Lasts A A' ∧ ∀ l, f.goal ≠ some l → A' l = A l := by
  cases f with
  | keep => exact ⟨m, A, rfl, h, fun _ h => h, fun _ _ => rfl⟩
  | remove => exact ⟨m, A, rfl, h, fun _ h => h, fun _ _ => rfl⟩
  | push l' =>
    obtain ⟨ys, hys⟩ := Option.isSome_iff_exists.1 (hgoal l' rfl)
    obtain ⟨m', hret, h'⟩ := step_total h (ListStep.push l' x ys hys hfree)
    exact ⟨m', _, hret, h', Lasts.refl.update l' _, Fate.update_other rfl _ _⟩
  | enqueue l' =>
    obtain ⟨ys, hys⟩ := Option.isSome_iff_exists.1 (hgoal l' rfl)
    obtain ⟨m', hret, h'⟩ := step_total h (ListStep.enqueue l' x ys hys hfree)
    exact ⟨m', _, hret, h', Lasts.refl.update l' _, Fate.update_other rfl _ _⟩

theorem body_spec (h : Inv m A) (hA : A l = some (as ++ x :: bs))
    (hgoal : ∀ l', (fate x).goal = some l' → l' ≠ l ∧ (A l').isSome) :
    ∃ m' A', body fate m (.node x) = .ok m' ∧ Inv m' A' ∧
      A' l = some (as ++ [x].filter (fun y => (fate y).kept) ++ bs) ∧ Lasts A A' := by
  rw [body]
  by_cases hkept : (fate x).kept = true
  · have hfilter : [x].filter (fun y => (fate y).kept) = [x] := by simp [hkept]
    rw [if_pos hkept, hfilter, List.append_assoc]
    exact ⟨m, A, rfl, h, hA, Lasts.refl⟩
  · have hfilter : [x].filter (fun y => (fate y).kept) = [] := by simp [hkept]
    rw [if_neg hkept, hfilter, List.append_nil]
    obtain ⟨m1, hremove, h1⟩ := step_total h (ListStep.remove l x as bs hA)
    have hlasts1 : Lasts A (Function.update A l (some (as ++ bs))) := Lasts.refl.update l _
    obtain ⟨m', A', hput, h', hlasts, hsame⟩ := put_spec h1 (h.linked.free_removed hA) fun l' hl' =>
      hlasts1 l' (hgoal l' hl').2
    have hremove' : remove m x = .ok m1 := hremove
    refine ⟨m', A', ?_, h', ?_, fun l' hsome => hlasts l' (hlasts1 l' hsome)⟩
    · rw [hremove', ok_bind, hput]
    · rw [hsame l fun hl => (hgoal l hl).1 rfl, Function.update_self]

/-! ## All of them -/

/-- In the memory the list holds `arrange (done ++ rest)`. -/
def At (fate : N → Fate L) (l : L) (arrange : List N → List N) (m : Mem L N) (done rest : List N) : Prop :=
  ∃ A, Inv m A ∧ A l = some (arrange (done ++ rest)) ∧ Goals fate A l rest

theorem forward_keeps (fate : N → Fate L) (l : L) :
    Keeps forward (fun _ => body fate) Ptr.node (fun x => (fate x).kept) (At fate l id) := by
  refine ⟨nofun, ?_, ?_⟩
  · rintro m done x rest ⟨A, h, hA, -⟩
    exact nextElem_spec h hA
  · rintro m done x rest ⟨A, h, hA, hgoals⟩
    obtain ⟨m', A', hret, h', hA', hlasts⟩ := body_spec h hA (hgoals x List.mem_cons_self)
    exact ⟨m', 0, fun _ _ => hret, A', h', hA', hgoals.tail hlasts⟩

theorem backward_keeps (fate : N → Fate L) (l : L) :
    Keeps backward (fun _ => body fate) Ptr.node (fun x => (fate x).kept) (At fate l List.reverse) := by
  have hsplit : ∀ (done rest : List N) (x : N), (done ++ x :: rest).reverse = rest.reverse ++ x :: done.reverse := by
    simp
  refine ⟨nofun, ?_, ?_⟩
  · rintro m done x rest ⟨A, h, hA, -⟩
    rw [hsplit] at hA
    have hprev := prevElem_spec h hA
    rwa [List.reverse_reverse] at hprev
  · rintro m done x rest ⟨A, h, hA, hgoals⟩
    rw [hsplit] at hA
    obtain ⟨m', A', hret, h', hA', hlasts⟩ := body_spec h hA (hgoals x List.mem_cons_self)
    refine ⟨m', 0, fun _ _ => hret, A', h', ?_, hgoals.tail hlasts⟩
    rw [hA', List.reverse_append, List.reverse_append, ← List.filter_reverse, List.append_assoc]
    rfl

/-- **The loops visit what was in the list at the start**, forwards or backwards, and leave what their body has not taken
out. -/
theorem forEach_removing (h : Run Step (start m0) calls s) (hA : s.2 l = some xs) (hgoals : Goals fate s.2 l xs) :
    (∃ m' k, (∀ fuel, k ≤ fuel → forEachDo fate fuel s.1 l = .ok (xs.map .node, m')) ∧
      Shows m' l (xs.filter fun x => (fate x).kept)) ∧
    ∃ m' k, (∀ fuel, k ≤ fuel → forEachRevDo fate fuel s.1 l = .ok (xs.reverse.map .node, m')) ∧
      Shows m' l (xs.filter fun x => (fate x).kept) := by
  have hinv := run_inv h
  constructor
  · have hat : At fate l id s.1 [] xs := ⟨s.2, hinv, hA, hgoals⟩
    obtain ⟨m', k, hloop, A', h', hA', -⟩ := (forward_keeps fate l).forEach hat
    refine ⟨m', k, fun fuel hfuel => ?_, shows_of_inv h' (by rwa [List.append_nil] at hA')⟩
    rw [forEachDo, headElem_eq hinv hA]
    exact hloop fuel hfuel
  · have hat : At fate l List.reverse s.1 [] xs.reverse := by
      refine ⟨s.2, hinv, ?_, fun x hx => hgoals x (List.mem_reverse.1 hx)⟩
      rw [List.nil_append, List.reverse_reverse, hA]
    obtain ⟨m', k, hloop, A', h', hA', -⟩ := (backward_keeps fate l).forEach hat
    refine ⟨m', k, fun fuel hfuel => ?_, shows_of_inv h' ?_⟩
    · rw [forEachRevDo, endElem_eq hinv hA]
      exact hloop fuel hfuel
    · rw [hA', List.append_nil, List.filter_reverse, List.reverse_reverse]

end A3Ll
