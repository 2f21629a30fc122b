import LibA3.Ll.Iterate
import LibA3.Sll.Tail

/-!
# Removing items while iterating

`A3_SLL_FOR_EACH` with a body that takes some of its items out of the list with `A3_SLL_REMOVE`, and may put them into
another.
-/

namespace A3Sll

open Fallible Trans Links

variable {L N : Type} [DecidableEq L] [DecidableEq N] {m m' m0 : Mem L N} {A : Lists L N} {l : L} {xs as bs : List N}
  {x : N} {s : Mem L N × Lists L N} {calls : List (Op L N)} {fate : N → Fate L}

/-! ## The loop -/

/-- What is done with an item that has been taken out -/
def put (fuel : Nat) (m : Mem L N) (elem : N) : Fate L → Except Fault (Mem L N)
  | .keep | .remove => .ok m
  | .push l => .ok (push m l elem)
  | .enqueue l => enqueue fuel m l elem

/-- The body of a loop over `l` -/
def body (fate : N → Fate L) (l : L) (fuel : Nat) (m : Mem L N) : Option N → Except Fault (Mem L N)
  | some elem =>
    if (fate elem).kept then .ok m
    else do
      let m ← remove fuel m l elem
      put fuel m elem (fate elem)
  | none => .error .nullDeref

/-- `A3_SLL_NEXT` (`sll.h:62`) -/
def nextElem (m : Mem L N) : Option N → Except Fault (Option N)
  | some elem => .ok (m.next elem)
  | none => .error .nullDeref

def forward : Walk (Mem L N) (Option N) Fault := ⟨none, .diverges, nextElem⟩

/-- `A3_SLL_FOR_EACH` (`sll.h:146`) -/
def forEachDo (fate : N → Fate L) (fuel : Nat) (m : Mem L N) (l : L) : Except Fault (List (Option N) × Mem L N) :=
  forward.forEach (body fate l) fuel m (m.head l)

/-! ## One item -/

/-- A list built without `A3_SLL_INSERT_AFTER`. -/
abbrev Queued (m : Mem L N) (A : Lists L N) : Prop := Linked shape m.read A ∧ AtTail m.end_ A

theorem put_spec {f : Fate L} (h : Queued m A) (hfree : Free A x) (hgoal : ∀ l', f.goal = some l' → (A l').isSome) :
    ∃ m' A' k, (∀ fuel, k ≤ fuel → put fuel m x f = .ok m') ∧ Queued m' A' ∧ Lasts A A' ∧
      ∀ l, f.goal ≠ some l → A' l = A l := by
  cases f with
  | keep => exact ⟨m, A, 0, fun _ _ => rfl, h, Lasts.refl, fun _ _ => rfl⟩
  | remove => exact ⟨m, A, 0, fun _ _ => rfl, h, Lasts.refl, fun _ _ => rfl⟩
  | push l' =>
    obtain ⟨ys, hys⟩ := Option.isSome_iff_exists.1 (hgoal l' rfl)
    obtain ⟨m', ⟨k, hret⟩, h'⟩ := queueStep_total h.1 h.2 (ListStep.push l' x ys hys hfree) (by simp)
    exact ⟨m', _, k, hret, h', Lasts.refl.update l' _, Fate.update_other rfl _ _⟩
  | enqueue l' =>
    obtain ⟨ys, hys⟩ := Option.isSome_iff_exists.1 (hgoal l' rfl)
    obtain ⟨m', ⟨k, hret⟩, h'⟩ := queueStep_total h.1 h.2 (ListStep.enqueue l' x ys hys hfree) (by simp)
    exact ⟨m', _, k, hret, h', Lasts.refl.update l' _, Fate.update_other rfl _ _⟩

theorem body_spec (h : Queued m A) (hA : A l = some (as ++ x :: bs))
    (hgoal : ∀ l', (fate x).goal = some l' → l' ≠ l ∧ (A l').isSome) :
    ∃ m' A' k, (∀ fuel, k ≤ fuel → body fate l fuel m (some x) = .ok m') ∧ Queued m' A' ∧
      A' l = some (as ++ [x].filter (fun y => (fate y).kept) ++ bs) ∧ Lasts A A' := by
  by_cases hkept : (fate x).kept = true
  · have hfilter : [x].filter (fun y => (fate y).kept) = [x] := by simp [hkept]
    rw [hfilter, List.append_assoc]
    exact ⟨m, A, 0, fun _ _ => if_pos hkept, h, hA, Lasts.refl⟩
  · have hfilter : [x].filter (fun y => (fate y).kept) = [] := by simp [hkept]
    rw [hfilter, List.append_nil]
    obtain ⟨m1, ⟨k1, hremove⟩, h1⟩ := queueStep_total h.1 h.2 (ListStep.remove l x as bs hA) (by simp)
    have hlasts1 : Lasts A (Function.update A l (some (as ++ bs))) := Lasts.refl.update l _
    obtain ⟨m', A', k2, hput, h', hlasts, hsame⟩ := put_spec h1 (h.1.free_removed hA) fun l' hl' =>
      hlasts1 l' (hgoal l' hl').2
    refine ⟨m', A', max k1 k2, fun fuel hfuel => ?_, h', ?_, fun l' hsome => hlasts l' (hlasts1 l' hsome)⟩
    · have hremove' : remove fuel m l x = .ok m1 := hremove fuel (by omega)
      rw [body, if_neg hkept, hremove', ok_bind, hput fuel (by omega)]
    · rw [hsame l fun hl => (hgoal l hl).1 rfl, Function.update_self]

/-! ## All of them -/

/-- In the memory the list holds `done ++ rest`. -/
def At (fate : N → Fate L) (l : L) (m : Mem L N) (done rest : List N) : Prop :=
  ∃ A, Queued m A ∧ A l = some (done ++ rest) ∧ Goals fate A l rest

theorem forward_keeps (fate : N → Fate L) (l : L) :
    Keeps forward (body fate l) some (fun x => (fate x).kept) (At fate l) := by
  refine ⟨nofun, ?_, ?_⟩
  · rintro m done x rest ⟨A, h, hA, -⟩
    have hnext : m.next x = first some rest none := (seg_append.1 (h.1.runs l _ hA)).2.read_first
    exact congrArg Except.ok hnext
  · rintro m done x rest ⟨A, h, hA, hgoals⟩
    obtain ⟨m', A', k, hret, h', hA', hlasts⟩ := body_spec h hA (hgoals x List.mem_cons_self)
    exact ⟨m', k, hret, A', h', hA', hgoals.tail hlasts⟩

theorem forEach_removing (h : Run QueueStep (start m0) calls s) (hA : s.2 l = some xs) (hgoals : Goals fate s.2 l xs) :
    ∃ m' k, (∀ fuel, k ≤ fuel → forEachDo fate fuel s.1 l = .ok (xs.map some, m')) ∧
      Traverses m' l (xs.filter fun x => (fate x).kept) := by
  have hqueued : Queued s.1 s.2 := queue_linked h
  have hat : At fate l s.1 [] xs := ⟨s.2, hqueued, hA, hgoals⟩
  have hhead : s.1.head l = first some xs none := (hqueued.1.runs l xs hA).read_first
  obtain ⟨m', k, hloop, A', h', hA', -⟩ := (forward_keeps fate l).forEach hat
  refine ⟨m', k, fun fuel hfuel => ?_, traverses h'.1 (by rwa [List.append_nil] at hA')⟩
  rw [forEachDo, hhead]
  exact hloop fuel hfuel

/-! ## Both kinds of list -/

/-- **Items may be removed while iterating.** Whatever is done with each item of a list, `A3_LL_FOR_EACH`,
`A3_LL_FOR_EACH_REV` and `A3_SLL_FOR_EACH` visit the items that were there at the start, each once, and leave those that
were kept, in their order. -/
theorem removing_while_iterating (fate : N → Fate L) (l : L) (xs : List N) :
    (∀ m0 calls (s : A3Ll.Mem L N × Lists L N), Run A3Ll.Step (A3Ll.start m0) calls s → s.2 l = some xs →
      Goals fate s.2 l xs → xs.Nodup ∧
      (∃ m' k, (∀ fuel, k ≤ fuel → A3Ll.forEachDo fate fuel s.1 l = .ok (xs.map .node, m')) ∧
        A3Ll.Shows m' l (xs.filter fun x => (fate x).kept)) ∧
      ∃ m' k, (∀ fuel, k ≤ fuel → A3Ll.forEachRevDo fate fuel s.1 l = .ok (xs.reverse.map .node, m')) ∧
        A3Ll.Shows m' l (xs.filter fun x => (fate x).kept)) ∧
    ∀ m0 calls (s : Mem L N × Lists L N), Run QueueStep (start m0) calls s → s.2 l = some xs →
      Goals fate s.2 l xs → xs.Nodup ∧
      ∃ m' k, (∀ fuel, k ≤ fuel → forEachDo fate fuel s.1 l = .ok (xs.map some, m')) ∧
        Traverses m' l (xs.filter fun x => (fate x).kept) := by
  constructor
  · intro m0 calls s h hA hgoals
    exact ⟨Runs.nodup ((A3Ll.run_inv h).linked.runs l xs hA), A3Ll.forEach_removing h hA hgoals⟩
  · intro m0 calls s h hA hgoals
    exact ⟨Runs.nodup ((queue_linked h).1.runs l xs hA), forEach_removing h hA hgoals⟩

/-- Of three items the first is removed and the last pushed onto the other list. -/
def firstAndLast : Nat → Fate Bool
  | 1 => .remove
  | 3 => .push true
  | _ => .keep

theorem removing_while_iterating_two :
    (∃ s : A3Ll.Mem Bool Nat × Lists Bool Nat, s.2 false = some [1, 2, 3] ∧ [1, 2, 3].Nodup ∧
      (∃ m' k, (∀ fuel, k ≤ fuel → A3Ll.forEachDo firstAndLast fuel s.1 false = .ok ([1, 2, 3].map .node, m')) ∧
        A3Ll.Shows m' false [2]) ∧
      ∃ m' k, (∀ fuel, k ≤ fuel → A3Ll.forEachRevDo firstAndLast fuel s.1 false = .ok ([3, 2, 1].map .node, m')) ∧
        A3Ll.Shows m' false [2]) ∧
    ∃ s : Mem Bool Nat × Lists Bool Nat, s.2 false = some [1, 2, 3] ∧ [1, 2, 3].Nodup ∧
      ∃ m' k, (∀ fuel, k ≤ fuel → forEachDo firstAndLast fuel s.1 false = .ok ([1, 2, 3].map some, m')) ∧
        Traverses m' false [2] := by
  obtain ⟨hll, hsll⟩ := removing_while_iterating firstAndLast false [1, 2, 3]
  have hgoals : ∀ A : Lists Bool Nat, A true = some [] → Goals firstAndLast A false [1, 2, 3] := by
    intro A hA x hx l' hgoal
    have hall : ∀ x ∈ [1, 2, 3], (firstAndLast x).goal = none ∨ (firstAndLast x).goal = some true := by decide
    rcases hall x hx with hnone | htrue
    · rw [hnone] at hgoal
      cases hgoal
    · rw [htrue] at hgoal
      cases hgoal
      exact ⟨by decide, by rw [hA]; rfl⟩
  constructor
  · have h : Run A3Ll.Step (A3Ll.start ⟨fun _ => .null, fun _ => .null, fun _ => .null, fun _ => .null⟩) _ _ :=
      .cons (A3Ll.step_mk (.init false) rfl) <| .cons (A3Ll.step_mk (.init true) rfl) <|
      .cons (A3Ll.step_mk (.push false 3 [] rfl (by decide)) rfl) <|
      .cons (A3Ll.step_mk (.push false 2 [3] rfl (by decide)) rfl) <|
      .cons (A3Ll.step_mk (.push false 1 [2, 3] rfl (by decide)) rfl) <| .nil _
    exact ⟨_, rfl, hll _ _ _ h rfl (hgoals _ rfl)⟩
  · have h : Run QueueStep (start blank) _ _ :=
      .cons (queueStep_mk (.init false) (returns_of 0 fun _ => rfl) (by simp)) <|
      .cons (queueStep_mk (.init true) (returns_of 0 fun _ => rfl) (by simp)) <|
      .cons (queueStep_mk (.push false 3 [] rfl (by decide)) (returns_of 0 fun _ => rfl) (by simp)) <|
      .cons (queueStep_mk (.push false 2 [3] rfl (by decide)) (returns_of 0 fun _ => rfl) (by simp)) <|
      .cons (queueStep_mk (.push false 1 [2, 3] rfl (by decide)) (returns_of 0 fun _ => rfl) (by simp)) <| .nil _
    exact ⟨_, rfl, hsll _ _ _ h rfl (hgoals _ rfl)⟩

end A3Sll
