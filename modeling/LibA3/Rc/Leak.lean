import LibA3.Rc.Reach
import Mathlib.Data.Set.Finite.Basic
import Mathlib.Order.Interval.Finset.Nat

/-!
# What is deleted, and what leaks

The handles of variables and the creation references are the roots. Between operations an object is live exactly if a root
leads to it, over handles that are members, or a cycle of such handles does: reference counting deletes everything else and
leaks the cycles.

* `live_iff` — in every state that is reached, which objects are live
* `destruct_deletes` — what the destructor of a handle leaves behind: which objects, and which handles
-/

namespace A3RcGraph

open Fallible Ownership Trans

variable {w fuel this h o : Nat} {s s' : St} {raw : List Nat} {F : Finset Nat} {ops : List Op} {v : World}

/-! ## Objects that do not die -/

/-- The handles outside `F` keep the object: a root leads to it, or a cycle does. -/
def Held (s : St) (F : Finset Nat) (raw : List Nat) (o : Nat) : Prop :=
  (graph s F ∅ raw).Rooted o ∨ (graph s F ∅ raw).Cyclic o

/-- Only objects have members. -/
theorem Counted.owner_lt (hc : Counted s F ∅ raw) (hown : owner s h = some o) : o < s.objects.length := by
  rcases hc.owned h o hown with hne | hin
  · exact hc.alloc o hne
  · exact absurd hin (Finset.notMem_empty o)

theorem Counted.dies_iff (hc : Counted s ∅ ∅ raw) : (graph s F ∅ raw).Dies o ↔ ¬Held s F raw o := by
  refine Holding.dies_iff (Set.finite_lt_nat s.objects.length) fun y x hlead => ?_
  obtain ⟨h, _, hown⟩ := hlead
  exact hc.owner_lt hown

/-- What has not died is live. -/
theorem live_iff_of_shrinks (hc : Counted s ∅ ∅ raw) (h' : Counted s' F ∅ raw) (hsh : Shrinks (graph s F ∅ raw) s s')
    (ho : o < s'.objects.length) : Live s' o ↔ Held s F raw o := by
  have hobj : s'.objects[o]? = some s'.objects[o] := List.getElem?_eq_getElem ho
  have hdies := h'.destroyed_iff hsh (Finset.notMem_empty o) hobj
  rw [hc.dies_iff] at hdies
  constructor
  · rintro ⟨obj, hobj', hlive⟩
    cases Option.some.inj (hobj.symm.trans hobj')
    by_contra hnot
    cases hlive.symm.trans (hdies.2 hnot)
  · intro hheld
    refine ⟨_, hobj, ?_⟩
    rw [← Bool.not_eq_true]
    exact fun hdestroyed => hdies.1 hdestroyed hheld

/-- **Which objects are live.** In every state that is reached, an object is live exactly if a variable's handle or a
creation reference leads to it, or a cycle of member handles does. -/
theorem live_iff (hrun : Run (Step w) start ops v) (ho : o < v.st.objects.length) :
    Live v.st o ↔ Held v.st ∅ v.raw o :=
  live_iff_of_shrinks (inv_run hrun) (inv_run hrun) (.refl _ v.st) ho

/-- An object that is a member of itself -/
def selfish : World := ⟨⟨[⟨1, false⟩], [none, some ⟨some 0, some 0⟩]⟩, []⟩

/-- outlives the variable that it was created with. -/
theorem live_iff_cycle :
    ∃ v, Run (Step 32) start [.create none, .copy (some 0) 0, .destruct 0] v ∧ (∀ h, Alive v.st h → owner v.st h ≠ none) ∧
      Live v.st 0 ∧ Held v.st ∅ v.raw 0 := by
  have hcreate : Step 32 start (.create none) ⟨⟨[⟨1, false⟩], [some ⟨none, some 0⟩]⟩, []⟩ :=
    ⟨(fun _ hx => nomatch hx), (by decide : 1 < 2 ^ 32), ⟨0, fun _ _ => rfl⟩, rfl⟩
  have hcopy : Step 32 ⟨⟨[⟨1, false⟩], [some ⟨none, some 0⟩]⟩, []⟩ (.copy (some 0) 0)
      ⟨⟨[⟨2, false⟩], [some ⟨none, some 0⟩, some ⟨some 0, some 0⟩]⟩, []⟩ := by
    refine ⟨⟨?_, _, rfl⟩, ?_, ⟨0, fun _ _ => rfl⟩, rfl⟩
    · rintro x ⟨⟩
      exact ⟨⟨1, false⟩, rfl, rfl⟩
    · rintro o ⟨⟩
      decide
  have hdestruct : Step 32 ⟨⟨[⟨2, false⟩], [some ⟨none, some 0⟩, some ⟨some 0, some 0⟩]⟩, []⟩ (.destruct 0) selfish := by
    refine ⟨⟨_, rfl⟩, trivial, ⟨1, fun fuel hfuel => ?_⟩, rfl⟩
    obtain ⟨fuel, rfl⟩ := Nat.exists_eq_add_of_le' hfuel
    rfl
  have hrun := (Run.cons hcreate (.single hcopy)).concat hdestruct
  have hlive : Live selfish.st 0 := ⟨⟨1, false⟩, rfl, rfl⟩
  refine ⟨selfish, hrun, ?_, hlive, (live_iff hrun (by decide)).1 hlive⟩
  rintro h ⟨rc, hrc⟩ hvar
  match h with
  | 0 => cases hrc
  | 1 => cases hvar
  | _ + 2 => cases hrc

/-! ## `unref` creates no objects -/

theorem unref_objects (h : unref fuel s o = .ok s') : s'.objects.length = s.objects.length := by
  induction fuel generalizing s o s' with
  | zero => cases h
  | succ fuel ih =>
    obtain ⟨count, _, h⟩ := bind_ok h
    obtain ⟨_, h⟩ := guard_ok h rfl
    by_cases hlast : count - 1 = 0
    · simp only [if_pos hlast] at h
      obtain ⟨s1, hfold, h⟩ := bind_ok h
      obtain ⟨count1, _, h⟩ := bind_ok h
      obtain ⟨_, h⟩ := guard_ok h rfl
      cases h
      refine List.length_set.trans ?_
      have hmember : ∀ s2 m s3, destruct (unref fuel) s2 m = .ok s3 →
          s2.objects.length = s.objects.length → s3.objects.length = s.objects.length := by
        intro s2 m s3 hdestruct hlen
        obtain ⟨p, _, hdestruct⟩ := bind_ok hdestruct
        cases p with
        | none =>
          cases hdestruct
          exact hlen
        | some t =>
          obtain ⟨count2, _, hdestruct⟩ := bind_ok hdestruct
          obtain ⟨_, hdestruct⟩ := guard_ok hdestruct rfl
          obtain ⟨s4, hunref, hdestruct⟩ := bind_ok hdestruct
          cases hdestruct
          exact (ih hunref).trans hlen
      exact foldlM_keeps hmember hfold List.length_set
    · simp only [if_neg hlast] at h
      cases h
      exact List.length_set

/-! ## A destructor -/

/-- What the destructor of a handle that is no member of what dies with it leaves behind: the objects that the other handles
keep, and of the handles those that are no members of the others. -/
structure Destructed (s : St) (raw : List Nat) (this : Nat) (s' : St) : Prop where
  this_gone : ¬Alive s' this
  objects : s'.objects.length = s.objects.length
  live : ∀ o < s.objects.length, Live s' o ↔ Held s {this} raw o
  member : ∀ h x, owner s h = some x → ¬Held s {this} raw x → ¬Alive s' h
  other : ∀ h ≠ this, (∀ x, owner s h = some x → Held s {this} raw x) → s'.rc? h = s.rc? h

theorem destructed_of_shrinks {s1 : St} (hc : Counted s ∅ ∅ raw) (h1 : Counted s1 {this} ∅ raw)
    (hsh : Shrinks (graph s {this} ∅ raw) s s1) (hlen : s1.objects.length = s.objects.length) :
    Destructed s raw this (s1.drop this) where
  this_gone := by
    rintro ⟨rc, hrc⟩
    rw [rc?_drop, if_pos rfl] at hrc
    cases hrc
  objects := hlen
  live o ho := by
    have hlive : Live s1 o ↔ Held s {this} raw o := live_iff_of_shrinks hc h1 hsh (hlen.symm ▸ ho)
    exact hlive
  member h x hown hnot := by
    rintro ⟨rc, hrc⟩
    rw [rc?_drop] at hrc
    split at hrc
    · cases hrc
    · exact h1.not_alive hsh ⟨x, hown, hc.dies_iff.2 hnot⟩ ⟨rc, hrc⟩
  other h hne hheld := by
    rw [rc?_drop, if_neg hne]
    rcases hsh.rc h with heq | ⟨_, x, hown, hdies⟩
    · exact heq
    · exact absurd (hheld x hown) (hc.dies_iff.1 hdies)

theorem destruct_ends (hc : Counted s ∅ ∅ raw) (ht : Alive s this) (hfuel : positive s ≤ fuel) :
    (∃ s', destruct (unref fuel) s this = .ok s' ∧ Destructed s raw this s') ∨
      Doomed s raw this this ∧ ∃ e, destruct (unref fuel) s this = .error e := by
  have hfly : Counted s {this} ∅ ((pointee s this).toList ++ raw) := hc.fly (Finset.notMem_empty this) ht
  cases hp : pointee s this with
  | none =>
    rw [hp] at hfly
    refine Or.inl ⟨s.drop this, ?_, destructed_of_shrinks hc hfly (.refl _ s) rfl⟩
    simp only [destruct, ht.ptr, hp, ok_bind, pure_ok]
  | some t =>
    rw [hp] at hfly
    have hne : refs s ∅ raw t ≠ 0 := refs_ne_zero_of_holds hp (Finset.notMem_empty this)
    have hcount := hc.refCount_eq (Or.inl hne)
    have hflight : ∀ h ∈ ({this} : Finset Nat), ∃ t', pointee s h = some t' ∧ (t' ∈ (∅ : Finset Nat) ∨ t' = t) := by
      intro h hh
      obtain rfl := Finset.mem_singleton.1 hh
      exact ⟨t, hp, Or.inr rfl⟩
    rcases unref_spec fuel s {this} ∅ raw t hfly hflight hfuel with ⟨s1, hunref, h1, hsh⟩ | ⟨e, hunref, h, hh, hdoomed⟩
    · refine Or.inl ⟨s1.drop this, ?_, destructed_of_shrinks hc h1 hsh (unref_objects hunref)⟩
      simp only [destruct, ht.ptr, hp, ok_bind, hcount, if_neg hne, hunref, pure_ok]
    · obtain rfl := Finset.mem_singleton.1 hh
      refine Or.inr ⟨hdoomed, e, ?_⟩
      simp only [destruct, ht.ptr, hp, ok_bind, hcount, if_neg hne, hunref]
      rfl

/-- **What a destructor deletes.** In every state that is reached, the destructor of a variable's handle ends; it deletes
exactly the objects that no other root leads to and no cycle leads to, destructs their members with them, and leaves every
other handle as it was. -/
theorem destruct_deletes (hrun : Run (Step w) start ops v) (ht : Alive v.st this) (hvar : owner v.st this = none) :
    ∃ s', (∃ k, ∀ fuel, k ≤ fuel → destruct (unref fuel) v.st this = .ok s') ∧ Destructed v.st v.raw this s' := by
  have hends : ∀ fuel, positive v.st ≤ fuel →
      ∃ s', destruct (unref fuel) v.st this = .ok s' ∧ Destructed v.st v.raw this s' := by
    intro fuel hfuel
    rcases destruct_ends (inv_run hrun) ht hfuel with hs' | ⟨⟨y, hy, _⟩, _⟩
    · exact hs'
    · cases hvar.symm.trans hy
  obtain ⟨s', hs', hd⟩ := hends (positive v.st) (Nat.le_refl _)
  exact ⟨s', ⟨_, Fuel.stable (fun n => destruct_mono fun _ _ _ => unref_succ) hs'⟩, hd⟩

/-- The variable of a chain of two. -/
theorem destruct_deletes_chain :
    ∃ s', (∃ k, ∀ fuel, k ≤ fuel → destruct (unref fuel) chain.st 0 = .ok s') ∧ Destructed chain.st chain.raw 0 s' :=
  destruct_deletes run_chain ⟨_, rfl⟩ rfl

end A3RcGraph
