import LibA3.Rc.Cascade

/-!
# Assignment between handles

An assignment lets go of what the handle points to before it reads the other handle. When an object dies by it, its members
are gone: the assignment cannot read the other handle if that was one of them, and does not come to an end if the handle
itself was.
-/

namespace A3RcGraph

open Fallible

variable {w fuel this other h : Nat} {s s' : St} {raw : List Nat}

/-- Handle `h` is a member of an object that dies when handle `this` lets go of what it points to. -/
def Doomed (s : St) (raw : List Nat) (this h : Nat) : Prop := (graph s {this} ∅ raw).Doomed h

/-- One of the handles of an assignment is. -/
def Lost (s : St) (raw : List Nat) (this other : Nat) : Prop := Doomed s raw this this ∨ Doomed s raw this other

/-- Handle `this` lets go of what it points to. -/
theorem release_spec (h : Counted s ∅ ∅ raw) (ht : Alive s this) (hfuel : positive s ≤ fuel) :
    (¬Doomed s raw this this ∧ ∃ s1, unrefPtr fuel s (pointee s this) = .ok s1 ∧ Counted s1 {this} ∅ raw ∧
      (∀ j, Doomed s raw this j → ¬Alive s1 j) ∧ (∀ j, ¬Doomed s raw this j → s1.rc? j = s.rc? j) ∧
      s1.handles.length = s.handles.length) ∨
    Doomed s raw this this ∧ ∃ e, unrefPtr fuel s (pointee s this) = .error e := by
  have hfly : Counted s {this} ∅ ((pointee s this).toList ++ raw) := h.fly (Finset.notMem_empty this) ht
  have hends : Ends s {this} ∅ raw (unrefPtr fuel s (pointee s this)) := by
    cases hp : pointee s this with
    | none =>
      rw [hp] at hfly
      exact Or.inl ⟨s, rfl, hfly, .refl _ s⟩
    | some t =>
      rw [hp] at hfly
      refine unref_spec fuel s {this} ∅ raw t hfly (fun j hj => ?_) hfuel
      obtain rfl := Finset.mem_singleton.1 hj
      exact ⟨t, hp, Or.inr rfl⟩
  rcases hends with ⟨s1, hunref, h1, hsh⟩ | ⟨e, hunref, j, hj, hdoomed⟩
  · have hgone : ∀ j, Doomed s raw this j → ¬Alive s1 j := fun j hd => h1.not_alive hsh hd
    refine Or.inl ⟨fun hd => hgone this hd (h1.flight this (Finset.mem_singleton_self this)), s1, hunref, h1, hgone, ?_,
      hsh.length⟩
    intro j hd
    rcases hsh.rc j with heq | ⟨_, hd'⟩
    · exact heq
    · exact absurd hd' hd
  · obtain rfl := Finset.mem_singleton.1 hj
    exact Or.inr ⟨hdoomed, e, hunref⟩

theorem Alive.congr (ha : Alive s h) (heq : s'.rc? h = s.rc? h) : Alive s' h := by
  obtain ⟨rc, hrc⟩ := ha
  exact ⟨rc, heq.trans hrc⟩

/-- What both assignments do first. -/
def repoint (fuel : Nat) (s : St) (this other : Nat) : Except Fault St := do
  let s ← unrefPtr fuel s (← s.ptr this)
  s.setPtr this (← s.ptr other)

theorem copyAssign_eq (hne : other ≠ this) :
    copyAssign w fuel s this other = repoint fuel s this other >>= fun s => s.ptr this >>= refPtr w s := by
  simp only [copyAssign, repoint, if_neg hne, bind_assoc]

theorem moveAssign_eq : moveAssign fuel s this other = repoint fuel s this other >>= fun s => s.setPtr other none := by
  simp only [moveAssign, repoint, bind_assoc]

theorem repoint_succ (h : repoint fuel s this other = .ok s') : repoint (fuel + 1) s this other = .ok s' := by
  obtain ⟨p, hp, h⟩ := bind_ok h
  obtain ⟨s1, hunref, h⟩ := bind_ok h
  rw [repoint, hp, ok_bind, unrefPtr_succ hunref]
  exact h

theorem copyAssign_succ (hne : other ≠ this) (h : copyAssign w fuel s this other = .ok s') :
    copyAssign w (fuel + 1) s this other = .ok s' := by
  rw [copyAssign_eq hne] at h ⊢
  obtain ⟨s1, hrep, h⟩ := bind_ok h
  rw [repoint_succ hrep]
  exact h

theorem moveAssign_succ (h : moveAssign fuel s this other = .ok s') : moveAssign (fuel + 1) s this other = .ok s' := by
  rw [moveAssign_eq] at h ⊢
  obtain ⟨s1, hrep, h⟩ := bind_ok h
  rw [repoint_succ hrep]
  exact h

/-- It ends in a fault if one of the two handles goes with the object. -/
theorem repoint_spec (h : Counted s ∅ ∅ raw) (ht : Alive s this) (ho : Alive s other) (hfuel : positive s ≤ fuel) :
    (¬Lost s raw this other ∧ ∃ s2, repoint fuel s this other = .ok s2 ∧ Counted s2 {this} ∅ raw ∧
      Alive s2 other ∧ pointee s2 this = pointee s other ∧ pointee s2 other = pointee s other ∧
      ∀ o, refs s2 {this} raw o ≤ refs s {this} raw o) ∨
    Lost s raw this other ∧ ∃ e, repoint fuel s this other = .error e := by
  rcases release_spec h ht hfuel with ⟨hthis, s1, hunref, h1, hgone, hkept, hlength⟩ | ⟨hd, e, hunref⟩
  · by_cases hd : Doomed s raw this other
    · -- the other handle has been destructed
      have hnone : s1.rc? other = none := Option.eq_none_iff_forall_ne_some.2 fun rc hrc => hgone other hd ⟨rc, hrc⟩
      have hread : s1.ptr other = .error .useAfterFree := ptr_none (hlength ▸ ho.lt) hnone
      refine Or.inr ⟨Or.inr hd, .useAfterFree, ?_⟩
      simp only [repoint, ht.ptr, ok_bind, hunref, hread]
      rfl
    · have ho1 : Alive s1 other := ho.congr (hkept other hd)
      have hp1 : pointee s1 other = pointee s other := pointee_congr (hkept other hd)
      obtain ⟨s2, hset, h2, hp2, hrc2⟩ := setPtr_spec h1 (Finset.mem_singleton_self this) (pointee s other)
      refine Or.inl ⟨fun hlost => hlost.elim hthis hd, s2, ?_, h2, ?_, hp2, ?_, fun o => ?_⟩
      · simp only [repoint, ht.ptr, ok_bind, hunref, ho1.ptr, hp1, hset]
      · by_cases heq : other = this
        · subst heq
          exact h2.flight other (Finset.mem_singleton_self other)
        · exact ho1.congr (hrc2 other heq)
      · by_cases heq : other = this
        · subst heq
          exact hp2
        · exact (pointee_congr (hrc2 other heq)).trans hp1
      · refine Nat.add_le_add_right (Finset.card_le_card fun j hj => ?_) _
        obtain ⟨hp, hF⟩ := mem_holders.1 hj
        have hj1 : pointee s1 j = some o := (pointee_congr (hrc2 j fun heq => hF (Finset.mem_singleton.2 heq))).symm.trans hp
        have hnot : ¬Doomed s raw this j := fun hd => hgone j hd (alive_of_pointee hj1)
        exact mem_holders.2 ⟨(pointee_congr (hkept j hnot)).symm.trans hj1, hF⟩
  · refine Or.inr ⟨Or.inl hd, e, ?_⟩
    simp only [repoint, ht.ptr, ok_bind, hunref]
    rfl

theorem copyAssign_spec (h : Counted s ∅ ∅ raw) (ht : Alive s this) (ho : Alive s other) (hne : other ≠ this)
    (hroom : ∀ o, pointee s other = some o → refs s {this} raw o + 1 < 2 ^ w) (hfuel : positive s ≤ fuel) :
    (¬Lost s raw this other ∧ ∃ s', copyAssign w fuel s this other = .ok s' ∧
      Counted s' ∅ ∅ raw ∧ Alive s' this ∧ pointee s' this = pointee s other) ∨
    Lost s raw this other ∧ ∃ e, copyAssign w fuel s this other = .error e := by
  rw [copyAssign_eq hne]
  rcases repoint_spec h ht ho hfuel with ⟨hkeep, s2, hrep, h2, ho2, hp2, hpo2, hle⟩ | ⟨hd, e, hrep⟩
  · have ht2 : Alive s2 this := h2.flight this (Finset.mem_singleton_self this)
    have hlive : ∀ o, pointee s2 this = some o → refs s2 {this} raw o ≠ 0 := by
      intro o hp
      refine refs_ne_zero_of_holds ((hpo2.trans hp2.symm).trans hp) ?_
      rwa [Finset.mem_singleton]
    have hroom2 : ∀ o, pointee s2 this = some o → refs s2 {this} raw o + 1 < 2 ^ w := fun o hp =>
      Nat.lt_of_le_of_lt (Nat.succ_le_succ (hle o)) (hroom o (hp2.symm.trans hp))
    obtain ⟨s', href, h', hhandles⟩ := refPtr_spec h2 hlive hroom2
    have hrc : ∀ j, s'.rc? j = s2.rc? j := fun j => by rw [St.rc?, hhandles, St.rc?]
    rw [← pointee_congr (hrc this)] at h'
    refine Or.inl ⟨hkeep, s', ?_, h'.land (Finset.notMem_empty this), ht2.congr (hrc this),
      (pointee_congr (hrc this)).trans hp2⟩
    rw [hrep, ok_bind, ht2.ptr, ok_bind, href]
  · refine Or.inr ⟨hd, e, ?_⟩
    rw [hrep]
    rfl

theorem moveAssign_spec (h : Counted s ∅ ∅ raw) (ht : Alive s this) (ho : Alive s other) (hfuel : positive s ≤ fuel) :
    (¬Lost s raw this other ∧ ∃ s', moveAssign fuel s this other = .ok s' ∧
      Counted s' ∅ ∅ raw ∧ Alive s' this ∧ pointee s' this = if other = this then none else pointee s other) ∨
    Lost s raw this other ∧ ∃ e, moveAssign fuel s this other = .error e := by
  rw [moveAssign_eq]
  rcases repoint_spec h ht ho hfuel with ⟨hkeep, s2, hrep, h2, ho2, hp2, hpo2, _⟩ | ⟨hd, e, hrep⟩
  · have ht2 : Alive s2 this := h2.flight this (Finset.mem_singleton_self this)
    by_cases heq : other = this
    · subst heq
      obtain ⟨s', hset, h', hnone, _⟩ := setPtr_spec h2 (Finset.mem_singleton_self other) none
      refine Or.inl ⟨hkeep, s', ?_, h'.land_none (Finset.notMem_empty other) hnone,
        h'.flight other (Finset.mem_singleton_self other), ?_⟩
      · rw [hrep, ok_bind, hset]
      · rw [hnone, if_pos rfl]
    · have hnotin : other ∉ insert this (∅ : Finset Nat) := by simpa using heq
      obtain ⟨s', hset, h', hrc⟩ :=
        handOver_spec h2 (Finset.notMem_empty this) hnotin ho2 (hp2.trans hpo2.symm)
      refine Or.inl ⟨hkeep, s', ?_, h', ht2.congr (hrc this (Ne.symm heq)), ?_⟩
      · rw [hrep, ok_bind, hset]
      · rw [if_neg heq, pointee_congr (hrc this (Ne.symm heq)), hp2]
  · refine Or.inr ⟨hd, e, ?_⟩
    rw [hrep]
    rfl

end A3RcGraph
