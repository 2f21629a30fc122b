import LibA3.Fallible
import LibA3.Ownership
import LibA3.Rc.Held

/-!
# What goes with a reference

`unref` deletes the objects that die without the reference (`Ownership.Holding.Dies`), destructs their members and leaves the
other handles as they are. It ends in a fault if, and only if, a handle in flight is one of these members: its destructor
finds that nobody has a reference to what the handle points to.
-/

namespace A3RcGraph

open Fallible Ownership

variable {s s' s1 s2 : St} {F F' X X' : Finset Nat} {raw : List Nat} {h m o x fuel n : Nat} {f : St → Nat → Except Fault St}
  {G : Holding Nat Nat} {ms : List Nat}

/-- Who holds what. The creation references stay, and what is being deleted is no concern of this `unref`. -/
def graph (s : St) (F X : Finset Nat) (raw : List Nat) : Holding Nat Nat where
  holds h o := pointee s h = some o ∧ h ∉ F
  owner := owner s
  kept o := o ∈ raw ∨ o ∈ X

/-- The objects that `unref` has still to look at. -/
def positive (s : St) : Nat := s.objects.countP fun obj => 0 < obj.refCount

/-- Handles have gone, all of them members of objects that die. -/
structure Shrinks (G : Holding Nat Nat) (s s' : St) : Prop where
  rc : ∀ h, s'.rc? h = s.rc? h ∨ s'.rc? h = none ∧ G.Doomed h
  length : s'.handles.length = s.handles.length
  positive : positive s' ≤ positive s

namespace Shrinks

theorem refl (G : Holding Nat Nat) (s : St) : Shrinks G s s := ⟨fun _ => Or.inl rfl, rfl, Nat.le_refl _⟩

theorem trans (h1 : Shrinks G s s1) (h2 : Shrinks G s1 s2) : Shrinks G s s2 where
  rc h := by
    rcases h2.rc h with heq | hgone
    · rw [heq]
      exact h1.rc h
    · exact Or.inr hgone
  length := h2.length.trans h1.length
  positive := Nat.le_trans h2.positive h1.positive

/-- A handle that is still there is as it was. -/
theorem rc?_eq (h1 : Shrinks G s s') (ha : Alive s' h) : s'.rc? h = s.rc? h := by
  obtain ⟨rc, hrc⟩ := ha
  rcases h1.rc h with heq | ⟨hnone, _⟩
  · exact heq
  · cases hrc.symm.trans hnone

/-- What dies when something has gone already, dies. -/
theorem dies (h1 : Shrinks (graph s F X raw) s s') (hF : ∀ h ∈ F', h ∈ F ∨ (graph s F X raw).Doomed h) (hX : X ⊆ X')
    (hx : (graph s' F' X' raw).Dies x) : (graph s F X raw).Dies x := by
  refine hx.lift (fun o ho => ho.imp id fun hX' => hX hX') fun h o hh => ?_
  rcases h1.rc h with heq | ⟨_, hdoomed⟩
  · by_cases hin : h ∈ F'
    · exact Or.inl ((hF h hin).resolve_left hh.2)
    · exact Or.inr ⟨⟨(pointee_congr heq).trans hh.1, hin⟩, owner_congr heq⟩
  · exact Or.inl hdoomed

theorem doomed (h1 : Shrinks (graph s F X raw) s s') (hF : ∀ h ∈ F', h ∈ F ∨ (graph s F X raw).Doomed h) (hX : X ⊆ X')
    (hd : (graph s' F' X' raw).Doomed h) : (graph s F X raw).Doomed h := by
  obtain ⟨y, hy, hdies⟩ := hd
  have heq : s'.rc? h = s.rc? h := h1.rc?_eq (alive_of_owner hy)
  exact ⟨y, (owner_congr heq).symm.trans hy, h1.dies hF hX hdies⟩

end Shrinks

/-- A member of what is being deleted is not doomed once more. -/
theorem not_doomed (hx : x ∈ X) (hy : owner s h = some x) : ¬(graph s F X raw).Doomed h := by
  rintro ⟨y, hy', hdies⟩
  obtain rfl : x = y := Option.some.inj (hy.symm.trans hy')
  exact hdies.not_kept (Or.inr hx)

/-- The outcome of `unref`. -/
def Ends (s : St) (F X : Finset Nat) (raw : List Nat) (r : Except Fault St) : Prop :=
  (∃ s', r = .ok s' ∧ Counted s' F X raw ∧ Shrinks (graph s F X raw) s s') ∨
    ∃ e, r = .error e ∧ ∃ h ∈ F, (graph s F X raw).Doomed h

/-- `f` is `unref` for states in which at most `n` counts are positive. -/
def Unrefs (n : Nat) (f : St → Nat → Except Fault St) : Prop :=
  ∀ s F X raw o, Counted s F X (o :: raw) → (∀ h ∈ F, ∃ t, pointee s h = some t ∧ (t ∈ X ∨ t = o)) → positive s ≤ n →
    Ends s F X raw (f s o)

/-! ## Members -/

/-- The destructor of a member, by the outcome of the `unref` that it calls. -/
theorem destruct_spec (hf : Unrefs n f) (h1 : Counted s F X raw) (hF : ∀ h ∈ F, ∃ t, pointee s h = some t ∧ t ∈ X)
    (hpos : positive s ≤ n) (hm : owner s m = some o) (ho : o ∈ X) :
    (∃ s', destruct f s m = .ok s' ∧ Counted s' F X raw ∧ s'.rc? m = none ∧ s'.handles.length = s.handles.length ∧
      positive s' ≤ positive s ∧
      ∀ h ≠ m, s'.rc? h = s.rc? h ∨ s'.rc? h = none ∧ (graph s (insert m F) X raw).Doomed h) ∨
      ∃ e, destruct f s m = .error e ∧ (m ∈ F ∨ ∃ h ∈ F, (graph s (insert m F) X raw).Doomed h) := by
  have ha : Alive s m := alive_of_owner hm
  by_cases hmF : m ∈ F
  · -- what the handle points to is being deleted, so its count is zero
    obtain ⟨t, ht, htX⟩ := hF m hmF
    have hcount : refCount s t = .ok 0 := (h1.refCount_eq (Or.inr htX)).trans (congrArg _ (h1.dying t htX).2)
    refine Or.inr ⟨.assertion, ?_, Or.inl hmF⟩
    simp only [destruct, ha.ptr, ht, ok_bind, hcount, if_true]
    rfl
  · have hfly : Counted s (insert m F) X ((pointee s m).toList ++ raw) := h1.fly hmF ha
    cases ht : pointee s m with
    | none =>
      rw [ht] at hfly
      refine Or.inl ⟨s.drop m, ?_, hfly.drop hmF, by rw [rc?_drop, if_pos rfl], List.length_set, Nat.le_refl _,
        fun h hne => Or.inl (by rw [rc?_drop, if_neg hne])⟩
      simp only [destruct, ha.ptr, ht, ok_bind, pure_ok]
    | some t =>
      rw [ht] at hfly
      have hcount : refCount s t = .ok (refs s F raw t) := h1.refCount_eq (Or.inl (refs_ne_zero_of_holds ht hmF))
      have hpos' : ¬refs s F raw t = 0 := refs_ne_zero_of_holds ht hmF
      have htargets : ∀ h ∈ insert m F, ∃ t', pointee s h = some t' ∧ (t' ∈ X ∨ t' = t) := by
        intro h hh
        rcases Finset.mem_insert.1 hh with rfl | hh
        · exact ⟨t, ht, Or.inr rfl⟩
        · obtain ⟨t', ht', hX⟩ := hF h hh
          exact ⟨t', ht', Or.inl hX⟩
      rcases hf s (insert m F) X raw t hfly htargets hpos with ⟨s', hunref, h2, hsh⟩ | ⟨e, hunref, h, hh, hdoomed⟩
      · refine Or.inl ⟨s'.drop m, ?_, h2.drop hmF, by rw [rc?_drop, if_pos rfl], List.length_set.trans hsh.length,
          hsh.positive, fun h hne => ?_⟩
        · simp only [destruct, ha.ptr, ht, ok_bind, hcount, if_neg hpos', hunref, pure_ok]
        · rw [rc?_drop, if_neg hne]
          exact hsh.rc h
      · refine Or.inr ⟨e, ?_, Or.inr ?_⟩
        · simp only [destruct, ha.ptr, ht, ok_bind, hcount, if_neg hpos', hunref]
          rfl
        · rcases Finset.mem_insert.1 hh with rfl | hh
          · exact absurd hdoomed (not_doomed ho hm)
          · exact ⟨h, hh, hdoomed⟩

theorem mem_members : h ∈ members s o ↔ owner s h = some o := by
  rw [members, List.mem_reverse, List.mem_filter, List.mem_range, beq_iff_eq]
  exact ⟨And.right, fun ho => ⟨(alive_of_owner ho).lt, ho⟩⟩

theorem nodup_members (s : St) (o : Nat) : (members s o).Nodup :=
  List.nodup_reverse.2 (List.nodup_range.filter _)

/-- The members' destructors one after the other. -/
theorem destructs_spec (hf : Unrefs n f) (ho : (graph s F X raw).Dies o) (hnodup : ms.Nodup)
    (hsh : Shrinks (graph s F X raw) s s1) (h1 : Counted s1 F (insert o X) raw)
    (hF : ∀ h ∈ F, ∃ t, pointee s1 h = some t ∧ t ∈ insert o X) (hpos : positive s1 ≤ n)
    (hms : ∀ m ∈ ms, owner s1 m = some o) :
    (∃ s', ms.foldlM (destruct f) s1 = .ok s' ∧ Counted s' F (insert o X) raw ∧ Shrinks (graph s F X raw) s1 s' ∧
      ∀ m ∈ ms, s'.rc? m = none) ∨
      ∃ e, ms.foldlM (destruct f) s1 = .error e ∧ ∃ h ∈ F, (graph s F X raw).Doomed h := by
  induction ms generalizing s1 with
  | nil => exact Or.inl ⟨s1, rfl, h1, .refl _ s1, fun m hm => (List.not_mem_nil hm).elim⟩
  | cons m ms ih =>
    obtain ⟨hnotin, hnodup⟩ := List.nodup_cons.1 hnodup
    have hm : owner s1 m = some o := hms m List.mem_cons_self
    have hoX : o ∈ insert o X := Finset.mem_insert_self o X
    have hdoomed : (graph s F X raw).Doomed m :=
      ⟨o, (owner_congr (hsh.rc?_eq (alive_of_owner hm))).symm.trans hm, ho⟩
    -- what dies with this member, dies with the object
    have hlift : ∀ h, (graph s1 (insert m F) (insert o X) raw).Doomed h → (graph s F X raw).Doomed h := by
      intro h
      refine hsh.doomed (fun h hh => ?_) (Finset.subset_insert o X)
      rcases Finset.mem_insert.1 hh with rfl | hh
      · exact Or.inr hdoomed
      · exact Or.inl hh
    rw [List.foldlM_cons]
    rcases destruct_spec hf h1 hF hpos hm hoX with ⟨s2, hdestruct, h2, hgone, hlength, hpos2, hrc⟩ | ⟨e, hdestruct, hfault⟩
    · rw [hdestruct, ok_bind]
      have hstep : Shrinks (graph s F X raw) s1 s2 := by
        refine ⟨fun h => ?_, hlength, hpos2⟩
        by_cases heq : h = m
        · subst heq
          exact Or.inr ⟨hgone, hdoomed⟩
        · exact (hrc h heq).imp id fun hh => ⟨hh.1, hlift h hh.2⟩
      have hF2 : ∀ h ∈ F, ∃ t, pointee s2 h = some t ∧ t ∈ insert o X := by
        intro h hh
        rw [pointee_congr (hstep.rc?_eq (h2.flight h hh))]
        exact hF h hh
      have hms2 : ∀ m' ∈ ms, owner s2 m' = some o := by
        intro m' hm'
        have howner : owner s1 m' = some o := hms m' (List.mem_cons_of_mem m hm')
        rcases hrc m' (fun heq => hnotin (heq ▸ hm')) with heq | ⟨_, hd⟩
        · rw [owner_congr heq, howner]
        · exact absurd hd (not_doomed hoX howner)
      rcases ih hnodup (hsh.trans hstep) h2 hF2 (Nat.le_trans hpos2 hpos) hms2 with ⟨s', hfold, h', hsh', hnone⟩ | hfault
      · refine Or.inl ⟨s', hfold, h', hstep.trans hsh', fun m' hm' => ?_⟩
        rcases List.mem_cons.1 hm' with rfl | hm'
        · rcases hsh'.rc m' with heq | ⟨hnone', _⟩
          · rw [heq, hgone]
          · exact hnone'
        · exact hnone m' hm'
      · exact Or.inr hfault
    · rw [hdestruct]
      refine Or.inr ⟨e, rfl, ?_⟩
      rcases hfault with hmF | ⟨h, hh, hd⟩
      · exact ⟨m, hmF, hdoomed⟩
      · exact ⟨h, hh, hlift h hd⟩

/-- An object that is being deleted, and that nothing but handles in flight points to. -/
theorem destroy_spec (hf : Unrefs n f) (h : Counted s F (insert o X) raw) (hoX : o ∉ X)
    (hF : ∀ h ∈ F, ∃ t, pointee s h = some t ∧ t ∈ insert o X) (hpos : positive s ≤ n) :
    Ends s F X raw (destroy f s o) := by
  obtain ⟨hlt, hzero⟩ := h.dying o (Finset.mem_insert_self o X)
  have hdies : (graph s F X raw).Dies o := by
    obtain ⟨hraw, hholds⟩ := refs_eq_zero.1 hzero
    exact .of_doomed (fun hk => hk.elim hraw hoX) fun h hh => absurd (hholds h hh.1) hh.2
  rcases destructs_spec hf hdies (nodup_members s o) (.refl _ s) h hF hpos (fun m hm => mem_members.1 hm) with
    ⟨s1, hfold, h1, hsh, hnone⟩ | ⟨e, hfold, hfault⟩
  · obtain ⟨hlt1, hzero1⟩ := h1.dying o (Finset.mem_insert_self o X)
    have hcount : refCount s1 o = .ok 0 :=
      (h1.refCount_eq (Or.inr (Finset.mem_insert_self o X))).trans (congrArg _ hzero1)
    have hunowned : ∀ h, owner s1 h ≠ some o := by
      intro h hown
      have hown' : owner s h = some o := (owner_congr (hsh.rc?_eq (alive_of_owner hown))).symm.trans hown
      obtain ⟨rc, hrc⟩ := alive_of_owner hown
      cases hrc.symm.trans (hnone h (mem_members.2 hown'))
    refine Or.inl ⟨{ s1 with objects := s1.objects.set o ⟨0, true⟩ }, ?_, ?_, hsh.rc, hsh.length, ?_⟩
    · simp only [destroy, hfold, ok_bind, hcount, ne_eq, not_true_eq_false, if_false, pure_ok]
    · refine h1.update hlt1 rfl ?_ (fun _ _ => rfl) (fun x hne => ?_) (fun _ => hzero1) (fun h hown => ?_)
      · simp [hzero1, hoX]
      · rw [Finset.mem_insert, or_iff_right hne]
      · exact absurd hown (hunowned h)
    · refine Nat.le_trans ?_ hsh.positive
      rw [positive, List.countP_set hlt1]
      simp [positive]
  · refine Or.inr ⟨e, ?_, hfault⟩
    simp only [destroy, hfold]
    rfl

/-! ## `unref` -/

theorem positive_pos {count : Nat} (hobj : s.objects[o]? = some ⟨count + 1, false⟩) : 0 < positive s :=
  List.countP_pos_iff.2 ⟨_, List.mem_of_getElem? hobj, by simp⟩

theorem positive_setCount {count : Nat} (hobj : s.objects[o]? = some ⟨count + 1, false⟩) :
    positive (s.setCount o count) ≤ positive s ∧ (count = 0 → positive (s.setCount o count) < positive s) := by
  have hpos := positive_pos hobj
  obtain ⟨hlt, hget⟩ := List.getElem?_eq_some_iff.1 hobj
  have hset : positive (s.setCount o count) = positive s - 1 + if 0 < count then 1 else 0 := by
    unfold positive St.setCount
    rw [List.countP_set hlt, hget]
    simp
  by_cases hcount : 0 < count
  · rw [hset, if_pos hcount]
    omega
  · rw [hset, if_neg hcount]
    omega

/-- **What `unref` does.** -/
theorem unref_spec (fuel : Nat) : Unrefs fuel (unref fuel) := by
  induction fuel with
  | zero =>
    intro s F X raw o h hF hpos
    have hne : refs s F (o :: raw) o ≠ 0 := by
      rw [refs_cons_self]
      exact Nat.succ_ne_zero _
    have hobj := h.object o (h.alloc o hne)
    rw [decide_eq_false (fun hh => hne hh.1), refs_cons_self] at hobj
    exact absurd (positive_pos hobj) (Nat.not_lt.2 hpos)
  | succ fuel ih =>
    intro s F X raw o h hF hpos
    have hne : refs s F (o :: raw) o ≠ 0 := by
      rw [refs_cons_self]
      exact Nat.succ_ne_zero _
    have hlt := h.alloc o hne
    have hoX : o ∉ X := fun hX => hne (h.dying o hX).2
    have hobj := h.object o hlt
    rw [decide_eq_false (fun hh => hne hh.1), refs_cons_self] at hobj
    have hcount : refCount s o = .ok (refs s F raw o + 1) := (h.refCount_eq (Or.inl hne)).trans (congrArg _ refs_cons_self)
    have hother : ∀ o' ≠ o, raw.count o' = (o :: raw).count o' := fun o' ho' =>
      (List.count_cons_of_ne (Ne.symm ho')).symm
    obtain ⟨hle, hless⟩ := positive_setCount hobj
    by_cases hlast : refs s F raw o = 0
    · rw [hlast] at hle hless hcount
      have h1 : Counted (s.setCount o 0) F (insert o X) raw := by
        refine h.update hlt rfl ?_ hother (fun x hx => ?_) (fun _ => hlast) (fun _ _ => Or.inr (Finset.mem_insert_self o X))
        · simp [St.setCount, hlast]
        · rw [Finset.mem_insert, or_iff_right hx]
      have hF1 : ∀ h ∈ F, ∃ t, pointee (s.setCount o 0) h = some t ∧ t ∈ insert o X := by
        intro h hh
        obtain ⟨t, ht, hor⟩ := hF h hh
        exact ⟨t, ht, Finset.mem_insert.2 hor.symm⟩
      have hpos1 : positive (s.setCount o 0) ≤ fuel := Nat.le_of_lt_succ (Nat.lt_of_lt_of_le (hless rfl) hpos)
      have hends := destroy_spec ih h1 hoX hF1 hpos1
      have hunref : unref (fuel + 1) s o = destroy (unref fuel) (s.setCount o 0) o := by
        simp only [unref, hcount, ok_bind, Nat.zero_add, Nat.sub_self, gt_iff_lt, Nat.zero_lt_one]
        rfl
      rw [hunref]
      rcases hends with ⟨s', hs', h', hsh⟩ | hfault
      · exact Or.inl ⟨s', hs', h', hsh.rc, hsh.length, Nat.le_trans hsh.positive hle⟩
      · exact Or.inr hfault
    · refine Or.inl ⟨s.setCount o (refs s F raw o), ?_, ?_, fun _ => Or.inl rfl, rfl, hle⟩
      · simp [unref, hcount, hlast]
      · refine h.update hlt rfl ?_ hother (fun _ _ => Iff.rfl) (fun hX => absurd hX hoX) (fun _ _ => Or.inl hlast)
        simp [St.setCount, hlast]

/-- A destructor returns if the `unref` that it calls does. -/
theorem destruct_mono {g : St → Nat → Except Fault St} (hfg : ∀ s o s', f s o = .ok s' → g s o = .ok s')
    (h : destruct f s m = .ok s') : destruct g s m = .ok s' := by
  obtain ⟨p, hp, h⟩ := bind_ok h
  rw [destruct, hp, ok_bind]
  cases p with
  | none => exact h
  | some o =>
    obtain ⟨count, hcount, h⟩ := bind_ok h
    obtain ⟨hzero, h⟩ := guard_ok h rfl
    obtain ⟨s1, hunref, h⟩ := bind_ok h
    simp only [hcount, ok_bind, if_neg hzero, hfg s o s1 hunref]
    exact h

/-- What `unref` returns does not depend on the fuel. -/
theorem unref_succ (h : unref fuel s o = .ok s') : unref (fuel + 1) s o = .ok s' := by
  induction fuel generalizing s o s' with
  | zero => cases h
  | succ fuel ih =>
    have hdestruct : ∀ s m s', destruct (unref fuel) s m = .ok s' → destruct (unref (fuel + 1)) s m = .ok s' :=
      fun _ _ _ => destruct_mono fun _ _ _ => ih
    obtain ⟨count, hcount, h⟩ := bind_ok h
    obtain ⟨hpos, h⟩ := guard_ok h rfl
    rw [unref, hcount, ok_bind, if_neg hpos]
    by_cases hlast : count - 1 = 0
    · simp only [if_pos hlast] at h ⊢
      obtain ⟨s1, hfold, h⟩ := bind_ok h
      rw [destroy, foldlM_ok hdestruct hfold]
      exact h
    · simp only [if_neg hlast] at h ⊢
      exact h

theorem unrefPtr_succ {p : Option Nat} (h : unrefPtr fuel s p = .ok s') : unrefPtr (fuel + 1) s p = .ok s' := by
  cases p with
  | none => exact h
  | some o => exact unref_succ h

/-! ## What is left -/

/-- What dies has no references left. -/
theorem Counted.refs_of_dies (h' : Counted s' F X raw) (hsh : Shrinks (graph s F X raw) s s')
    (hx : (graph s F X raw).Dies x) : refs s' F raw x = 0 := by
  induction hx with
  | @intro x hkept hpart hdies ih =>
    refine refs_eq_zero.2 ⟨fun hraw => hkept (Or.inl hraw), fun m hm => ?_⟩
    by_contra hmF
    -- the holder is still there, and so is its owner, which has no references left
    have heq : s'.rc? m = s.rc? m := hsh.rc?_eq (alive_of_pointee hm)
    have hholds : (graph s F X raw).holds m x := ⟨(pointee_congr heq).symm.trans hm, hmF⟩
    obtain ⟨y, hy⟩ := hpart m hholds
    rcases h'.owned m y ((owner_congr heq).trans hy) with hne | hX
    · exact hne (ih m y hholds hy)
    · exact (hdies m y hholds hy).not_kept (Or.inr hX)

/-- What has no references left, dies: the handles that pointed to it have gone with objects that die. -/
theorem Shrinks.dies_of_refs (hsh : Shrinks (graph s F X raw) s s') (hX : x ∉ X) (hzero : refs s' F raw x = 0) :
    (graph s F X raw).Dies x := by
  obtain ⟨hraw, hholds⟩ := refs_eq_zero.1 hzero
  refine .of_doomed (fun hkept => hkept.elim hraw hX) fun m hm => ?_
  rcases hsh.rc m with heq | ⟨_, hdoomed⟩
  · exact absurd (hholds m ((pointee_congr heq).trans hm.1)) hm.2
  · exact hdoomed

/-- **What has been deleted is what dies.** -/
theorem Counted.destroyed_iff {obj : A3Rc.RefCounted} (h' : Counted s' F X raw) (hsh : Shrinks (graph s F X raw) s s')
    (hX : x ∉ X) (hobj : s'.objects[x]? = some obj) : obj.destroyed = true ↔ (graph s F X raw).Dies x := by
  have heq := h'.object x (List.getElem?_eq_some_iff.1 hobj).1
  rw [hobj] at heq
  cases Option.some.inj heq
  rw [decide_eq_true_iff, and_iff_left hX]
  exact ⟨hsh.dies_of_refs hX, h'.refs_of_dies hsh⟩

/-- A member of what dies has been destructed. -/
theorem Counted.not_alive (h' : Counted s' F X raw) (hsh : Shrinks (graph s F X raw) s s')
    (hd : (graph s F X raw).Doomed h) : ¬Alive s' h := by
  intro ha
  obtain ⟨y, hy, hdies⟩ := hd
  rcases h'.owned h y ((owner_congr (hsh.rc?_eq ha)).trans hy) with hne | hX
  · exact hne (h'.refs_of_dies hsh hdies)
  · exact hdies.not_kept (Or.inr hX)

end A3RcGraph
