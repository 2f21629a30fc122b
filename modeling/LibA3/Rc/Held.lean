import LibA3.Rc.Graph
import Mathlib.Data.Finset.Card
import Mathlib.Data.List.Count

/-!
# Counts and handles

`Counted` is the invariant of objects that hold handles: an object counts the handles that point to it and what is left of
its creation reference, and has been deleted when there are none; a handle is a member of an object that has not been
deleted. It is true in the middle of an operation as well: the handles in `F` are in flight, they still point to what they
have no reference to any more, and the objects in `X` are being deleted.
-/

namespace A3RcGraph

variable {s s' : St} {F F' X X' : Finset Nat} {raw raw' : List Nat} {h m o x : Nat} {rc : Rc}

/-! ## Handles -/

def Alive (s : St) (h : Nat) : Prop := ∃ rc, s.rc? h = some rc

theorem rc?_eq_some : s.rc? h = some rc ↔ s.handles[h]? = some (some rc) := Option.join_eq_some_iff

theorem lt_of_rc? (h' : s.rc? h = some rc) : h < s.handles.length := (List.getElem?_eq_some_iff.1 (rc?_eq_some.1 h')).1

theorem owner_eq (h' : s.rc? h = some rc) : owner s h = rc.owner := by rw [owner, h', Option.bind_some]

theorem pointee_eq (h' : s.rc? h = some rc) : pointee s h = rc.ptr := by rw [pointee, h', Option.bind_some]

theorem owner_congr (h' : s'.rc? h = s.rc? h) : owner s' h = owner s h := by rw [owner, h', owner]

theorem pointee_congr (h' : s'.rc? h = s.rc? h) : pointee s' h = pointee s h := by rw [pointee, h', pointee]

theorem alive_of_owner (h' : owner s h = some x) : Alive s h := by
  obtain ⟨rc, hrc, _⟩ := Option.bind_eq_some_iff.1 h'
  exact ⟨rc, hrc⟩

theorem alive_of_pointee (h' : pointee s h = some o) : Alive s h := by
  obtain ⟨rc, hrc, _⟩ := Option.bind_eq_some_iff.1 h'
  exact ⟨rc, hrc⟩

theorem Alive.lt (ha : Alive s h) : h < s.handles.length := by
  obtain ⟨rc, hrc⟩ := ha
  exact lt_of_rc? hrc

theorem Alive.ptr (ha : Alive s h) : s.ptr h = .ok (pointee s h) := by
  obtain ⟨rc, hrc⟩ := ha
  rw [St.ptr, rc?_eq_some.1 hrc, pointee_eq hrc]

/-- A destructed handle is not read. -/
theorem ptr_none (hlt : h < s.handles.length) (hrc : s.rc? h = none) : s.ptr h = .error .useAfterFree := by
  have hget : s.handles[h]? = some none := by
    rw [St.rc?, List.getElem?_eq_getElem hlt] at hrc
    rw [List.getElem?_eq_getElem hlt]
    exact congrArg some hrc
  rw [St.ptr, hget]

theorem rc?_drop (s : St) (m h : Nat) : (s.drop m).rc? h = if h = m then none else s.rc? h := by
  by_cases heq : h = m
  · subst heq
    rw [if_pos rfl, St.rc?, St.drop]
    by_cases hlt : h < s.handles.length
    · rw [List.getElem?_set_self hlt]
      rfl
    · rw [List.getElem?_eq_none (by simpa using hlt)]
      rfl
  · rw [if_neg heq, St.rc?, St.drop, List.getElem?_set_ne (Ne.symm heq), St.rc?]

/-! ## References -/

/-- The handles that have a reference to `o`. -/
def holders (s : St) (F : Finset Nat) (o : Nat) : Finset Nat :=
  (Finset.range s.handles.length).filter fun h => pointee s h = some o ∧ h ∉ F

/-- The references to `o`: the handles', and the creation reference if nobody has adopted it. -/
def refs (s : St) (F : Finset Nat) (raw : List Nat) (o : Nat) : Nat := (holders s F o).card + raw.count o

theorem mem_holders : h ∈ holders s F o ↔ pointee s h = some o ∧ h ∉ F := by
  rw [holders, Finset.mem_filter, Finset.mem_range]
  exact ⟨And.right, fun hh => ⟨(alive_of_pointee hh.1).lt, hh⟩⟩

theorem holders_congr (hh : ∀ h, pointee s' h = some o ∧ h ∉ F' ↔ pointee s h = some o ∧ h ∉ F) :
    holders s' F' o = holders s F o := by
  ext h
  rw [mem_holders, mem_holders, hh h]

theorem refs_congr (raw : List Nat) (hh : ∀ h, pointee s' h = some o ∧ h ∉ F' ↔ pointee s h = some o ∧ h ∉ F) :
    refs s' F' raw o = refs s F raw o := by
  rw [refs, holders_congr hh, refs]

/-- A handle in flight has handed its reference over. -/
theorem refs_flight (hm : m ∉ F) (raw : List Nat) (o : Nat) :
    refs s (insert m F) ((pointee s m).toList ++ raw) o = refs s F raw o := by
  by_cases hp : pointee s m = some o
  · have hmem : m ∉ holders s (insert m F) o := fun hin => (mem_holders.1 hin).2 (Finset.mem_insert_self m F)
    have hholders : holders s F o = insert m (holders s (insert m F) o) := by
      ext h
      rw [Finset.mem_insert, mem_holders, mem_holders, Finset.mem_insert, not_or]
      by_cases heq : h = m
      · subst heq
        simp [hp, hm]
      · simp [heq]
    rw [refs, refs, hholders, Finset.card_insert_of_notMem hmem, hp, Option.toList_some, List.singleton_append,
      List.count_cons_self]
    omega
  · have hholders : holders s (insert m F) o = holders s F o := by
      refine holders_congr fun h => ?_
      rw [Finset.mem_insert, not_or]
      exact ⟨fun hh => ⟨hh.1, hh.2.2⟩, fun hh => ⟨hh.1, fun heq => hp (heq ▸ hh.1), hh.2⟩⟩
    have hcount : (pointee s m).toList.count o = 0 := by
      rw [List.count_eq_zero, Option.mem_toList]
      exact hp
    rw [refs, refs, hholders, List.count_append, hcount, Nat.zero_add]

theorem refs_eq_zero : refs s F raw o = 0 ↔ o ∉ raw ∧ ∀ h, pointee s h = some o → h ∈ F := by
  rw [refs, Nat.add_eq_zero_iff, Finset.card_eq_zero, List.count_eq_zero, Finset.eq_empty_iff_forall_notMem]
  simp only [mem_holders, not_and, not_not]
  exact And.comm

theorem refs_ne_zero_of_holds (hp : pointee s h = some o) (hF : h ∉ F) : refs s F raw o ≠ 0 := fun hzero =>
  hF ((refs_eq_zero.1 hzero).2 h hp)

theorem refs_cons_self : refs s F (o :: raw) o = refs s F raw o + 1 := by
  rw [refs, refs, List.count_cons_self, Nat.add_assoc]

theorem refs_congr_raw (hcount : raw'.count o = raw.count o) : refs s F raw' o = refs s F raw o := by
  rw [refs, refs, hcount]

/-! ## Counting -/

structure Counted (s : St) (F X : Finset Nat) (raw : List Nat) : Prop where
  object : ∀ o < s.objects.length, s.objects[o]? = some ⟨refs s F raw o, decide (refs s F raw o = 0 ∧ o ∉ X)⟩
  alloc : ∀ o, refs s F raw o ≠ 0 → o < s.objects.length
  dying : ∀ x ∈ X, x < s.objects.length ∧ refs s F raw x = 0
  owned : ∀ h x, owner s h = some x → refs s F raw x ≠ 0 ∨ x ∈ X
  flight : ∀ h ∈ F, Alive s h

namespace Counted

/-- References change hands. -/
theorem congr (h : Counted s F X raw) (hobjects : s'.objects = s.objects)
    (hrefs : ∀ o, refs s' F' raw' o = refs s F raw o)
    (howned : ∀ h x, owner s' h = some x → refs s F raw x ≠ 0 ∨ x ∈ X) (hflight : ∀ h ∈ F', Alive s' h) :
    Counted s' F' X raw' where
  object := by
    simp only [hobjects, hrefs]
    exact h.object
  alloc := by
    simp only [hobjects, hrefs]
    exact h.alloc
  dying := by
    simp only [hobjects, hrefs]
    exact h.dying
  owned h' x hx := by
    rw [hrefs]
    exact howned h' x hx
  flight := hflight

/-- One object's references change, or whether it is being deleted. -/
theorem update (h : Counted s F X raw) (hlt : o < s.objects.length) (hhandles : s'.handles = s.handles)
    (hobjects : s'.objects = s.objects.set o ⟨refs s F raw' o, decide (refs s F raw' o = 0 ∧ o ∉ X')⟩)
    (hcount : ∀ o' ≠ o, raw'.count o' = raw.count o') (hdying : ∀ x ≠ o, x ∈ X' ↔ x ∈ X)
    (hself : o ∈ X' → refs s F raw' o = 0)
    (howner : ∀ h, owner s h = some o → refs s F raw' o ≠ 0 ∨ o ∈ X') : Counted s' F X' raw' := by
  obtain ⟨objects, handles⟩ := s'
  cases hhandles
  cases hobjects
  have hrefs : ∀ o', refs ⟨s.objects.set o ⟨refs s F raw' o, decide (refs s F raw' o = 0 ∧ o ∉ X')⟩, s.handles⟩ F raw' o' =
      refs s F raw' o' := fun _ => rfl
  constructor
  · intro o' ho'
    rw [List.length_set] at ho'
    rw [hrefs]
    by_cases heq : o' = o
    · subst heq
      exact List.getElem?_set_self hlt
    · rw [List.getElem?_set_ne (Ne.symm heq), h.object o' ho', refs_congr_raw (hcount o' heq)]
      simp only [hdying o' heq]
  · intro o' ho'
    rw [List.length_set]
    by_cases heq : o' = o
    · exact heq ▸ hlt
    · rw [hrefs, refs_congr_raw (hcount o' heq)] at ho'
      exact h.alloc o' ho'
  · intro x hx
    rw [List.length_set, hrefs]
    by_cases heq : x = o
    · subst heq
      exact ⟨hlt, hself hx⟩
    · rw [refs_congr_raw (hcount x heq)]
      exact h.dying x ((hdying x heq).1 hx)
  · intro h' x hx
    rw [hrefs]
    by_cases heq : x = o
    · subst heq
      exact howner h' hx
    · rw [refs_congr_raw (hcount x heq), hdying x heq]
      exact h.owned h' x hx
  · exact h.flight

/-- The reference of a handle in flight is with whoever has the creation references. -/
theorem fly (h : Counted s F X raw) (hm : m ∉ F) (ha : Alive s m) :
    Counted s (insert m F) X ((pointee s m).toList ++ raw) := by
  refine h.congr rfl (refs_flight hm raw) h.owned fun f hf => ?_
  rcases Finset.mem_insert.1 hf with rfl | hf
  · exact ha
  · exact h.flight f hf

theorem land (h : Counted s (insert m F) X ((pointee s m).toList ++ raw)) (hm : m ∉ F) : Counted s F X raw :=
  h.congr rfl (fun o => (refs_flight hm raw o).symm) h.owned fun f hf =>
    h.flight f (Finset.mem_insert_of_mem hf)

/-- A handle in flight goes without a trace. -/
theorem drop (h : Counted s (insert m F) X raw) (hm : m ∉ F) : Counted (s.drop m) F X raw := by
  have hrc : ∀ f ≠ m, (s.drop m).rc? f = s.rc? f := fun f hne => by rw [rc?_drop, if_neg hne]
  have hgone : (s.drop m).rc? m = none := by rw [rc?_drop, if_pos rfl]
  refine h.congr rfl (fun o => refs_congr raw fun f => ?_) (fun f x hx => ?_) (fun f hf => ?_)
  · rw [Finset.mem_insert, not_or]
    by_cases heq : f = m
    · subst heq
      simp [pointee, hgone]
    · simp [heq, pointee_congr (hrc f heq)]
  · by_cases heq : f = m
    · subst heq
      rw [owner, hgone] at hx
      cases hx
    · rw [owner_congr (hrc f heq)] at hx
      exact h.owned f x hx
  · have hne : f ≠ m := fun heq => hm (heq ▸ hf)
    obtain ⟨rc, hf'⟩ := h.flight f (Finset.mem_insert_of_mem hf)
    exact ⟨rc, (hrc f hne).trans hf'⟩

/-- A handle that points to nothing lands anywhere. -/
theorem land_none (h : Counted s (insert m F) X raw) (hm : m ∉ F) (hp : pointee s m = none) : Counted s F X raw := by
  refine land ?_ hm
  rw [hp]
  exact h

theorem congr_raw (h : Counted s F X raw) (hcount : ∀ o, raw'.count o = raw.count o) : Counted s F X raw' :=
  h.congr rfl (fun o => refs_congr_raw (hcount o)) h.owned h.flight

theorem refCount_eq (h : Counted s F X raw) (hlive : refs s F raw o ≠ 0 ∨ o ∈ X) : refCount s o = .ok (refs s F raw o) := by
  have hlt : o < s.objects.length := hlive.elim (h.alloc o) fun hx => (h.dying o hx).1
  have hdestroyed : ¬(refs s F raw o = 0 ∧ o ∉ X) := by tauto
  rw [refCount, h.object o hlt, decide_eq_false hdestroyed]
  rfl

/-- An object that a handle points to is alive, and counts the handle. -/
theorem object_of_holds (h : Counted s F X raw) (hp : pointee s m = some o) (hm : m ∉ F) :
    s.objects[o]? = some ⟨refs s F raw o, false⟩ := by
  have hne : refs s F raw o ≠ 0 := refs_ne_zero_of_holds hp hm
  rw [h.object o (h.alloc o hne), decide_eq_false fun hzero => hne hzero.1]

end Counted

/-! ## What the code does to handles and counts -/

/-- A handle in flight is written. -/
theorem setPtr_spec (h : Counted s F X raw) (hm : m ∈ F) (p : Option Nat) :
    ∃ s', s.setPtr m p = .ok s' ∧ Counted s' F X raw ∧ pointee s' m = p ∧ ∀ j ≠ m, s'.rc? j = s.rc? j := by
  obtain ⟨rc, hrc⟩ := h.flight m hm
  have hget := rc?_eq_some.1 hrc
  have hself : St.rc? { s with handles := s.handles.set m (some { rc with ptr := p }) } m = some { rc with ptr := p } := by
    rw [rc?_eq_some, List.getElem?_set_self (lt_of_rc? hrc)]
  have hother : ∀ j ≠ m, St.rc? { s with handles := s.handles.set m (some { rc with ptr := p }) } j = s.rc? j := by
    intro j hne
    rw [St.rc?, List.getElem?_set_ne (Ne.symm hne), St.rc?]
  refine ⟨{ s with handles := s.handles.set m (some { rc with ptr := p }) }, by rw [St.setPtr, hget],
    h.congr rfl (fun o => ?_) (fun j x hx => ?_) (fun j hj => ?_), pointee_eq hself, hother⟩
  · refine refs_congr raw fun j => ?_
    by_cases heq : j = m
    · subst heq
      simp [hm]
    · rw [pointee_congr (hother j heq)]
  · by_cases heq : j = m
    · subst heq
      rw [owner_eq hself] at hx
      exact h.owned j x ((owner_eq hrc).trans hx)
    · rw [owner_congr (hother j heq)] at hx
      exact h.owned j x hx
  · by_cases heq : j = m
    · subst heq
      exact ⟨_, hself⟩
    · obtain ⟨rc', hrc'⟩ := h.flight j hj
      exact ⟨rc', (hother j heq).trans hrc'⟩

theorem rc?_construct_self (s : St) (ow p : Option Nat) : (s.construct ow p).rc? s.handles.length = some ⟨ow, p⟩ := by
  rw [rc?_eq_some, St.construct, List.getElem?_concat_length]

theorem rc?_construct_ne (ow p : Option Nat) (hne : h ≠ s.handles.length) : (s.construct ow p).rc? h = s.rc? h := by
  unfold St.rc? St.construct
  rcases Nat.lt_or_gt_of_ne hne with hlt | hgt
  · rw [List.getElem?_append_left hlt]
  · rw [List.getElem?_eq_none (Nat.le_of_lt hgt), List.getElem?_eq_none]
    rw [List.length_append, List.length_singleton]
    exact hgt

/-- A handle is constructed in flight. -/
theorem construct_spec (h : Counted s F X raw) {ow : Option Nat} (how : ∀ x, ow = some x → refs s F raw x ≠ 0 ∨ x ∈ X)
    (p : Option Nat) :
    Counted (s.construct ow p) (insert s.handles.length F) X raw ∧
      ∀ o, refs (s.construct ow p) (insert s.handles.length F) raw o = refs s F raw o := by
  have hnew : ∀ j, Alive s j → j ≠ s.handles.length := fun j ha => Nat.ne_of_lt ha.lt
  have hrefs : ∀ o, refs (s.construct ow p) (insert s.handles.length F) raw o = refs s F raw o := by
    refine fun o => refs_congr raw fun j => ?_
    rw [Finset.mem_insert, not_or]
    constructor
    · rintro ⟨hp, hne, hF⟩
      exact ⟨(pointee_congr (rc?_construct_ne ow p hne)).symm.trans hp, hF⟩
    · rintro ⟨hp, hF⟩
      have hne := hnew j (alive_of_pointee hp)
      exact ⟨(pointee_congr (rc?_construct_ne ow p hne)).trans hp, hne, hF⟩
  refine ⟨h.congr rfl hrefs (fun j x hx => ?_) (fun j hj => ?_), hrefs⟩
  · by_cases heq : j = s.handles.length
    · subst heq
      rw [owner_eq (rc?_construct_self s ow p)] at hx
      exact how x hx
    · rw [owner_congr (rc?_construct_ne ow p heq)] at hx
      exact h.owned j x hx
  · rcases Finset.mem_insert.1 hj with rfl | hj
    · exact ⟨_, rc?_construct_self s ow p⟩
    · obtain ⟨rc, hrc⟩ := h.flight j hj
      exact ⟨rc, (rc?_construct_ne ow p (hnew j ⟨rc, hrc⟩)).trans hrc⟩

theorem refPtr_spec {w : Nat} {p : Option Nat} (h : Counted s F X raw) (hp : ∀ o, p = some o → refs s F raw o ≠ 0)
    (hw : ∀ o, p = some o → refs s F raw o + 1 < 2 ^ w) :
    ∃ s', refPtr w s p = .ok s' ∧ Counted s' F X (p.toList ++ raw) ∧ s'.handles = s.handles := by
  cases p with
  | none => exact ⟨s, rfl, h, rfl⟩
  | some o =>
    have hne := hp o rfl
    have hoX : o ∉ X := fun hX => hne (h.dying o hX).2
    refine ⟨s.setCount o (refs s F raw o + 1), ?_, ?_, rfl⟩
    · simp only [refPtr, ref, h.refCount_eq (Or.inl hne), bind, Except.bind, pure, Except.pure, Nat.mod_eq_of_lt (hw o rfl)]
    · refine h.update (h.alloc o hne) rfl ?_ (fun o' ho' => List.count_cons_of_ne (Ne.symm ho')) (fun _ _ => Iff.rfl)
        (fun hX => absurd hX hoX) (fun _ _ => Or.inl ?_)
      · rw [Option.toList_some, List.singleton_append, refs_cons_self,
          decide_eq_false fun hzero => Nat.succ_ne_zero _ hzero.1]
        rfl
      · rw [Option.toList_some, List.singleton_append, refs_cons_self]
        exact Nat.succ_ne_zero _

/-- The creator's reference. -/
theorem newObject_spec {w : Nat} (h : Counted s F X raw) (hw : 1 < 2 ^ w) :
    Counted (newObject w s) F X (s.objects.length :: raw) := by
  have hzero : refs s F raw s.objects.length = 0 := by
    by_contra hne
    exact Nat.lt_irrefl _ (h.alloc _ hne)
  have hrefs : ∀ o ≠ s.objects.length, refs (newObject w s) F (s.objects.length :: raw) o = refs s F raw o := fun o ho =>
    refs_congr_raw (List.count_cons_of_ne (Ne.symm ho))
  have hself : refs (newObject w s) F (s.objects.length :: raw) s.objects.length = 1 := by
    rw [refs_cons_self]
    exact congrArg (· + 1) hzero
  have hlength : (newObject w s).objects.length = s.objects.length + 1 := List.length_append
  refine ⟨fun o ho => ?_, fun o ho => ?_, fun x hx => ?_, fun j x hx => ?_, h.flight⟩
  · by_cases heq : o = s.objects.length
    · subst heq
      rw [hself, newObject, List.getElem?_concat_length, Nat.mod_eq_of_lt hw]
      rfl
    · have hlt : o < s.objects.length := by omega
      rw [hrefs o heq, newObject, List.getElem?_append_left hlt]
      exact h.object o hlt
  · by_cases heq : o = s.objects.length
    · omega
    · rw [hrefs o heq] at ho
      have hlt := h.alloc o ho
      omega
  · obtain ⟨hlt, hx0⟩ := h.dying x hx
    refine ⟨by omega, ?_⟩
    rw [hrefs x (Nat.ne_of_lt hlt)]
    exact hx0
  · by_cases heq : x = s.objects.length
    · subst heq
      rw [hself]
      exact Or.inl Nat.one_ne_zero
    · rw [hrefs x heq]
      exact h.owned j x hx

/-- A handle in flight takes over the reference of another one to the same object. -/
theorem handOver_spec {other : Nat} (h : Counted s (insert m F) X raw) (hm : m ∉ F) (hother : other ∉ insert m F)
    (ha : Alive s other) (hp : pointee s m = pointee s other) :
    ∃ s', s.setPtr other none = .ok s' ∧ Counted s' F X raw ∧ ∀ j ≠ other, s'.rc? j = s.rc? j := by
  obtain ⟨s', hset, h', hnone, hrc⟩ := setPtr_spec (h.fly hother ha) (Finset.mem_insert_self other _) none
  have hne : m ≠ other := fun heq => hother (heq ▸ Finset.mem_insert_self m F)
  have h'' := h'.land_none hother hnone
  rw [← hp, ← pointee_congr (hrc m hne)] at h''
  exact ⟨s', hset, h''.land hm, hrc⟩

end A3RcGraph
