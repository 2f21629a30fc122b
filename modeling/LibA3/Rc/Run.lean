import LibA3.Rc.Count

/-!
# Runs of `Rc` operations

A reference is a handle that points to an object, or the creation reference of an object that nobody has adopted.
`effect` says what each operation does to the references; the objects then count them (`Counted`), whatever the order in
which the operation itself counts.
-/

namespace A3Rc

open Slots Trans

variable {w o h : Nat} {s s' : St} {v v' : World} {op : Op} {ops : List Op} {p q : Option Nat}

/-- The program's state, and the objects from `new` whose creation reference has not been adopted. -/
structure World where
  st : St
  raw : List Nat

def start : World := ⟨⟨[], [], []⟩, []⟩

def target (handle : Option Rc) : Option Nat := handle.bind Rc.ptr

/-- What handle `h` points to. -/
def pointee (s : St) (h : Nat) : Option Nat := (s.handles[h]?).bind target

/-- All references there are. -/
def references (v : World) : Multiset Nat := held target v.st.handles + ↑v.raw

/-- The references after an operation. -/
def effect (v : World) : Op → Multiset Nat
  | .new | .create => v.st.objects.length ::ₘ references v
  | .adopt _ | .move _ => references v
  | .ofPtr target => one target + references v
  | .copy other => one (pointee v.st other) + references v
  | .copyAssign this other =>
    if other = this then references v
    else one (pointee v.st other) + (references v - one (pointee v.st this))
  | .moveAssign this _ | .destruct this => references v - one (pointee v.st this)

def nextRaw (v : World) : Op → List Nat
  | .new => v.st.objects.length :: v.raw
  | .adopt (some o) => v.raw.erase o
  | _ => v.raw

/-- The handle's lifetime has begun and not ended. -/
def Alive (s : St) (h : Nat) : Prop := ∃ rc, s.handles[h]? = some (some rc)

/-- Creation references are adopted once, `Rc(T*)` is for live objects, and the handles used are alive. -/
def Allowed (v : World) : Op → Prop
  | .adopt (some o) => o ∈ v.raw
  | .ofPtr (some o) => ∃ obj, v.st.objects[o]? = some obj ∧ obj.destroyed = false
  | .copy h | .move h | .destruct h => Alive v.st h
  | .copyAssign this other | .moveAssign this other => Alive v.st this ∧ Alive v.st other
  | _ => True

/-- What the operation leaves is fewer than 2^w references to each object. -/
def Legal (w : Nat) (v : World) (op : Op) : Prop :=
  Allowed v op ∧ ∀ o ∈ effect v op, (effect v op).count o < 2 ^ w

def Step (w : Nat) (v : World) (op : Op) (v' : World) : Prop :=
  Legal w v op ∧ exec w v.st op = .ok v'.st ∧ v'.raw = nextRaw v op

def Inv (v : World) : Prop := Counted v.st (references v)

theorem inv_start : Inv start where
  object := fun _ ho => nomatch ho
  alloc := fun _ ho => nomatch ho
  deleted := fun _ => rfl

/-! ## Handles -/

/-- What the handles but `h` point to. -/
def apart (s : St) (h : Nat) : Multiset Nat := held target (s.handles.eraseIdx h)

theorem Alive.handle (ha : Alive s h) : s.handles[h]? = some (some ⟨pointee s h⟩) := by
  obtain ⟨rc, hrc⟩ := ha
  rw [pointee, hrc]
  rfl

theorem Alive.lt (ha : Alive s h) : h < s.handles.length := (List.getElem?_eq_some_iff.1 ha.handle).1

theorem Alive.ptr (ha : Alive s h) : s.ptr h = .ok (pointee s h) := by rw [St.ptr, ha.handle]

theorem ptr_congr (hhandles : s'.handles = s.handles) : s'.ptr h = s.ptr h := by rw [St.ptr, St.ptr, hhandles]

theorem ptr_setPtr (hlt : h < s.handles.length) : (s.setPtr h p).ptr h = .ok p := by
  rw [St.ptr, St.setPtr, List.getElem?_set_self hlt]

theorem held_alive (ha : Alive s h) : held target s.handles = one (pointee s h) + apart s h :=
  held_eraseIdx ha.handle

theorem held_setPtr (hlt : h < s.handles.length) : held target (s.setPtr h p).handles = one p + apart s h :=
  held_set hlt (some ⟨p⟩)

theorem held_drop (hlt : h < s.handles.length) : held target (s.drop h).handles = apart s h := by
  rw [St.drop, held_set hlt none]
  exact Multiset.zero_add _

theorem held_construct : held target (s.construct p).handles = one p + held target s.handles :=
  held_concat target s.handles (some ⟨p⟩)

theorem held_adopt : held target (adopt s p).handles = one p + held target s.handles := by
  have hset : (s.handles ++ [some (Rc.mk none)]).set s.handles.length (some ⟨p⟩) = s.handles ++ [some ⟨p⟩] := by simp
  rw [adopt, St.setPtr, St.construct, hset]
  exact held_concat target s.handles (some ⟨p⟩)

/-- Another handle's object does not need handle `h`. -/
theorem mem_apart {this other : Nat} (ha : Alive s other) (hne : other ≠ this) (ho : pointee s other = some o) :
    o ∈ apart s this :=
  mem_held_eraseIdx ha.handle hne ho

/-- A handle that is moved from leaves its object to the handle that is moved to. -/
theorem held_moved {this other : Nat} (ht : Alive s this) (ho : Alive s other) :
    held target ((s.setPtr this (pointee s other)).setPtr other none).handles = apart s this := by
  have hlt : other < (s.setPtr this (pointee s other)).handles.length := by
    rw [St.setPtr, List.length_set]
    exact ho.lt
  rw [held_setPtr hlt, one_none, Multiset.zero_add]
  by_cases heq : other = this
  · subst heq
    rw [apart, St.setPtr, List.eraseIdx_set_eq, apart]
  · have hother : (s.setPtr this (pointee s other)).handles[other]? = some (some ⟨pointee s other⟩) := by
      rw [St.setPtr, List.getElem?_set_ne (Ne.symm heq), ho.handle]
    have hheld : held target (s.setPtr this (pointee s other)).handles =
        one (pointee s other) + apart (s.setPtr this (pointee s other)) other := held_eraseIdx hother
    rw [held_setPtr ht.lt] at hheld
    exact (add_left_cancel hheld).symm

theorem references_alive (ha : Alive v.st h) : references v = one (pointee v.st h) + (apart v.st h + ↑v.raw) := by
  rw [references, held_alive ha, Multiset.add_assoc]

theorem references_sub (ha : Alive v.st h) : references v - one (pointee v.st h) = apart v.st h + ↑v.raw := by
  rw [references_alive ha, add_tsub_cancel_left]

/-! ## Operations -/

/-- The operation ends, its references are counted, and any new object has one. -/
def Done (w : Nat) (v : World) (op : Op) : Prop :=
  ∃ s', exec w v.st op = .ok s' ∧ Counted s' (effect v op) ∧ references ⟨s', nextRaw v op⟩ = effect v op ∧
    ∀ o, o < s'.objects.length ↔ o < v.st.objects.length ∨ o ∈ effect v op

theorem no_new (h : Counted s (effect v op)) (hlength : s.objects.length = v.st.objects.length) :
    ∀ o, o < s.objects.length ↔ o < v.st.objects.length ∨ o ∈ effect v op := by
  intro o
  rw [hlength]
  exact ⟨Or.inl, fun ho => ho.elim id fun ho => hlength ▸ h.alloc o ho⟩

theorem one_new (h : Counted s (effect v op)) (hlength : s.objects.length = v.st.objects.length + 1)
    (heffect : effect v op = v.st.objects.length ::ₘ references v) :
    ∀ o, o < s.objects.length ↔ o < v.st.objects.length ∨ o ∈ effect v op := by
  intro o
  constructor
  · intro ho
    rcases Nat.lt_succ_iff_lt_or_eq.1 (hlength ▸ ho) with ho | rfl
    · exact Or.inl ho
    · exact Or.inr (heffect ▸ Multiset.mem_cons_self _ _)
  · rintro (ho | ho)
    · omega
    · exact h.alloc o ho

theorem Legal.room (hlegal : Legal w v op) {refs : Multiset Nat} (heffect : effect v op = one p + refs) :
    ∀ o, p = some o → refs.count o + 1 < 2 ^ w := by
  rintro o rfl
  rw [one_some, Multiset.singleton_add] at heffect
  have hlt := hlegal.2 o (heffect ▸ Multiset.mem_cons_self o refs)
  rwa [heffect, Multiset.count_cons_self] at hlt

theorem done_copyAssign {this other : Nat} (hinv : Inv v) (hlegal : Legal w v (.copyAssign this other)) :
    Done w v (.copyAssign this other) := by
  obtain ⟨ht, ho⟩ := hlegal.1
  by_cases heq : other = this
  · have heffect : effect v (.copyAssign this other) = references v := by rw [effect, if_pos heq]
    have hcounted : Counted v.st (effect v (.copyAssign this other)) := heffect ▸ hinv
    refine ⟨v.st, ?_, hcounted, heffect ▸ rfl, no_new hcounted rfl⟩
    simp only [exec, copyAssign, if_pos heq, bind, Except.bind, pure, Except.pure]
  · have heffect : effect v (.copyAssign this other) = one (pointee v.st other) + (apart v.st this + ↑v.raw) := by
      rw [effect, if_neg heq, references_sub ht]
    have hcounted : Counted v.st (one (pointee v.st this) + (apart v.st this + ↑v.raw)) := references_alive ht ▸ hinv
    obtain ⟨s1, hunref, h1, hhandles1, hlength1⟩ := unrefPtr_spec hcounted
    have hptr1 : s1.ptr other = .ok (pointee v.st other) := by rw [ptr_congr hhandles1, ho.ptr]
    have hlt1 : this < s1.handles.length := hhandles1 ▸ ht.lt
    have h2 : Counted (s1.setPtr this (pointee v.st other)) (apart v.st this + ↑v.raw) := h1.congr rfl rfl
    have hmem : ∀ o, pointee v.st other = some o → o ∈ apart v.st this + (v.raw : Multiset Nat) := fun o hp =>
      Multiset.mem_add.2 (Or.inl (mem_apart ho heq hp))
    obtain ⟨s3, href, h3, hhandles3, hlength3⟩ := refPtr_spec h2 hmem (hlegal.room heffect)
    rw [← heffect] at h3
    refine ⟨s3, ?_, h3, ?_, no_new h3 (hlength3.trans hlength1)⟩
    · simp only [exec, copyAssign, if_neg heq, bind, Except.bind, ht.ptr, hunref, hptr1, ptr_setPtr hlt1, href]
    · have hheld : held target s3.handles = one (pointee v.st other) + apart v.st this := by
        rw [hhandles3, held_setPtr hlt1, apart, hhandles1, apart]
      rw [heffect, references, hheld, Multiset.add_assoc]
      rfl

theorem done_moveAssign {this other : Nat} (hinv : Inv v) (hlegal : Legal w v (.moveAssign this other)) :
    Done w v (.moveAssign this other) := by
  obtain ⟨ht, ho⟩ := hlegal.1
  have heffect : effect v (.moveAssign this other) = apart v.st this + ↑v.raw := references_sub ht
  have hcounted : Counted v.st (one (pointee v.st this) + (apart v.st this + ↑v.raw)) := references_alive ht ▸ hinv
  obtain ⟨s1, hunref, h1, hhandles1, hlength1⟩ := unrefPtr_spec hcounted
  have hptr1 : s1.ptr other = .ok (pointee v.st other) := by rw [ptr_congr hhandles1, ho.ptr]
  have h2 : Counted ((s1.setPtr this (pointee v.st other)).setPtr other none) (effect v (.moveAssign this other)) :=
    heffect ▸ h1.congr rfl rfl
  refine ⟨_, ?_, h2, ?_, no_new h2 hlength1⟩
  · simp only [exec, moveAssign, bind, Except.bind, ht.ptr, hunref, hptr1, pure, Except.pure]
  · have hheld := held_moved ht ho
    rw [heffect, ← hheld, references]
    simp only [St.setPtr, hhandles1]
    rfl

theorem done_destruct {this : Nat} (hinv : Inv v) (hlegal : Legal w v (.destruct this)) : Done w v (.destruct this) := by
  have ht : Alive v.st this := hlegal.1
  have heffect : effect v (.destruct this) = apart v.st this + ↑v.raw := references_sub ht
  have hcounted : Counted v.st (one (pointee v.st this) + (apart v.st this + ↑v.raw)) := references_alive ht ▸ hinv
  cases hp : pointee v.st this with
  | none =>
    rw [hp, one_none, Multiset.zero_add] at hcounted
    have h1 : Counted (v.st.drop this) (effect v (.destruct this)) := heffect ▸ hcounted.congr rfl rfl
    refine ⟨v.st.drop this, ?_, h1, ?_, no_new h1 rfl⟩
    · simp only [exec, destruct, ht.ptr, hp, bind, Except.bind, pure, Except.pure]
    · rw [heffect, references, held_drop ht.lt]
      rfl
  | some o =>
    rw [hp, one_some, Multiset.singleton_add] at hcounted
    have hcount := hcounted.refCount_eq (Multiset.mem_cons_self o _)
    rw [Multiset.count_cons_self] at hcount
    obtain ⟨s1, hunref, h1, hhandles1, hlength1⟩ := unref_spec hcounted
    have hlt1 : this < s1.handles.length := hhandles1 ▸ ht.lt
    have h2 : Counted (s1.drop this) (effect v (.destruct this)) := heffect ▸ h1.congr rfl rfl
    refine ⟨s1.drop this, ?_, h2, ?_, no_new h2 hlength1⟩
    · simp only [exec, destruct, ht.ptr, hp, hcount, if_neg (Nat.succ_ne_zero _), hunref, bind, Except.bind, pure,
        Except.pure]
    · rw [heffect, references, held_drop hlt1, apart, hhandles1, apart]
      rfl

/-- A handle constructed from `p` with a reference of its own. -/
theorem constructed (hinv : Inv v) (hraw : nextRaw v op = v.raw) (heffect : effect v op = one p + references v)
    (hlegal : Legal w v op) (hmem : ∀ o, p = some o → o ∈ references v) :
    ∃ s', refPtr w (v.st.construct p) p = .ok s' ∧ Counted s' (effect v op) ∧ references ⟨s', nextRaw v op⟩ = effect v op ∧
      ∀ o, o < s'.objects.length ↔ o < v.st.objects.length ∨ o ∈ effect v op := by
  have hcounted : Counted (v.st.construct p) (references v) := hinv.congr rfl rfl
  obtain ⟨s', href, h', hhandles, hlength⟩ := refPtr_spec hcounted hmem (hlegal.room heffect)
  rw [← heffect] at h'
  refine ⟨s', href, h', ?_, no_new h' hlength⟩
  rw [heffect, references, hhandles, held_construct, hraw, references, Multiset.add_assoc]

/-- The first reference to an object fits its count. -/
theorem Legal.one_lt (hlegal : Legal w v op) (heffect : effect v op = o ::ₘ references v) : 1 < 2 ^ w := by
  have hlt := hlegal.2 o (heffect ▸ Multiset.mem_cons_self o _)
  rw [heffect, Multiset.count_cons_self] at hlt
  omega

theorem done_new (hinv : Inv v) (hlegal : Legal w v .new) : Done w v .new := by
  have heffect : effect v .new = v.st.objects.length ::ₘ references v := rfl
  have hnew : Counted (newObject w v.st) (effect v .new) := newObject_spec hinv (hlegal.one_lt heffect)
  refine ⟨newObject w v.st, rfl, hnew, ?_, one_new hnew List.length_append heffect⟩
  rw [heffect, references, nextRaw, ← Multiset.cons_coe, Multiset.add_cons]
  rfl

theorem done_adopt {target : Option Nat} (hinv : Inv v) (hlegal : Legal w v (.adopt target)) : Done w v (.adopt target) := by
  have heffect : effect v (.adopt target) = references v := rfl
  have hadopt : Counted (adopt v.st target) (effect v (.adopt target)) := hinv.congr rfl rfl
  refine ⟨adopt v.st target, rfl, hadopt, ?_, no_new hadopt rfl⟩
  rw [heffect, references, held_adopt]
  cases target with
  | none =>
    rw [one_none, Multiset.zero_add]
    rfl
  | some o =>
    -- the handle takes over the creation reference
    have ho : o ∈ v.raw := hlegal.1
    have hraw : o ::ₘ (v.raw.erase o : Multiset Nat) = v.raw := by
      rw [Multiset.cons_coe, Multiset.coe_eq_coe]
      exact (List.perm_cons_erase ho).symm
    rw [one_some, Multiset.singleton_add, nextRaw, Multiset.cons_add, ← Multiset.add_cons, hraw, references]

theorem done_create (hinv : Inv v) (hlegal : Legal w v .create) : Done w v .create := by
  have heffect : effect v .create = v.st.objects.length ::ₘ references v := rfl
  have hnew := newObject_spec hinv (hlegal.one_lt heffect)
  have hcreate : Counted (create w v.st) (effect v .create) := hnew.congr rfl rfl
  refine ⟨create w v.st, rfl, hcreate, ?_, one_new hcreate List.length_append heffect⟩
  rw [heffect, references, create, held_adopt, one_some, Multiset.singleton_add, Multiset.cons_add]
  rfl

theorem done_move {other : Nat} (hinv : Inv v) (hlegal : Legal w v (.move other)) : Done w v (.move other) := by
  have ha : Alive v.st other := hlegal.1
  have hlt : other < (v.st.construct (pointee v.st other)).handles.length := by
    rw [St.construct, List.length_append]
    exact Nat.lt_add_right 1 ha.lt
  have hapart : apart (v.st.construct (pointee v.st other)) other = one (pointee v.st other) + apart v.st other := by
    rw [apart, St.construct, List.eraseIdx_append_of_lt_length ha.lt]
    exact held_concat _ _ _
  have hmove : Counted ((v.st.construct (pointee v.st other)).setPtr other none) (effect v (.move other)) :=
    hinv.congr rfl rfl
  refine ⟨_, ?_, hmove, ?_, no_new hmove rfl⟩
  · simp only [exec, move, ha.ptr, bind, Except.bind, pure, Except.pure]
  · have heffect : effect v (.move other) = references v := rfl
    rw [heffect, references_alive ha, references, held_setPtr hlt, hapart, one_none, Multiset.zero_add, Multiset.add_assoc]
    rfl

/-- Every operation does to the references what `effect` says, and leaves them counted. -/
theorem done (hinv : Inv v) (hlegal : Legal w v op) : Done w v op := by
  cases op with
  | copyAssign this other => exact done_copyAssign hinv hlegal
  | moveAssign this other => exact done_moveAssign hinv hlegal
  | destruct this => exact done_destruct hinv hlegal
  | new => exact done_new hinv hlegal
  | adopt target => exact done_adopt hinv hlegal
  | create => exact done_create hinv hlegal
  | move other => exact done_move hinv hlegal
  | ofPtr target =>
    have hmem : ∀ o, target = some o → o ∈ references v := by
      rintro o rfl
      obtain ⟨obj, hobj, hlive⟩ := hlegal.1
      have hlt : o < v.st.objects.length := (List.getElem?_eq_some_iff.1 hobj).1
      have heq := hinv.object o hlt
      rw [hobj, Option.some.injEq] at heq
      subst heq
      exact Multiset.count_ne_zero.1 (of_decide_eq_false hlive)
    exact constructed hinv rfl rfl hlegal hmem
  | copy other =>
    have ha : Alive v.st other := hlegal.1
    have hmem : ∀ o, pointee v.st other = some o → o ∈ references v := by
      intro o ho
      rw [references_alive ha, ho]
      exact Multiset.mem_add.2 (Or.inl (Multiset.mem_singleton_self o))
    obtain ⟨s', href, h'⟩ := constructed hinv rfl rfl hlegal hmem
    refine ⟨s', ?_, h'⟩
    simp only [exec, copy, ha.ptr, bind, Except.bind, href]

/-! ## Runs -/

/-- The handles that point to `o`, and its creation reference if nobody has adopted it. -/
def refs (v : World) (o : Nat) : Nat := v.st.handles.countP (fun handle => target handle == some o) + v.raw.count o

theorem count_references (v : World) (o : Nat) : (references v).count o = refs v o := by
  rw [references, held, Multiset.count_add, Multiset.coe_count, Multiset.coe_count, refs, List.count_filterMap]

theorem inv_step (hinv : Inv v) (hstep : Step w v op v') : Inv v' ∧ references v' = effect v op ∧
    ∀ o, o < v'.st.objects.length ↔ o < v.st.objects.length ∨ o ∈ effect v op := by
  obtain ⟨st', raw'⟩ := v'
  obtain ⟨hlegal, hexec, rfl⟩ := hstep
  obtain ⟨s', hexec', hcounted, hrefs, hnew⟩ := done hinv hlegal
  obtain rfl : st' = s' := Except.ok.inj (hexec.symm.trans hexec')
  refine ⟨?_, hrefs, hnew⟩
  rw [Inv, hrefs]
  exact hcounted

theorem inv_run (hrun : Run (Step w) start ops v) : Inv v := by
  have hkeep : ∀ v op v', Inv v → Step w v op v' → Inv v' := fun _ _ _ hinv hstep => (inv_step hinv hstep).1
  exact hrun.invariant hkeep inv_start

theorem Inv.mem_deleted (hinv : Inv v) : o ∈ v.st.deleted ↔ o < v.st.objects.length ∧ o ∉ references v := by
  rw [← List.count_pos_iff, hinv.deleted o, ← Multiset.count_eq_zero]
  split
  case isTrue h => exact ⟨fun _ => h, fun _ => Nat.one_pos⟩
  case isFalse h => exact ⟨fun hpos => absurd hpos (Nat.lt_irrefl 0), fun hn => absurd hn h⟩

/-- The objects a step deletes are those that lose their last reference. -/
theorem deleted_step (hinv : Inv v) (hstep : Step w v op v') (o : Nat) :
    o ∉ v.st.deleted ∧ o ∈ v'.st.deleted ↔ refs v o ≠ 0 ∧ refs v' o = 0 := by
  obtain ⟨hinv', hrefs, hnew⟩ := inv_step hinv hstep
  have halloc := hinv.alloc o
  rw [hinv.mem_deleted, hinv'.mem_deleted, hnew o, ← count_references, ← count_references, ← hrefs, Multiset.count_ne_zero,
    Multiset.count_eq_zero]
  tauto

/-- **References are counted.** After every run the count of a live object is the number of its references, and an object
has been deleted once if it has none and not at all if it has some. Every legal operation ends, without touching a deleted
object, and deletes the objects whose last reference goes. -/
theorem rc_counts_references (w : Nat) (hrun : Run (Step w) start ops v) :
    (∀ o obj, v.st.objects[o]? = some obj → (obj.destroyed = false → obj.refCount = refs v o) ∧
      (obj.destroyed = true ↔ o ∈ v.st.deleted) ∧ v.st.deleted.count o = if refs v o = 0 then 1 else 0) ∧
    ∀ op, Legal w v op → ∃ v', Step w v op v' ∧
      ∀ o, o ∉ v.st.deleted ∧ o ∈ v'.st.deleted ↔ refs v o ≠ 0 ∧ refs v' o = 0 := by
  have hinv := inv_run hrun
  refine ⟨fun o obj hobj => ?_, fun op hlegal => ?_⟩
  · have hlt : o < v.st.objects.length := (List.getElem?_eq_some_iff.1 hobj).1
    obtain rfl := Option.some.inj (hobj.symm.trans (hinv.object o hlt))
    rw [count_references, hinv.mem_deleted, ← Multiset.count_eq_zero, count_references, hinv.deleted o, count_references]
    simp [hlt]
  · obtain ⟨s', hexec, _, _⟩ := done hinv hlegal
    have hstep : Step w v op ⟨s', nextRaw v op⟩ := ⟨hlegal, hexec, rfl⟩
    exact ⟨_, hstep, deleted_step hinv hstep⟩

/-- `auto r = Rc<T>::create(); auto r1 = r;`, and both are destructed, with a count of 32 bits. -/
theorem rc_counts_references_clone :
    ∃ v, Run (Step 32) start [.create, .copy 0, .destruct 0, .destruct 1] v ∧ ∀ op, Legal 32 v op →
      ∃ v', Step 32 v op v' ∧ ∀ o, o ∉ v.st.deleted ∧ o ∈ v'.st.deleted ↔ refs v o ≠ 0 ∧ refs v' o = 0 := by
  have hcreate : Step 32 start .create ⟨⟨[⟨1, false⟩], [some ⟨some 0⟩], []⟩, []⟩ := ⟨⟨trivial, by decide⟩, rfl, rfl⟩
  have hcopy : Step 32 ⟨⟨[⟨1, false⟩], [some ⟨some 0⟩], []⟩, []⟩ (.copy 0)
      ⟨⟨[⟨2, false⟩], [some ⟨some 0⟩, some ⟨some 0⟩], []⟩, []⟩ := ⟨⟨⟨_, rfl⟩, by decide⟩, rfl, rfl⟩
  have hdestruct : Step 32 ⟨⟨[⟨2, false⟩], [some ⟨some 0⟩, some ⟨some 0⟩], []⟩, []⟩ (.destruct 0)
      ⟨⟨[⟨1, false⟩], [none, some ⟨some 0⟩], []⟩, []⟩ := ⟨⟨⟨_, rfl⟩, by decide⟩, rfl, rfl⟩
  have hlast : Step 32 ⟨⟨[⟨1, false⟩], [none, some ⟨some 0⟩], []⟩, []⟩ (.destruct 1)
      ⟨⟨[⟨0, true⟩], [none, none], [0]⟩, []⟩ := ⟨⟨⟨_, rfl⟩, by decide⟩, rfl, rfl⟩
  have hrun := Run.cons hcreate (.cons hcopy (.cons hdestruct (.single hlast)))
  exact ⟨_, hrun, (rc_counts_references 32 hrun).2⟩

end A3Rc
