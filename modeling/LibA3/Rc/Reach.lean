import LibA3.Fuel
import LibA3.Rc.Assign
import LibA3.Trans

/-!
# Runs with objects that hold handles

Objects are created, handles are constructed as variables or in objects, assigned and destructed, in any order and as long
as every call returns. The objects always count the handles that point to them (`inv_run`), so in every state that is reached
it can be said which assignments do what they should.

* `assigned_iff` — an assignment ends with the handle pointing to the other handle's object, alive and counted, exactly if
  neither handle is a member of an object that dies when the old target is let go of; a self-move must be of a null handle
-/

namespace A3RcGraph

open Fallible Trans

variable {w fuel this other o x : Nat} {s s' : St} {raw : List Nat} {ow p : Option Nat} {op : Op} {ops : List Op}

/-- The program's state, and the objects from `new` whose creation reference has not been adopted. -/
structure World where
  st : St
  raw : List Nat

variable {v v' : World}

def start : World := ⟨⟨[], []⟩, []⟩

def nextRaw (v : World) : Op → List Nat
  | .new => v.st.objects.length :: v.raw
  | .adopt _ (some o) => v.raw.erase o
  | _ => v.raw

/-- There is an object, and it has not been deleted. -/
def Live (s : St) (o : Nat) : Prop := ∃ obj, s.objects[o]? = some obj ∧ obj.destroyed = false

/-- Handles are constructed in live objects, creation references are adopted once, `Rc(T*)` is for live objects, and the
handles used are alive. -/
def Allowed (v : World) : Op → Prop
  | .new => True
  | .adopt owner target => (∀ x, owner = some x → Live v.st x) ∧ ∀ o, target = some o → o ∈ v.raw
  | .create owner => ∀ x, owner = some x → Live v.st x
  | .ofPtr owner target => (∀ x, owner = some x → Live v.st x) ∧ ∀ o, target = some o → Live v.st o
  | .copy owner other | .move owner other => (∀ x, owner = some x → Live v.st x) ∧ Alive v.st other
  | .copyAssign this other | .moveAssign this other => Alive v.st this ∧ Alive v.st other
  | .destruct this => Alive v.st this

/-- A count of `w` bits can count one reference more, where the operation adds one. -/
def Room (w : Nat) (v : World) : Op → Prop
  | .new | .create _ => 1 < 2 ^ w
  | .ofPtr _ target => ∀ o, target = some o → refs v.st ∅ v.raw o + 1 < 2 ^ w
  | .copy _ other => ∀ o, pointee v.st other = some o → refs v.st ∅ v.raw o + 1 < 2 ^ w
  | .copyAssign this other => ∀ o, pointee v.st other = some o → refs v.st {this} v.raw o + 1 < 2 ^ w
  | _ => True

def Step (w : Nat) (v : World) (op : Op) (v' : World) : Prop :=
  Allowed v op ∧ Room w v op ∧ (∃ k, ∀ fuel, k ≤ fuel → exec w fuel v.st op = .ok v'.st) ∧ v'.raw = nextRaw v op

def Inv (v : World) : Prop := Counted v.st ∅ ∅ v.raw

theorem inv_start : Inv start where
  object := fun _ ho => nomatch ho
  alloc := fun _ ho => absurd rfl ho
  dying := fun x hx => absurd hx (Finset.notMem_empty x)
  owned := fun _ _ hx => nomatch hx
  flight := fun h hh => absurd hh (Finset.notMem_empty h)

/-! ## Operations -/

theorem Counted.refs_ne_zero (h : Counted s ∅ ∅ raw) (hl : Live s o) : refs s ∅ raw o ≠ 0 := by
  obtain ⟨obj, hobj, hlive⟩ := hl
  intro hzero
  have heq := h.object o (List.getElem?_eq_some_iff.1 hobj).1
  rw [hobj, hzero] at heq
  cases Option.some.inj heq
  cases hlive

/-- The owner of a new handle. -/
theorem Counted.holds_owner (h : Counted s ∅ ∅ raw) (how : ∀ x, ow = some x → Live s x) :
    ∀ x, ow = some x → refs s ∅ raw x ≠ 0 ∨ x ∈ (∅ : Finset Nat) :=
  fun x hx => Or.inl (h.refs_ne_zero (how x hx))

theorem adopt_spec (h : Counted s ∅ ∅ (p.toList ++ raw)) (how : ∀ x, ow = some x → Live s x) :
    ∃ s', adopt s ow p = .ok s' ∧ Counted s' ∅ ∅ raw := by
  have hnew := (construct_spec h (h.holds_owner how) none).1
  obtain ⟨s', hset, h', hp, _⟩ := setPtr_spec hnew (Finset.mem_insert_self _ ∅) p
  rw [← hp] at h'
  exact ⟨s', hset, h'.land (Finset.notMem_empty _)⟩

theorem create_spec (h : Counted s ∅ ∅ raw) (how : ∀ x, ow = some x → Live s x) (hw : 1 < 2 ^ w) :
    ∃ s', create w s ow = .ok s' ∧ Counted s' ∅ ∅ raw := by
  refine adopt_spec (p := some s.objects.length) (newObject_spec h hw) fun x hx => ?_
  obtain ⟨obj, hobj, hlive⟩ := how x hx
  refine ⟨obj, ?_, hlive⟩
  rw [newObject, List.getElem?_append_left (List.getElem?_eq_some_iff.1 hobj).1, hobj]

/-- A handle constructed from `p` with a reference of its own. -/
theorem constructed_spec (h : Counted s ∅ ∅ raw) (how : ∀ x, ow = some x → Live s x)
    (hp : ∀ o, p = some o → refs s ∅ raw o ≠ 0) (hw : ∀ o, p = some o → refs s ∅ raw o + 1 < 2 ^ w) :
    ∃ s', refPtr w (s.construct ow p) p = .ok s' ∧ Counted s' ∅ ∅ raw := by
  obtain ⟨hnew, hrefs⟩ := construct_spec h (h.holds_owner how) p
  obtain ⟨s', href, h', hhandles⟩ := refPtr_spec hnew (fun o ho => by rw [hrefs]; exact hp o ho)
    (fun o ho => by rw [hrefs]; exact hw o ho)
  have hrc : s'.rc? s.handles.length = some ⟨ow, p⟩ := by
    rw [St.rc?, hhandles]
    exact rc?_construct_self s ow p
  have hpoints : pointee s' s.handles.length = p := pointee_eq hrc
  refine ⟨s', href, Counted.land (m := s.handles.length) ?_ (Finset.notMem_empty _)⟩
  rw [hpoints]
  exact h'

theorem move_spec (h : Counted s ∅ ∅ raw) (how : ∀ x, ow = some x → Live s x) (ho : Alive s other) :
    ∃ s', move s ow other = .ok s' ∧ Counted s' ∅ ∅ raw := by
  have hnew := (construct_spec h (h.holds_owner how) (pointee s other)).1
  have hne : other ≠ s.handles.length := Nat.ne_of_lt ho.lt
  have hrc := rc?_construct_ne ow (pointee s other) hne
  have hnotin : other ∉ insert s.handles.length (∅ : Finset Nat) := by simpa using hne
  have hpoints : pointee (s.construct ow (pointee s other)) s.handles.length =
      pointee (s.construct ow (pointee s other)) other := by
    rw [pointee_eq (rc?_construct_self s ow _), pointee_congr hrc]
  obtain ⟨s', hset, h', _⟩ := handOver_spec hnew (Finset.notMem_empty _) hnotin (ho.congr hrc) hpoints
  refine ⟨s', ?_, h'⟩
  rw [move, ho.ptr, ok_bind, hset]

theorem destruct_this (h : Counted s ∅ ∅ raw) (ht : Alive s this) (hfuel : positive s ≤ fuel) :
    (∃ s', destruct (unref fuel) s this = .ok s' ∧ Counted s' ∅ ∅ raw) ∨ ∃ e, destruct (unref fuel) s this = .error e := by
  have hrelease := release_spec h ht hfuel
  cases hp : pointee s this with
  | none =>
    have hfly := h.fly (Finset.notMem_empty this) ht
    rw [hp] at hfly
    refine Or.inl ⟨s.drop this, ?_, hfly.drop (Finset.notMem_empty this)⟩
    simp only [destruct, ht.ptr, hp, ok_bind, pure_ok]
  | some o =>
    have hne : refs s ∅ raw o ≠ 0 := refs_ne_zero_of_holds hp (Finset.notMem_empty this)
    have hcount := h.refCount_eq (Or.inl hne)
    rw [hp] at hrelease
    rcases hrelease with ⟨_, s1, hunref, h1, _⟩ | ⟨_, e, hunref⟩
    · refine Or.inl ⟨s1.drop this, ?_, h1.drop (Finset.notMem_empty this)⟩
      rw [unrefPtr] at hunref
      simp only [destruct, ht.ptr, hp, ok_bind, hcount, if_neg hne, hunref, pure_ok]
    · refine Or.inr ⟨e, ?_⟩
      rw [unrefPtr] at hunref
      simp only [destruct, ht.ptr, hp, ok_bind, hcount, if_neg hne, hunref]
      rfl

/-- What an operation returns is counted. -/
theorem counted_exec (hinv : Inv v) (ha : Allowed v op) (hroom : Room w v op) (hfuel : positive v.st ≤ fuel)
    (hexec : exec w fuel v.st op = .ok s') : Counted s' ∅ ∅ (nextRaw v op) := by
  -- each operation returns only what its lemma says
  have hret : ∀ r : Except Fault St, r = .ok s' → (∃ s1, r = .ok s1 ∧ Counted s1 ∅ ∅ (nextRaw v op)) →
      Counted s' ∅ ∅ (nextRaw v op) := by
    rintro r hr ⟨s1, hs1, h1⟩
    obtain rfl : s' = s1 := Except.ok.inj (hr.symm.trans hs1)
    exact h1
  cases op with
  | new =>
    cases hexec
    exact newObject_spec hinv hroom
  | adopt owner target =>
    obtain ⟨how, htarget⟩ := ha
    refine hret _ hexec (adopt_spec (Counted.congr_raw hinv fun o => ?_) how)
    cases target with
    | none => rfl
    | some o' => exact (List.perm_cons_erase (htarget o' rfl)).symm.count_eq o
  | create owner => exact hret _ hexec (create_spec hinv ha hroom)
  | ofPtr owner target =>
    exact hret _ hexec (constructed_spec hinv ha.1 (fun o ho => Counted.refs_ne_zero hinv (ha.2 o ho)) hroom)
  | copy owner other =>
    have hp : ∀ o, pointee v.st other = some o → refs v.st ∅ v.raw o ≠ 0 := fun o ho =>
      refs_ne_zero_of_holds ho (Finset.notMem_empty other)
    obtain ⟨s1, href, h1⟩ := constructed_spec hinv ha.1 hp hroom
    refine hret _ hexec ⟨s1, ?_, h1⟩
    simp only [exec, copy, ha.2.ptr, ok_bind, href]
  | move owner other => exact hret _ hexec (move_spec hinv ha.1 ha.2)
  | copyAssign this other =>
    by_cases heq : other = this
    · refine hret _ hexec ⟨v.st, ?_, hinv⟩
      simp only [exec, copyAssign, if_pos heq, pure_ok]
    · rcases copyAssign_spec hinv ha.1 ha.2 heq hroom hfuel with ⟨_, s1, hs1, h1, _⟩ | ⟨_, e, he⟩
      · exact hret _ hexec ⟨s1, hs1, h1⟩
      · cases hexec.symm.trans he
  | moveAssign this other =>
    rcases moveAssign_spec hinv ha.1 ha.2 hfuel with ⟨_, s1, hs1, h1, _⟩ | ⟨_, e, he⟩
    · exact hret _ hexec ⟨s1, hs1, h1⟩
    · cases hexec.symm.trans he
  | destruct this =>
    rcases destruct_this hinv ha hfuel with ⟨s1, hs1, h1⟩ | ⟨e, he⟩
    · exact hret _ hexec ⟨s1, hs1, h1⟩
    · cases hexec.symm.trans he

/-! ## Runs -/

theorem inv_step (hinv : Inv v) (hstep : Step w v op v') : Inv v' := by
  obtain ⟨ha, hroom, ⟨k, hexec⟩, hraw⟩ := hstep
  rw [Inv, hraw]
  exact counted_exec hinv ha hroom (Nat.le_max_right k _) (hexec (max k (positive v.st)) (Nat.le_max_left k _))

/-- **Objects count the handles**, wherever these are. -/
theorem inv_run (hrun : Run (Step w) start ops v) : Inv v :=
  hrun.invariant (fun _ _ _ h hs => inv_step h hs) inv_start

/-- What the assignment is to do: it ends, nothing that has been destructed is read, and then `this` points to what `other`
pointed to, and that object is alive and counts its references, among which is that of `this`. -/
def Assigned (v : World) (this other : Nat) (assign : Nat → Except Fault St) : Prop :=
  ∃ s', (∃ k, ∀ fuel, k ≤ fuel → assign fuel = .ok s') ∧ Alive s' this ∧ pointee s' this = pointee v.st other ∧
    ∀ o, pointee v.st other = some o → s'.objects[o]? = some ⟨refs s' ∅ v.raw o, false⟩

/-- An assignment that ends in one of two ways. -/
theorem assigned_of {assign : Nat → Except Fault St} {q : Option Nat} {D : Prop}
    (hmono : ∀ n s', assign n = .ok s' → assign (n + 1) = .ok s')
    (h : ∀ fuel, positive v.st ≤ fuel → (¬D ∧ ∃ s', assign fuel = .ok s' ∧ Counted s' ∅ ∅ v.raw ∧ Alive s' this ∧
      pointee s' this = q) ∨ D ∧ ∃ e, assign fuel = .error e) :
    Assigned v this other assign ↔ ¬D ∧ q = pointee v.st other := by
  constructor
  · rintro ⟨s', ⟨k, hret⟩, _, hp, _⟩
    have hlast := hret (max k (positive v.st)) (Nat.le_max_left k _)
    rcases h (max k (positive v.st)) (Nat.le_max_right k _) with ⟨hD, s1, hs1, _, _, hq⟩ | ⟨_, e, he⟩
    · obtain rfl : s' = s1 := Except.ok.inj (hlast.symm.trans hs1)
      exact ⟨hD, hq.symm.trans hp⟩
    · cases hlast.symm.trans he
  · rintro ⟨hD, rfl⟩
    rcases h (positive v.st) (Nat.le_refl _) with ⟨_, s', hs', h', ha, hp⟩ | ⟨hD', _⟩
    · refine ⟨s', ⟨_, Fuel.stable (fun n => hmono n s') hs'⟩, ha, hp, fun o ho => ?_⟩
      exact h'.object_of_holds (hp.trans ho) (Finset.notMem_empty this)
    · exact absurd hD' hD

/-- **Which assignments do what they should.** In every state that is reached: a copy assignment does if the handles are one
and the same, or if neither is a member of an object that dies when the old target is let go of; a move assignment does if
neither is such a member, unless a handle that points to something is moved to itself. -/
theorem assigned_iff (hrun : Run (Step w) start ops v) (ht : Alive v.st this) (ho : Alive v.st other) :
    (Room w v (.copyAssign this other) →
      (Assigned v this other (fun fuel => copyAssign w fuel v.st this other) ↔
        this = other ∨ ¬Lost v.st v.raw this other)) ∧
    (Assigned v this other (fun fuel => moveAssign fuel v.st this other) ↔
      (this ≠ other ∨ pointee v.st this = none) ∧ ¬Lost v.st v.raw this other) := by
  have hinv := inv_run hrun
  constructor
  · intro hroom
    by_cases heq : other = this
    · subst heq
      refine iff_of_true ⟨v.st, ⟨0, fun fuel _ => ?_⟩, ht, rfl, fun o hp => ?_⟩ (Or.inl rfl)
      · simp only [copyAssign, if_true, pure_ok]
      · exact Counted.object_of_holds hinv hp (Finset.notMem_empty other)
    · have hends : Assigned v this other (fun fuel => copyAssign w fuel v.st this other) ↔
          ¬Lost v.st v.raw this other ∧ pointee v.st other = pointee v.st other :=
        assigned_of (fun _ _ => copyAssign_succ heq) fun _ => copyAssign_spec hinv ht ho heq hroom
      rw [hends, and_iff_left rfl, or_iff_right (Ne.symm heq)]
  · have hends : Assigned v this other (fun fuel => moveAssign fuel v.st this other) ↔
        ¬Lost v.st v.raw this other ∧ (if other = this then none else pointee v.st other) = pointee v.st other :=
      assigned_of (fun _ _ => moveAssign_succ) fun _ => moveAssign_spec hinv ht ho
    rw [hends, and_comm]
    refine and_congr_left fun _ => ?_
    by_cases heq : other = this
    · subst heq
      rw [if_pos rfl, or_iff_right (not_not_intro rfl)]
      exact eq_comm
    · rw [if_neg heq]
      exact iff_of_true rfl (Or.inl (Ne.symm heq))

/-! ## A chain of two -/

/-- `auto h = Rc<T>::create();` with `h->next` created as well -/
def chain : World := ⟨⟨[⟨1, false⟩, ⟨1, false⟩], [some ⟨none, some 0⟩, some ⟨some 0, some 1⟩]⟩, []⟩

/-- and `auto s = h->next;` -/
def chainCopied : World :=
  ⟨⟨[⟨1, false⟩, ⟨2, false⟩], [some ⟨none, some 0⟩, some ⟨some 0, some 1⟩, some ⟨none, some 1⟩]⟩, []⟩

theorem run_chain : Run (Step 32) start [.create none, .create (some 0)] chain := by
  have hfirst : Step 32 start (.create none) ⟨⟨[⟨1, false⟩], [some ⟨none, some 0⟩]⟩, []⟩ :=
    ⟨(fun _ hx => nomatch hx), (by decide : 1 < 2 ^ 32), ⟨0, fun _ _ => rfl⟩, rfl⟩
  have hnext : Step 32 ⟨⟨[⟨1, false⟩], [some ⟨none, some 0⟩]⟩, []⟩ (.create (some 0)) chain := by
    refine ⟨?_, (by decide : 1 < 2 ^ 32), ⟨0, fun _ _ => rfl⟩, rfl⟩
    rintro x ⟨⟩
    exact ⟨⟨1, false⟩, rfl, rfl⟩
  exact .cons hfirst (.single hnext)

/-- With a variable that points to the second object, `h` can be assigned from it. -/
theorem assigned_iff_variable :
    ∃ v, Run (Step 32) start [.create none, .create (some 0), .copy none 1] v ∧
      Assigned v 0 2 (fun fuel => copyAssign 32 fuel v.st 0 2) ∧ Assigned v 0 2 (fun fuel => moveAssign fuel v.st 0 2) := by
  have hcopy : Step 32 chain (.copy none 1) chainCopied := by
    refine ⟨⟨(fun _ hx => nomatch hx), _, rfl⟩, ?_, ⟨0, fun _ _ => rfl⟩, rfl⟩
    rintro o ⟨⟩
    decide
  have hrun := run_chain.concat hcopy
  have hroom : Room 32 chainCopied (.copyAssign 0 2) := by
    rintro o ⟨⟩
    decide
  have hkeep : ¬Lost chainCopied.st chainCopied.raw 0 2 := by
    rintro (⟨_, howner, _⟩ | ⟨_, howner, _⟩)
    · cases howner
    · cases howner
  have ht : Alive chainCopied.st 0 := ⟨_, rfl⟩
  have ho : Alive chainCopied.st 2 := ⟨_, rfl⟩
  obtain ⟨hcopies, hmoves⟩ := assigned_iff hrun ht ho
  exact ⟨_, hrun, (hcopies hroom).2 (Or.inr hkeep), hmoves.2 ⟨Or.inl (by decide), hkeep⟩⟩

/-- `h = h->next`: the first object dies, and with it the handle that is read next. -/
theorem step_down_reads_destructed :
    ∃ v, Run (Step 32) start [.create none, .create (some 0)] v ∧ pointee v.st 0 = some 0 ∧ owner v.st 1 = some 0 ∧
      (∀ fuel, copyAssign 32 (fuel + 2) v.st 0 1 = .error .useAfterFree) ∧
      (∀ fuel, moveAssign (fuel + 2) v.st 0 1 = .error .useAfterFree) ∧
      ¬Assigned v 0 1 (fun fuel => copyAssign 32 fuel v.st 0 1) ∧ ¬Assigned v 0 1 (fun fuel => moveAssign fuel v.st 0 1) := by
  have hcopy : ∀ fuel, copyAssign 32 (fuel + 2) chain.st 0 1 = .error .useAfterFree := fun _ => rfl
  have hmove : ∀ fuel, moveAssign (fuel + 2) chain.st 0 1 = .error .useAfterFree := fun _ => rfl
  refine ⟨chain, run_chain, rfl, rfl, hcopy, hmove, ?_, ?_⟩
  · rintro ⟨s', ⟨k, hret⟩, _⟩
    cases (hret (k + 2) (Nat.le_add_right k 2)).symm.trans (hcopy k)
  · rintro ⟨s', ⟨k, hret⟩, _⟩
    cases (hret (k + 2) (Nat.le_add_right k 2)).symm.trans (hmove k)

end A3RcGraph
