import LibA3.Fallible
import LibA3.Rc.Reach
import LibA3.Rc.Run
import Mathlib.Tactic.ByContra

/-!
# Handles that are variables

Where no handle is a member of an object, deleting an object destructs nothing, and an operation that returns in the model
without members (`A3Rc`) returns the same here. So every run without members is a run of objects that hold handles, and what
is proved about these carries over.

* `run_flat` — the runs
* `assigned_flat` — assignments of variables do what they should, but for a handle that is moved to itself
-/

namespace A3RcGraph

open Fallible Trans

variable {w fuel h o this other : Nat} {s s' : A3Rc.St} {p : Option Nat} {v v' : A3Rc.World} {op : A3Rc.Op}
  {ops : List A3Rc.Op}

def ofFlat (s : A3Rc.St) : St := ⟨s.objects, s.handles.map fun handle => handle.map fun rc => ⟨none, rc.ptr⟩⟩

/-- Handles are constructed as variables. -/
def ofOp : A3Rc.Op → Op
  | .new => .new
  | .adopt target => .adopt none target
  | .create => .create none
  | .ofPtr target => .ofPtr none target
  | .copy other => .copy none other
  | .move other => .move none other
  | .copyAssign this other => .copyAssign this other
  | .moveAssign this other => .moveAssign this other
  | .destruct this => .destruct this

theorem rc?_flat (s : A3Rc.St) (h : Nat) : (ofFlat s).rc? h = (s.handles[h]?).join.map fun rc => ⟨none, rc.ptr⟩ := by
  unfold St.rc? ofFlat
  rw [List.getElem?_map]
  rcases s.handles[h]? with _ | _ | rc
  · rfl
  · rfl
  · rfl

theorem owner_flat (s : A3Rc.St) (h : Nat) : owner (ofFlat s) h = none := by
  rw [owner, rc?_flat]
  cases (s.handles[h]?).join with
  | none => rfl
  | some rc => rfl

theorem pointee_flat (s : A3Rc.St) (h : Nat) : pointee (ofFlat s) h = A3Rc.pointee s h := by
  rw [pointee, A3Rc.pointee, rc?_flat]
  rcases s.handles[h]? with _ | _ | rc
  · rfl
  · rfl
  · rfl

theorem alive_flat (ha : A3Rc.Alive s h) : Alive (ofFlat s) h := by
  obtain ⟨rc, hrc⟩ := ha
  refine ⟨⟨none, rc.ptr⟩, rc?_eq_some.2 ?_⟩
  simp only [ofFlat, List.getElem?_map, hrc, Option.map_some]

theorem members_flat (s : A3Rc.St) (o : Nat) : members (ofFlat s) o = [] := by
  unfold members
  rw [List.reverse_eq_nil_iff, List.filter_eq_nil_iff]
  intro h _
  rw [owner_flat]
  simp

theorem ptr_flat (hp : s.ptr h = .ok p) : (ofFlat s).ptr h = .ok p := by
  unfold A3Rc.St.ptr at hp
  unfold St.ptr ofFlat
  rw [List.getElem?_map]
  split at hp
  · rename_i rc hrc
    rw [hrc]
    cases hp
    rfl
  · cases hp

theorem setPtr_flat {q : Option Nat} (hq : s.ptr h = .ok q) (p : Option Nat) :
    (ofFlat s).setPtr h p = .ok (ofFlat (s.setPtr h p)) := by
  unfold A3Rc.St.ptr at hq
  unfold St.setPtr A3Rc.St.setPtr ofFlat
  simp only [List.getElem?_map, List.map_set]
  split at hq
  · rename_i rc hrc
    rw [hrc]
    rfl
  · cases hq

theorem construct_flat (s : A3Rc.St) (p : Option Nat) : (ofFlat s).construct none p = ofFlat (s.construct p) := by
  unfold St.construct A3Rc.St.construct ofFlat
  rw [List.map_append]
  rfl

theorem drop_flat (s : A3Rc.St) (h : Nat) : (ofFlat s).drop h = ofFlat (s.drop h) := by
  unfold St.drop A3Rc.St.drop ofFlat
  rw [List.map_set]
  rfl

theorem refCount_flat {count : Nat} (hcount : A3Rc.refCount s o = .ok count) : refCount (ofFlat s) o = .ok count := by
  unfold A3Rc.refCount at hcount
  unfold refCount ofFlat
  simp only
  cases hobj : s.objects[o]? with
  | none =>
    rw [hobj] at hcount
    cases hcount
  | some obj =>
    rw [hobj] at hcount
    simp only at hcount ⊢
    split at hcount
    · cases hcount
    · rename_i hlive
      rw [if_neg hlive]
      cases hcount
      rfl

theorem refPtr_flat (href : A3Rc.refPtr w s p = .ok s') : refPtr w (ofFlat s) p = .ok (ofFlat s') := by
  cases p with
  | none =>
    cases href
    rfl
  | some o =>
    obtain ⟨count, hcount, href⟩ := bind_ok href
    cases href
    rw [refPtr, ref, refCount_flat hcount]
    rfl

theorem destroy_flat (hdestroy : A3Rc.destroy s o = .ok s') (f : St → Nat → Except Fault St) :
    destroy f (ofFlat s) o = .ok (ofFlat s') := by
  obtain ⟨count, hcount, hdestroy⟩ := bind_ok hdestroy
  obtain ⟨hzero, hdestroy⟩ := guard_ok hdestroy rfl
  cases hdestroy
  simp only [destroy, members_flat, List.foldlM_nil, pure_ok, ok_bind, refCount_flat hcount, if_neg hzero]
  rfl

/-- One turn is enough: nothing is destructed. -/
theorem unref_flat (hunref : A3Rc.unref s o = .ok s') (fuel : Nat) : unref (fuel + 1) (ofFlat s) o = .ok (ofFlat s') := by
  obtain ⟨count, hcount, hunref⟩ := bind_ok hunref
  obtain ⟨hpos, hunref⟩ := guard_ok hunref rfl
  rw [unref, refCount_flat hcount, ok_bind, if_neg hpos]
  by_cases hlast : count - 1 = 0
  · simp only [if_pos hlast] at hunref ⊢
    exact destroy_flat hunref (unref fuel)
  · simp only [if_neg hlast] at hunref ⊢
    cases hunref
    rfl

theorem unrefPtr_flat (hunref : A3Rc.unrefPtr s p = .ok s') (fuel : Nat) :
    unrefPtr (fuel + 1) (ofFlat s) p = .ok (ofFlat s') := by
  cases p with
  | none =>
    cases hunref
    rfl
  | some o => exact unref_flat hunref fuel

/-! ## Operations -/

theorem adopt_flat (s : A3Rc.St) (target : Option Nat) :
    adopt (ofFlat s) none target = .ok (ofFlat (A3Rc.adopt s target)) := by
  have hlength : (ofFlat s).handles.length = s.handles.length := List.length_map _
  have hnew : (s.construct none).ptr s.handles.length = .ok none := by
    unfold A3Rc.St.ptr A3Rc.St.construct
    rw [List.getElem?_concat_length]
  rw [adopt, construct_flat, hlength, setPtr_flat hnew target, A3Rc.adopt]

theorem lt_of_ptr (hp : s.ptr h = .ok p) : h < s.handles.length := by
  unfold A3Rc.St.ptr at hp
  by_contra hge
  rw [List.getElem?_eq_none (Nat.not_lt.1 hge)] at hp
  cases hp

theorem ptr_construct (hp : s.ptr h = .ok p) (q : Option Nat) : (s.construct q).ptr h = .ok p := by
  have hlt := lt_of_ptr hp
  unfold A3Rc.St.ptr at hp ⊢
  rwa [A3Rc.St.construct, List.getElem?_append_left hlt]

/-- Counting changes no handle. -/
theorem handles_unref (hunref : A3Rc.unref s o = .ok s') : s'.handles = s.handles := by
  obtain ⟨count, _, hunref⟩ := bind_ok hunref
  obtain ⟨_, hunref⟩ := guard_ok hunref rfl
  by_cases hlast : count - 1 = 0
  · simp only [if_pos hlast] at hunref
    obtain ⟨count', _, hunref⟩ := bind_ok hunref
    obtain ⟨_, hunref⟩ := guard_ok hunref rfl
    cases hunref
    rfl
  · simp only [if_neg hlast] at hunref
    cases hunref
    rfl

theorem ptr_unrefPtr {q : Option Nat} (hq : s.ptr h = .ok q) (hunref : A3Rc.unrefPtr s p = .ok s') : s'.ptr h = .ok q := by
  cases p with
  | none =>
    cases hunref
    exact hq
  | some o =>
    unfold A3Rc.St.ptr at hq ⊢
    rwa [handles_unref hunref]

theorem ptr_setPtr {q : Option Nat} (hq : s.ptr h = .ok q) (this : Nat) (p : Option Nat) :
    ∃ q', (s.setPtr this p).ptr h = .ok q' := by
  have hlt := lt_of_ptr hq
  unfold A3Rc.St.ptr at hq ⊢
  unfold A3Rc.St.setPtr
  by_cases heq : this = h
  · subst heq
    exact ⟨p, by rw [List.getElem?_set_self hlt]⟩
  · exact ⟨q, by rw [List.getElem?_set_ne heq]; exact hq⟩

/-- **An operation that returns without members, returns the same here.** -/
theorem exec_flat {op : A3Rc.Op} (hexec : A3Rc.exec w s op = .ok s') (fuel : Nat) :
    exec w (fuel + 1) (ofFlat s) (ofOp op) = .ok (ofFlat s') := by
  cases op with
  | new =>
    cases hexec
    rfl
  | adopt target =>
    cases hexec
    exact adopt_flat s target
  | create =>
    cases hexec
    exact adopt_flat (A3Rc.newObject w s) (some s.objects.length)
  | ofPtr target =>
    have href := refPtr_flat hexec
    rwa [← construct_flat] at href
  | copy other =>
    obtain ⟨p, hp, hexec⟩ := bind_ok hexec
    have href := refPtr_flat hexec
    rw [← construct_flat] at href
    simp only [ofOp, exec, copy, ptr_flat hp, ok_bind, href]
  | move other =>
    obtain ⟨p, hp, hexec⟩ := bind_ok hexec
    cases hexec
    simp only [ofOp, exec, move, ptr_flat hp, ok_bind, construct_flat, setPtr_flat (ptr_construct hp p)]
  | copyAssign this other =>
    by_cases heq : other = this
    · simp only [A3Rc.exec, A3Rc.copyAssign, if_pos heq] at hexec
      cases hexec
      simp only [ofOp, exec, copyAssign, if_pos heq, pure_ok]
    · simp only [A3Rc.exec, A3Rc.copyAssign, if_neg heq] at hexec
      obtain ⟨p, hp, hexec⟩ := bind_ok hexec
      obtain ⟨s1, hunref, hexec⟩ := bind_ok hexec
      obtain ⟨q, hq, hexec⟩ := bind_ok hexec
      obtain ⟨r, hr, hexec⟩ := bind_ok hexec
      have hset := setPtr_flat (ptr_unrefPtr hp hunref) q
      simp only [ofOp, exec, copyAssign, if_neg heq, ptr_flat hp, ok_bind, unrefPtr_flat hunref, ptr_flat hq, hset,
        ptr_flat hr, refPtr_flat hexec]
  | moveAssign this other =>
    obtain ⟨p, hp, hexec⟩ := bind_ok hexec
    obtain ⟨s1, hunref, hexec⟩ := bind_ok hexec
    obtain ⟨q, hq, hexec⟩ := bind_ok hexec
    cases hexec
    have hset := setPtr_flat (ptr_unrefPtr hp hunref) q
    obtain ⟨r, hr⟩ := ptr_setPtr hq this q
    simp only [ofOp, exec, moveAssign, ptr_flat hp, ok_bind, unrefPtr_flat hunref, ptr_flat hq, hset, setPtr_flat hr]
  | destruct this =>
    obtain ⟨p, hp, hexec⟩ := bind_ok hexec
    cases p with
    | none =>
      cases hexec
      simp only [ofOp, exec, destruct, ptr_flat hp, ok_bind, pure_ok, drop_flat]
    | some o =>
      obtain ⟨count, hcount, hexec⟩ := bind_ok hexec
      simp only [ofOp, exec, destruct, ptr_flat hp, ok_bind, refCount_flat hcount]
      obtain ⟨hzero, hexec⟩ := guard_ok hexec rfl
      obtain ⟨s1, hunref, hexec⟩ := bind_ok hexec
      cases hexec
      rw [if_neg hzero, unref_flat hunref, ok_bind, pure_ok, drop_flat]

/-! ## Runs -/

def ofWorld (v : A3Rc.World) : World := ⟨ofFlat v.st, v.raw⟩

/-- The references are the same: the objects count them in both models. -/
theorem refs_flat (hflat : A3Rc.Inv v) (hinv : Inv (ofWorld v)) (o : Nat) :
    refs (ofFlat v.st) ∅ v.raw o = (A3Rc.references v).count o := by
  by_cases ho : o < v.st.objects.length
  · have hobj : v.st.objects[o]? = some ⟨refs (ofFlat v.st) ∅ v.raw o, _⟩ := hinv.object o ho
    rw [hflat.object o ho] at hobj
    exact (congrArg A3Rc.RefCounted.refCount (Option.some.inj hobj)).symm
  · have hnone : refs (ofFlat v.st) ∅ v.raw o = 0 := by
      by_contra hsome
      exact ho (hinv.alloc o hsome)
    rw [hnone, Multiset.count_eq_zero.2 fun hmem => ho (hflat.alloc o hmem)]

theorem allowed_flat (ha : A3Rc.Allowed v op) : Allowed (ofWorld v) (ofOp op) := by
  have hvar : ∀ x, none = some x → Live (ofFlat v.st) x := fun _ hx => nomatch hx
  cases op with
  | new => trivial
  | create => exact hvar
  | adopt target =>
    refine ⟨hvar, fun o ho => ?_⟩
    subst ho
    exact ha
  | ofPtr target =>
    refine ⟨hvar, fun o ho => ?_⟩
    subst ho
    exact ha
  | copy other => exact ⟨hvar, alive_flat ha⟩
  | move other => exact ⟨hvar, alive_flat ha⟩
  | copyAssign this other => exact ⟨alive_flat ha.1, alive_flat ha.2⟩
  | moveAssign this other => exact ⟨alive_flat ha.1, alive_flat ha.2⟩
  | destruct this => exact alive_flat ha

/-- The references to `o` that are not `this`'s. -/
theorem refs_but_this (hflat : A3Rc.Inv v) (hinv : Inv (ofWorld v)) (this o : Nat) :
    refs (ofFlat v.st) {this} v.raw o = (A3Rc.references v - Slots.one (A3Rc.pointee v.st this)).count o := by
  have hflight : refs (ofFlat v.st) {this} ((pointee (ofFlat v.st) this).toList ++ v.raw) o = _ :=
    refs_flight (Finset.notMem_empty this) v.raw o
  rw [refs_flat hflat hinv, pointee_flat, refs, List.count_append] at hflight
  have hone : (Slots.one (A3Rc.pointee v.st this)).count o = (A3Rc.pointee v.st this).toList.count o := by
    cases A3Rc.pointee v.st this with
    | none => rfl
    | some x => rw [Slots.one_some, Option.toList_some, ← Multiset.coe_singleton, Multiset.coe_count]
  rw [refs, Multiset.count_sub, hone]
  omega

/-- A copy assignment counts `other`'s object beside the references that are not `this`'s, also if the two are one. -/
theorem effect_copyAssign (ht : A3Rc.Alive v.st this) : A3Rc.effect v (.copyAssign this other) =
    Slots.one (A3Rc.pointee v.st other) + (A3Rc.references v - Slots.one (A3Rc.pointee v.st this)) := by
  rw [A3Rc.effect]
  split
  case isTrue heq =>
    subst heq
    rw [A3Rc.references_sub ht, A3Rc.references_alive ht]
  case isFalse => rfl

/-- Where an operation leaves fewer than 2^w references, there is room for the one it adds. -/
theorem room_flat (hflat : A3Rc.Inv v) (hinv : Inv (ofWorld v)) (hlegal : A3Rc.Legal w v op) :
    Room w (ofWorld v) (ofOp op) := by
  obtain ⟨hallowed, hfew⟩ := hlegal
  have hadded : ∀ {x : Nat} {m : Multiset Nat}, A3Rc.effect v op = x ::ₘ m → m.count x + 1 < 2 ^ w := by
    intro x m heffect
    have hlt := hfew x (heffect ▸ Multiset.mem_cons_self x m)
    rwa [heffect, Multiset.count_cons_self] at hlt
  cases op with
  | new => exact Nat.lt_of_le_of_lt (Nat.le_add_left 1 _) (hadded (m := A3Rc.references v) rfl)
  | create => exact Nat.lt_of_le_of_lt (Nat.le_add_left 1 _) (hadded (m := A3Rc.references v) rfl)
  | ofPtr target =>
    rintro o rfl
    show refs (ofFlat v.st) ∅ v.raw o + 1 < 2 ^ w
    rw [refs_flat hflat hinv]
    exact hadded rfl
  | copy other =>
    intro o ho
    replace ho : A3Rc.pointee v.st other = some o := (pointee_flat v.st other).symm.trans ho
    show refs (ofFlat v.st) ∅ v.raw o + 1 < 2 ^ w
    rw [refs_flat hflat hinv]
    refine hadded ?_
    rw [A3Rc.effect, ho, Slots.one_some, Multiset.singleton_add]
  | copyAssign this other =>
    intro o ho
    replace ho : A3Rc.pointee v.st other = some o := (pointee_flat v.st other).symm.trans ho
    show refs (ofFlat v.st) {this} v.raw o + 1 < 2 ^ w
    rw [refs_but_this hflat hinv]
    refine hadded ?_
    rw [effect_copyAssign hallowed.1, ho, Slots.one_some, Multiset.singleton_add]
  | adopt target => trivial
  | move other => trivial
  | moveAssign this other => trivial
  | destruct this => trivial

theorem step_flat (hflat : A3Rc.Inv v) (hinv : Inv (ofWorld v)) (hstep : A3Rc.Step w v op v') :
    Step w (ofWorld v) (ofOp op) (ofWorld v') := by
  obtain ⟨hlegal, hexec, hraw⟩ := hstep
  refine ⟨allowed_flat hlegal.1, room_flat hflat hinv hlegal, ⟨1, Fuel.from_add 1 (exec_flat hexec)⟩, ?_⟩
  rw [ofWorld, hraw]
  cases op with
  | new => rfl
  | adopt target =>
    cases target with
    | none => rfl
    | some o => rfl
  | _ => rfl

/-- **A run without members is a run here.** -/
theorem run_flat (hrun : Run (A3Rc.Step w) v ops v') (hflat : A3Rc.Inv v) (hinv : Inv (ofWorld v)) :
    Run (Step w) (ofWorld v) (ops.map ofOp) (ofWorld v') := by
  induction hrun with
  | nil => exact .nil _
  | cons hstep _ ih =>
    have hnext := step_flat hflat hinv hstep
    exact .cons hnext (ih (A3Rc.inv_step hflat hstep).1 (inv_step hinv hnext))

/-- A variable is no member of an object that dies. -/
theorem not_lost_flat (s : A3Rc.St) (raw : List Nat) (this other : Nat) : ¬Lost (ofFlat s) raw this other := by
  rintro (⟨_, howner, _⟩ | ⟨_, howner, _⟩)
  · cases (owner_flat s this).symm.trans howner
  · cases (owner_flat s other).symm.trans howner

/-- **Assignments of variables do what they should**, but for a handle that is moved to itself. -/
theorem assigned_flat (hrun : Run (A3Rc.Step w) A3Rc.start ops v) (ht : A3Rc.Alive v.st this) (ho : A3Rc.Alive v.st other) :
    (A3Rc.Legal w v (.copyAssign this other) →
      ∃ s', A3Rc.copyAssign w v.st this other = .ok s' ∧ A3Rc.pointee s' this = A3Rc.pointee v.st other) ∧
    (A3Rc.Legal w v (.moveAssign this other) → this ≠ other →
      ∃ s', A3Rc.moveAssign v.st this other = .ok s' ∧ A3Rc.pointee s' this = A3Rc.pointee v.st other) := by
  have hflat := A3Rc.inv_run hrun
  have hrun' : Run (Step w) start (ops.map ofOp) (ofWorld v) := run_flat hrun A3Rc.inv_start inv_start
  obtain ⟨hcopy, hmove⟩ := assigned_iff hrun' (alive_flat ht) (alive_flat ho)
  have hkeep := not_lost_flat v.st v.raw this other
  -- what an assignment leaves here, it leaves there
  have hback : ∀ {assign : Nat → Except Fault St} {s1 : A3Rc.St}, (∀ fuel, assign (fuel + 1) = .ok (ofFlat s1)) →
      Assigned (ofWorld v) this other assign → A3Rc.pointee s1 this = A3Rc.pointee v.st other := by
    rintro assign s1 hs1 ⟨s', hs', _, hp, _⟩
    cases Fuel.unique hs' ⟨1, Fuel.from_add 1 hs1⟩
    rwa [pointee_flat, show (ofWorld v).st = ofFlat v.st from rfl, pointee_flat] at hp
  constructor
  · intro hlegal
    obtain ⟨s1, hs1, _⟩ := A3Rc.done hflat hlegal
    exact ⟨s1, hs1, hback (exec_flat hs1) ((hcopy (room_flat hflat (inv_run hrun') hlegal)).2 (Or.inr hkeep))⟩
  · intro hlegal hne
    obtain ⟨s1, hs1, _⟩ := A3Rc.done hflat hlegal
    exact ⟨s1, hs1, hback (exec_flat hs1) (hmove.2 ⟨Or.inl hne, hkeep⟩)⟩

end A3RcGraph
