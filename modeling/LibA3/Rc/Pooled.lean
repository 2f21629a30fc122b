import LibA3.Fallible
import LibA3.Pool.Partition
import LibA3.Rc.Run

/-!
# Counted objects from a pool

A class that is `RefCounted` and `A3_POOL_ALLOCATED` (`pool.h:74`): `new` takes a block of the pool, and `delete`, which the
last reference ends in, gives it back. As `operator new` is `noexcept`, `new` makes no object of a pool that is used up: it is
`nullptr`, and `Rc::create` makes a null handle of it.

| here | there |
| --- | --- |
| `newObject` | `new T { .. }` with `A3_POOL_OP_NEW` (`pool.h:58`) |
| `create`    | `Rc::create` (`rc.hh:124`) |
| `deleteAll` | `A3_POOL_OP_DELETE` (`pool.h:68`) of the objects that an operation calls `destroy` on |
| `blocks`    | the block of each object, in the order in which they are made |
| `Call.write` | what a program writes into an object |

* `pooled_partition` — every block is free or that of one object with references
-/

namespace A3Pooled

open A3Pool Fallible Mem Trans

inductive Fault where
  | rc (f : A3Rc.Fault)
  | pool (f : A3Pool.Fault)

structure St where
  rc : A3Rc.St
  pool : A3Pool.St
  blocks : List Nat

def block (s : St) (o : Nat) : Nat := s.blocks.getD o 0

/-! ## Operations -/

def newObject (w : Nat) (s : St) : Except Fault (St × Option Nat) := do
  let (pool, block) ← (allocBlock s.pool).mapError .pool
  match block with
  | none => pure ({ s with pool := pool }, none)
  | some block => pure (⟨A3Rc.newObject w s.rc, pool, s.blocks ++ [block]⟩, some s.rc.objects.length)

def create (w : Nat) (s : St) : Except Fault (St × Option Nat) := do
  let (s, target) ← newObject w s
  pure ({ s with rc := A3Rc.adopt s.rc target }, target)

def deleteAll (blockOf : Nat → Nat) : List Nat → A3Pool.St → Except Fault A3Pool.St
  | [], pool => .ok pool
  | o :: os, pool => do
    let pool ← (freeBlock pool (blockOf o)).mapError .pool
    deleteAll blockOf os pool

inductive Call where
  | op (op : A3Rc.Op)
  | write (o offset : Nat) (bytes : List UInt8)

/-- A call, and the pointer that `new` or `Rc::create` gets. -/
def exec (w : Nat) (s : St) : Call → Except Fault (St × Option Nat)
  | .op .new => newObject w s
  | .op .create => create w s
  | .op op => do
    let rc ← (A3Rc.exec w s.rc op).mapError .rc
    let pool ← deleteAll (block s) (rc.deleted.take (rc.deleted.length - s.rc.deleted.length)) s.pool
    pure (⟨rc, pool, s.blocks⟩, none)
  | .write o offset bytes => do
    let (pool, _) ← (A3Pool.exec s.pool (.write (block s o) offset bytes)).mapError .pool
    pure ({ s with pool := pool }, none)

structure World where
  st : St
  raw : List Nat

def World.rc (v : World) : A3Rc.World := ⟨v.st.rc, v.raw⟩

/-- The objects that have references. -/
def live (v : World) : List Nat := (List.range v.st.rc.objects.length).filter fun o => A3Rc.refs v.rc o ≠ 0

def nextRaw (v : World) : Call → Option Nat → List Nat
  | .op .new, out => out.toList ++ v.raw
  | .op op, _ => A3Rc.nextRaw v.rc op
  | .write _ _ _, _ => v.raw

/-- The operations as ever; what is written stays inside an object that has references. -/
def Legal (w : Nat) (v : World) : Call → Prop
  | .op op => A3Rc.Legal w v.rc op
  | .write o offset bytes => o ∈ live v ∧ offset + bytes.length ≤ v.st.pool.pool.objSize

def Step (w : Nat) (v : World) (a : Call × Option Nat) (v' : World) : Prop :=
  Legal w v a.1 ∧ exec w v.st a.1 = .ok (v'.st, a.2) ∧ v'.raw = nextRaw v a.1 a.2

variable {objSize blocks w i : Nat} {L : Layout objSize blocks} {v v' : World} {chain hs ds : List Nat} {op : A3Rc.Op}

/-! ## What an operation deletes -/

/-- Objects are neither made nor forgotten, and those deleted are the first of the list. -/
structure Later (s s' : A3Rc.St) : Prop where
  length : s'.objects.length = s.objects.length
  deleted : ∃ ds, s'.deleted = ds ++ s.deleted

theorem Later.refl (s : A3Rc.St) : Later s s := ⟨rfl, [], rfl⟩

theorem Later.trans {s s' s'' : A3Rc.St} (h : Later s s') (h' : Later s' s'') : Later s s'' := by
  obtain ⟨ds, hds⟩ := h.deleted
  obtain ⟨ds', hds'⟩ := h'.deleted
  exact ⟨h'.length.trans h.length, ds' ++ ds, by rw [hds', hds, List.append_assoc]⟩

theorem ref_later {s s' : A3Rc.St} {o : Nat} (h : A3Rc.ref w s o = .ok s') : Later s s' := by
  obtain ⟨count, _, h⟩ := bind_ok h
  cases h
  exact ⟨List.length_set, [], rfl⟩

theorem unref_later {s s' : A3Rc.St} {o : Nat} (h : A3Rc.unref s o = .ok s') : Later s s' := by
  obtain ⟨count, _, h⟩ := bind_ok h
  obtain ⟨_, h⟩ := guard_ok h rfl
  by_cases hlast : count - 1 = 0
  · simp only [if_pos hlast] at h
    obtain ⟨count', _, h⟩ := bind_ok h
    obtain ⟨_, h⟩ := guard_ok h rfl
    cases h
    exact ⟨by simp [A3Rc.St.setCount], [o], rfl⟩
  · simp only [if_neg hlast] at h
    cases h
    exact ⟨List.length_set, [], rfl⟩

theorem refPtr_later {s s' : A3Rc.St} {p : Option Nat} (h : A3Rc.refPtr w s p = .ok s') : Later s s' := by
  cases p with
  | none => cases h; exact .refl s
  | some o => exact ref_later h

theorem unrefPtr_later {s s' : A3Rc.St} {p : Option Nat} (h : A3Rc.unrefPtr s p = .ok s') : Later s s' := by
  cases p with
  | none => cases h; exact .refl s
  | some o => exact unref_later h

/-- Handles are no objects. -/
theorem later_of_handles (s : A3Rc.St) (handles : List (Option A3Rc.Rc)) : Later s { s with handles := handles } := ⟨rfl, [], rfl⟩

theorem exec_later {s s' : A3Rc.St} (hnew : op ≠ .new ∧ op ≠ .create) (h : A3Rc.exec w s op = .ok s') : Later s s' := by
  cases op with
  | new => exact absurd rfl hnew.1
  | create => exact absurd rfl hnew.2
  | adopt target => cases h; exact later_of_handles s _
  | ofPtr target => exact (later_of_handles s _).trans (refPtr_later h)
  | copy other =>
    obtain ⟨p, _, h⟩ := bind_ok h
    exact (later_of_handles s _).trans (refPtr_later h)
  | move other =>
    obtain ⟨p, _, h⟩ := bind_ok h
    cases h
    exact later_of_handles s _
  | copyAssign this other =>
    rw [A3Rc.exec, A3Rc.copyAssign] at h
    by_cases heq : other = this
    · rw [if_pos heq] at h
      cases h
      exact .refl s
    · rw [if_neg heq] at h
      obtain ⟨p, _, h⟩ := bind_ok h
      obtain ⟨s1, hunref, h⟩ := bind_ok h
      obtain ⟨p', _, h⟩ := bind_ok h
      obtain ⟨p'', _, h⟩ := bind_ok h
      exact ((unrefPtr_later hunref).trans (later_of_handles s1 _)).trans (refPtr_later h)
  | moveAssign this other =>
    obtain ⟨p, _, h⟩ := bind_ok h
    obtain ⟨s1, hunref, h⟩ := bind_ok h
    obtain ⟨p', _, h⟩ := bind_ok h
    cases h
    exact (unrefPtr_later hunref).trans (later_of_handles s1 _)
  | destruct this =>
    obtain ⟨p, _, h⟩ := bind_ok h
    cases p with
    | none =>
      cases h
      exact later_of_handles s _
    | some o =>
      obtain ⟨count, _, h⟩ := bind_ok h
      obtain ⟨_, h⟩ := guard_ok h rfl
      obtain ⟨s1, hunref, h⟩ := bind_ok h
      cases h
      exact (unref_later hunref).trans (later_of_handles s1 _)

/-! ## The invariant -/

structure Inv (L : Layout objSize blocks) (v : World) (chain hs : List Nat) : Prop where
  rc : A3Rc.Inv v.rc
  split : Split L ⟨v.st.pool, hs.map L.obj⟩ chain hs
  length : v.st.blocks.length = v.st.rc.objects.length
  perm : ((live v).map (block v.st)).Perm (hs.map L.obj)

theorem mem_live {o : Nat} : o ∈ live v ↔ o < v.st.rc.objects.length ∧ A3Rc.refs v.rc o ≠ 0 := by
  simp [live]

theorem nodup_live (v : World) : (live v).Nodup := List.nodup_range.filter _

/-- The blocks of the objects deleted go back, one after the other. -/
theorem deleteAll_spec {blockOf : Nat → Nat} : ∀ (ds : List Nat) {pool : A3Pool.St} {chain hs keep : List Nat},
    Split L ⟨pool, hs.map L.obj⟩ chain hs → (keep ++ ds.map blockOf).Perm (hs.map L.obj) →
    ∃ pool' chain' hs', deleteAll blockOf ds pool = .ok pool' ∧ Split L ⟨pool', hs'.map L.obj⟩ chain' hs' ∧
      keep.Perm (hs'.map L.obj) := by
  intro ds
  induction ds with
  | nil =>
    intro pool chain hs keep hsplit hperm
    rw [List.map_nil, List.append_nil] at hperm
    exact ⟨pool, chain, hs, rfl, hsplit, hperm⟩
  | cons d ds ih =>
    intro pool chain hs keep hsplit hperm
    have hd : blockOf d ∈ hs.map L.obj := hperm.mem_iff.1 (by simp)
    obtain ⟨j, hj, hobj⟩ := List.mem_map.1 hd
    obtain ⟨⟨pool1, held1⟩, ⟨_, hexec, _⟩, hsplit1, _⟩ := step_free hsplit hj
    obtain ⟨pool1', hfree, hpool1⟩ := bind_ok hexec
    cases hpool1
    have hheld1 : held1 = (hs.erase j).map L.obj := hsplit1.held
    subst hheld1
    have hperm1 : (keep ++ ds.map blockOf).Perm ((hs.erase j).map L.obj) := by
      have hback : (hs.map L.obj).Perm (L.obj j :: (hs.erase j).map L.obj) := (List.perm_cons_erase hj).map L.obj
      have hmid : (keep ++ (d :: ds).map blockOf).Perm (L.obj j :: (keep ++ ds.map blockOf)) := by
        rw [List.map_cons, ← hobj]
        exact List.perm_middle
      exact (hmid.symm.trans (hperm.trans hback)).cons_inv
    obtain ⟨pool', chain', hs', hall, hsplit', hperm'⟩ := ih hsplit1 hperm1
    refine ⟨pool', chain', hs', ?_, hsplit', hperm'⟩
    rw [deleteAll, ← hobj, hfree]
    exact hall

/-! ## One call -/

/-- The objects that lose their last reference are those deleted. -/
theorem live_perm (hrc : A3Rc.Inv v.rc) (v' : World) (hstep : A3Rc.Step w v.rc op v'.rc)
    (hlength : v'.st.rc.objects.length = v.st.rc.objects.length) (hds : v'.st.rc.deleted = ds ++ v.st.rc.deleted) :
    (live v' ++ ds).Perm (live v) := by
  have hrc' : A3Rc.Inv v'.rc := (A3Rc.inv_step hrc hstep).1
  have hcount : ∀ o, v'.st.rc.deleted.count o = ds.count o + v.st.rc.deleted.count o := fun o => by rw [hds, List.count_append]
  have hone : ∀ o, v'.st.rc.deleted.count o ≤ 1 := by
    intro o
    have h := hrc'.deleted o
    rw [show v'.st.rc.deleted.count o = _ from h]
    split <;> omega
  have hmem : ∀ o, o ∈ ds ↔ A3Rc.refs v.rc o ≠ 0 ∧ A3Rc.refs v'.rc o = 0 := by
    intro o
    rw [← A3Rc.deleted_step hrc hstep o, ← List.count_pos_iff, ← List.count_pos_iff (l := v'.rc.st.deleted), ← List.count_eq_zero]
    have h1 := hone o
    have h2 := hcount o
    show _ ↔ v.st.rc.deleted.count o = 0 ∧ 0 < v'.st.rc.deleted.count o
    omega
  have hnodup : (live v' ++ ds).Nodup := by
    refine List.nodup_append.2 ⟨nodup_live v', List.nodup_iff_count.2 fun o => ?_, ?_⟩
    · have h1 := hone o
      have h2 := hcount o
      omega
    · rintro o ho _ hd rfl
      exact (mem_live.1 ho).2 ((hmem o).1 hd).2
  -- an object without references stays without
  have hgone : ∀ o, o < v.st.rc.objects.length → A3Rc.refs v.rc o = 0 → A3Rc.refs v'.rc o = 0 := by
    intro o ho hzero
    have hdel : o ∈ v.rc.st.deleted := hrc.mem_deleted.2 ⟨ho, by
      rw [← Multiset.count_eq_zero, A3Rc.count_references]
      exact hzero⟩
    have hdel' : o ∈ v'.rc.st.deleted := by
      show o ∈ v'.st.rc.deleted
      rw [hds]
      exact List.mem_append_right ds hdel
    have hnone := (hrc'.mem_deleted.1 hdel').2
    rwa [← Multiset.count_eq_zero, A3Rc.count_references] at hnone
  have hlt : ∀ o, A3Rc.refs v.rc o ≠ 0 → o < v.st.rc.objects.length := by
    intro o ho
    rw [← A3Rc.count_references, Multiset.count_ne_zero] at ho
    exact hrc.alloc o ho
  refine (List.perm_ext_iff_of_nodup hnodup (nodup_live v)).2 fun o => ?_
  rw [List.mem_append, mem_live, mem_live, hmem, hlength]
  constructor
  · rintro (⟨ho, hrefs⟩ | ⟨hrefs, _⟩)
    · exact ⟨ho, fun hzero => hrefs (hgone o ho hzero)⟩
    · exact ⟨hlt o hrefs, hrefs⟩
  · rintro ⟨ho, hrefs⟩
    by_cases hzero : A3Rc.refs v'.rc o = 0
    · exact Or.inr ⟨hrefs, hzero⟩
    · exact Or.inl ⟨ho, hzero⟩

/-- An operation that makes no object. -/
theorem Inv.kept (h : Inv L v chain hs) {rc' : A3Rc.World} (hstep : A3Rc.Step w v.rc op rc') (hlater : Later v.st.rc rc'.st) :
    ∃ pool' chain' hs', deleteAll (block v.st) (rc'.st.deleted.take (rc'.st.deleted.length - v.st.rc.deleted.length)) v.st.pool =
      .ok pool' ∧ Inv L ⟨⟨rc'.st, pool', v.st.blocks⟩, rc'.raw⟩ chain' hs' := by
  obtain ⟨ds, hds⟩ := hlater.deleted
  have htake : rc'.st.deleted.take (rc'.st.deleted.length - v.st.rc.deleted.length) = ds := by
    rw [hds, List.length_append, Nat.add_sub_cancel, List.take_left]
  have hperm : (live ⟨⟨rc'.st, v.st.pool, v.st.blocks⟩, rc'.raw⟩ ++ ds).Perm (live v) :=
    live_perm h.rc ⟨⟨rc'.st, v.st.pool, v.st.blocks⟩, rc'.raw⟩ hstep hlater.length hds
  have hblocks : ((live ⟨⟨rc'.st, v.st.pool, v.st.blocks⟩, rc'.raw⟩).map (block v.st) ++ ds.map (block v.st)).Perm
      (hs.map L.obj) := by
    rw [← List.map_append]
    exact (hperm.map _).trans h.perm
  obtain ⟨pool', chain', hs', hall, hsplit, hkeep⟩ := deleteAll_spec ds h.split hblocks
  rw [htake]
  exact ⟨pool', chain', hs', hall, (A3Rc.inv_step h.rc hstep).1, hsplit, h.length.trans hlater.length.symm, hkeep⟩

/-- An operation that makes an object, in the block `i`. -/
theorem Inv.grown (h : Inv L v (i :: chain) hs) {rc' : A3Rc.World} (hstep : A3Rc.Step w v.rc op rc')
    (hlength : rc'.st.objects.length = v.st.rc.objects.length + 1)
    (heffect : A3Rc.effect v.rc op = v.st.rc.objects.length ::ₘ A3Rc.references v.rc) :
    ∃ pool', allocBlock v.st.pool = .ok (pool', some (L.obj i)) ∧
      Inv L ⟨⟨rc'.st, pool', v.st.blocks ++ [L.obj i]⟩, rc'.raw⟩ chain (i :: hs) := by
  obtain ⟨⟨pool', held'⟩, ⟨_, halloc, _⟩, hsplit, _⟩ := step_alloc_cons h.split
  obtain rfl : held' = (i :: hs).map L.obj := hsplit.held
  have hinv := A3Rc.inv_step h.rc hstep
  have hrefs : ∀ o, A3Rc.refs rc' o = if o = v.st.rc.objects.length then A3Rc.refs v.rc o + 1 else A3Rc.refs v.rc o := by
    intro o
    rw [← A3Rc.count_references, ← A3Rc.count_references, hinv.2.1, heffect, Multiset.count_cons]
    split <;> rfl
  have hlive : live ⟨⟨rc'.st, pool', v.st.blocks ++ [L.obj i]⟩, rc'.raw⟩ = live v ++ [v.st.rc.objects.length] := by
    have hold : ∀ o ∈ List.range v.st.rc.objects.length,
        decide (A3Rc.refs rc' o ≠ 0) = decide (A3Rc.refs v.rc o ≠ 0) := by
      intro o ho
      rw [hrefs, if_neg (Nat.ne_of_lt (List.mem_range.1 ho))]
    have hnew : [v.st.rc.objects.length].filter (fun o => decide (A3Rc.refs rc' o ≠ 0)) = [v.st.rc.objects.length] := by
      simp [hrefs]
    rw [live, live, show (⟨⟨rc'.st, pool', v.st.blocks ++ [L.obj i]⟩, rc'.raw⟩ : World).st.rc.objects.length =
      v.st.rc.objects.length + 1 from hlength, List.range_succ, List.filter_append]
    exact congr (congrArg _ (List.filter_congr hold)) hnew
  refine ⟨pool', halloc, hinv.1, hsplit, ?_, ?_⟩
  · show (v.st.blocks ++ [L.obj i]).length = rc'.st.objects.length
    rw [hlength, List.length_append, h.length, List.length_singleton]
  · have hold : ∀ o ∈ live v, (v.st.blocks ++ [L.obj i]).getD o 0 = block v.st o := by
      intro o ho
      have hlt : o < v.st.blocks.length := h.length ▸ (mem_live.1 ho).1
      rw [block, List.getD_eq_getElem?_getD, List.getD_eq_getElem?_getD, List.getElem?_append_left hlt]
    have hnew : (v.st.blocks ++ [L.obj i]).getD v.st.rc.objects.length 0 = L.obj i := by
      rw [← h.length]
      simp
    rw [hlive, List.map_append, List.map_singleton]
    show (List.map (fun o => (v.st.blocks ++ [L.obj i]).getD o 0) (live v) ++ [(v.st.blocks ++ [L.obj i]).getD _ 0]).Perm _
    rw [List.map_congr_left hold, hnew, List.map_cons]
    exact (List.perm_append_singleton _ _).trans (h.perm.cons _)

/-- `new` in a pool that is used up. -/
theorem Inv.full (h : Inv L v [] hs) : allocBlock v.st.pool = .ok (v.st.pool, none) := alloc_nil h.split.free

theorem exec_op (hnew : op ≠ .new ∧ op ≠ .create) (s : St) : exec w s (.op op) = (do
    let rc ← (A3Rc.exec w s.rc op).mapError .rc
    let pool ← deleteAll (block s) (rc.deleted.take (rc.deleted.length - s.rc.deleted.length)) s.pool
    pure (⟨rc, pool, s.blocks⟩, none)) := by
  cases op with
  | new => exact absurd rfl hnew.1
  | create => exact absurd rfl hnew.2
  | _ => rfl

theorem nextRaw_op (hnew : op ≠ .new) (v : World) (out : Option Nat) : nextRaw v (.op op) out = A3Rc.nextRaw v.rc op := by
  cases op with
  | new => exact absurd rfl hnew
  | _ => rfl

/-- What a legal call does: the call returns, and the pointer it gets from `new` is null only if there was no free block. -/
structure Does (L : Layout objSize blocks) (w : Nat) (v : World) (call : Call) (out : Option Nat) (v' : World)
    (chain : List Nat) : Prop where
  step : Step w v (call, out) v'
  inv : ∃ chain' hs', Inv L v' chain' hs'
  null : call = .op .new ∨ call = .op .create → (out = none ↔ chain = [])

theorem does_op (h : Inv L v chain hs) (hlegal : A3Rc.Legal w v.rc op) (hnew : op ≠ .new ∧ op ≠ .create) :
    ∃ out v', Does L w v (.op op) out v' chain := by
  obtain ⟨s', hexec, _⟩ := A3Rc.done h.rc hlegal
  have hstep : A3Rc.Step w v.rc op ⟨s', A3Rc.nextRaw v.rc op⟩ := ⟨hlegal, hexec, rfl⟩
  obtain ⟨pool', chain', hs', hall, h'⟩ := h.kept hstep (exec_later hnew hexec)
  refine ⟨none, _, ⟨hlegal, ?_, (nextRaw_op hnew.1 v none).symm⟩, ⟨chain', hs', h'⟩, ?_⟩
  · have hrc : A3Rc.exec w v.st.rc op = .ok s' := hexec
    simp only [exec_op hnew, hrc, Except.mapError, ok_bind]
    rw [hall]
    rfl
  · rintro (heq | heq) <;> cases heq
    · exact absurd rfl hnew.1
    · exact absurd rfl hnew.2

theorem does_new (h : Inv L v chain hs) (hlegal : A3Rc.Legal w v.rc .new) : ∃ out v', Does L w v (.op .new) out v' chain := by
  cases chain with
  | nil =>
    refine ⟨none, v, ⟨hlegal, ?_, rfl⟩, ⟨[], hs, h⟩, fun _ => iff_of_true rfl rfl⟩
    simp only [exec, newObject, h.full, Except.mapError, ok_bind]
    rfl
  | cons i chain =>
    have hstep : A3Rc.Step w v.rc .new ⟨A3Rc.newObject w v.st.rc, v.st.rc.objects.length :: v.raw⟩ := ⟨hlegal, rfl, rfl⟩
    obtain ⟨pool', halloc, h'⟩ := h.grown hstep List.length_append rfl
    refine ⟨some v.st.rc.objects.length, _, ⟨hlegal, ?_, rfl⟩, ⟨chain, i :: hs, h'⟩, fun _ => iff_of_false (by simp) (by simp)⟩
    simp only [exec, newObject, halloc, Except.mapError, ok_bind]
    rfl

theorem does_create (h : Inv L v chain hs) (hlegal : A3Rc.Legal w v.rc .create) :
    ∃ out v', Does L w v (.op .create) out v' chain := by
  cases chain with
  | nil =>
    -- a null handle
    have hadopt : A3Rc.Legal w v.rc (.adopt none) := by
      refine ⟨trivial, fun o ho => Nat.lt_of_le_of_lt (Multiset.count_le_count_cons o v.st.rc.objects.length _) ?_⟩
      exact hlegal.2 o (Multiset.mem_cons_of_mem ho)
    have hstep : A3Rc.Step w v.rc (.adopt none) ⟨A3Rc.adopt v.st.rc none, v.raw⟩ := ⟨hadopt, rfl, rfl⟩
    obtain ⟨pool', chain', hs', hall, h'⟩ := h.kept hstep (later_of_handles _ _)
    have hnone : pool' = v.st.pool := by
      have hlen : (A3Rc.adopt v.st.rc none).deleted.length - v.st.rc.deleted.length = 0 := Nat.sub_self _
      simp only [hlen, List.take_zero] at hall
      exact (Except.ok.inj hall).symm
    subst hnone
    refine ⟨none, ⟨⟨A3Rc.adopt v.st.rc none, v.st.pool, v.st.blocks⟩, v.raw⟩, ⟨hlegal, ?_, rfl⟩, ⟨chain', hs', h'⟩,
      fun _ => iff_of_true rfl rfl⟩
    simp only [exec, create, newObject, h.full, Except.mapError, ok_bind]
    rfl
  | cons i chain =>
    have hstep : A3Rc.Step w v.rc .create ⟨A3Rc.create w v.st.rc, v.raw⟩ := ⟨hlegal, rfl, rfl⟩
    obtain ⟨pool', halloc, h'⟩ := h.grown hstep List.length_append rfl
    refine ⟨some v.st.rc.objects.length, ⟨⟨A3Rc.create w v.st.rc, pool', v.st.blocks ++ [L.obj i]⟩, v.raw⟩, ⟨hlegal, ?_, rfl⟩,
      ⟨chain, i :: hs, h'⟩, fun _ => iff_of_false (by simp) (by simp)⟩
    simp only [exec, create, newObject, halloc, Except.mapError, ok_bind]
    rfl

theorem does_write (h : Inv L v chain hs) {o offset : Nat} {bytes : List UInt8} (hlegal : Legal w v (.write o offset bytes)) :
    ∃ out v', Does L w v (.write o offset bytes) out v' chain := by
  obtain ⟨ho, hle⟩ := hlegal
  have hblock : block v.st o ∈ hs.map L.obj := h.perm.mem_iff.1 (List.mem_map_of_mem ho)
  obtain ⟨i, hi, hobj⟩ := List.mem_map.1 hblock
  have hsize := h.split.free.fits.size
  simp only at hsize
  obtain ⟨⟨pool', held'⟩, ⟨_, hexec, hheld⟩, hsplit, _⟩ := step_write h.split hi (hsize ▸ hle)
  obtain rfl : held' = hs.map L.obj := hheld
  refine ⟨none, ⟨{ v.st with pool := pool' }, v.raw⟩, ⟨⟨ho, hle⟩, ?_, rfl⟩, ⟨chain, hs, h.rc, hsplit, h.length, h.perm⟩, ?_⟩
  · rw [exec, ← hobj, hexec]
    rfl
  · rintro (heq | heq) <;> cases heq

theorem Inv.does (h : Inv L v chain hs) {call : Call} (hlegal : Legal w v call) : ∃ out v', Does L w v call out v' chain := by
  cases call with
  | write o offset bytes => exact does_write h hlegal
  | op op =>
    by_cases hnew : op = .new
    · subst hnew
      exact does_new h hlegal
    · by_cases hcreate : op = .create
      · subst hcreate
        exact does_create h hlegal
      · exact does_op h hlegal ⟨hnew, hcreate⟩

theorem Step.unique {call : Call} {out out' : Option Nat} {v1 v2 : World} (h : Step w v (call, out) v1)
    (h' : Step w v (call, out') v2) : v1 = v2 ∧ out = out' := by
  obtain ⟨s1, raw1⟩ := v1
  obtain ⟨s2, raw2⟩ := v2
  obtain ⟨_, hexec, hraw⟩ := h
  obtain ⟨_, hexec', hraw'⟩ := h'
  obtain ⟨rfl, rfl⟩ := Prod.mk.inj (Except.ok.inj (hexec.symm.trans hexec'))
  simp only at hraw hraw'
  rw [hraw, hraw']
  exact ⟨rfl, rfl⟩

/-! ## Runs -/

/-- **Step lemma.** -/
theorem Inv.step (h : Inv L v chain hs) {call : Call} {out : Option Nat} (hstep : Step w v (call, out) v') :
    ∃ chain' hs', Inv L v' chain' hs' := by
  obtain ⟨out', v1, hdoes⟩ := h.does hstep.1
  obtain ⟨rfl, _⟩ := hstep.unique hdoes.step
  exact hdoes.inv

def start (pool : A3Pool.St) : World := ⟨⟨A3Rc.start.st, pool, []⟩, []⟩

theorem inv_start {pool : A3Pool.St} (h : FreeChain L pool (List.range blocks)) :
    Inv L (start pool) (List.range blocks) [] :=
  ⟨A3Rc.inv_start, Split.start h, rfl, .refl _⟩

/-- **Every block is free or that of one object.** In every state that operations on handles lead to, the free blocks of the pool
and the blocks of the objects that have references are the pool's blocks, each once; every legal call returns; and `new`
and `Rc::create` get `NULL` exactly when as many objects have references as there are blocks. -/
theorem pooled_partition {objSize blocks align base : Nat} (w : Nat) (zeroBlocks : Bool) (hblocks : 1 ≤ blocks)
    (halign : 1 ≤ align) (hfits : NoOverflow objSize blocks align) (hbase : 0 < base)
    (hspace : base + capacity objSize blocks align ≤ 2 ^ 64) :
    ∃ pool, newPool base objSize blocks align zeroBlocks none none = .ok pool ∧
      ∀ calls v, Run (Step w) (start pool) calls v →
        (∃ slots, Chain v.st.pool v.st.pool.pool.free slots ∧
          (slots.map (slotObj objSize) ++ (live v).map (block v.st)).Perm (blocksAt base objSize blocks align)) ∧
        (∀ call, Legal w v call → ∃ out v', Step w v (call, out) v') ∧
        ∀ call out v', (call = .op .new ∨ call = .op .create) → Step w v (call, out) v' →
          (out = none ↔ (live v).length = blocks) := by
  obtain ⟨pool, hnew, hchain, _⟩ := new_spec zeroBlocks none none hblocks halign hfits hbase hspace
  refine ⟨pool, hnew, fun calls v hrun => ?_⟩
  have hat : blocksAt base objSize blocks align = (List.range blocks).map (Layout.ofNew hfits halign hbase hspace).obj := rfl
  rw [hat]
  generalize Layout.ofNew hfits halign hbase hspace = L at hchain
  obtain ⟨chain, hs, h⟩ := hrun.invariant (P := fun v => ∃ chain hs, Inv L v chain hs)
    (fun _ a _ ⟨_, _, h⟩ hstep => h.step hstep) ⟨_, _, inv_start hchain⟩
  refine ⟨⟨_, chain_of_seg h.split.free.fits h.split.free.lt h.split.free.seg, ?_⟩, fun call hlegal => ?_,
    fun call out v' hcall hstep => ?_⟩
  · exact (h.perm.append_left _).trans h.split.perm_obj
  · obtain ⟨out, v', hdoes⟩ := h.does hlegal
    exact ⟨out, v', hdoes.step⟩
  · obtain ⟨out', v1, hdoes⟩ := h.does hstep.1
    obtain ⟨_, rfl⟩ := hstep.unique hdoes.step
    have hlen := h.split.perm.length_eq
    have hlive := h.perm.length_eq
    rw [List.length_append, List.length_range] at hlen
    rw [List.length_map, List.length_map] at hlive
    rw [hdoes.null hcall, ← List.length_eq_zero_iff]
    omega

/-- Two blocks of 16 bytes, at 4096 and 4120: their links, and what is in the second one. -/
def twoBlocks (free link link' : Nat) (second : List UInt8) : A3Pool.St :=
  ⟨⟨4096, free, 16, 48, true, none⟩, List.replicate 16 0 ++ toBytes 8 link ++ (second ++ toBytes 8 link'), []⟩

def zeros : List UInt8 := List.replicate 16 0

/-- `A3_POOL_STORAGE` for a class of 16 bytes, two of them, and counts of 32 bits: two objects are made, a third is asked for,
and the second, which has been written, is deleted. -/
theorem pooled_partition_two :
    ∃ pool v, newPool 4096 16 2 8 true none none = .ok pool ∧
      Run (Step 32) (start pool) [(.op .create, some 0), (.op .create, some 1), (.op .create, none),
        (.write 1 5 [7, 7], none), (.op (.destruct 1), none)] v ∧
      (∃ slots, Chain v.st.pool v.st.pool.pool.free slots ∧ (slots.map (slotObj 16) ++ [4096]).Perm (blocksAt 4096 16 2 8)) ∧
      (∀ call, Legal 32 v call → ∃ out v', Step 32 v (call, out) v') ∧
      ∀ call out v', (call = .op .new ∨ call = .op .create) → Step 32 v (call, out) v' → (out = none ↔ 1 = 2) := by
  have h1 : Step 32 ⟨⟨⟨[], [], []⟩, twoBlocks 4112 4136 0 zeros, []⟩, []⟩ (.op .create, some 0)
      ⟨⟨⟨[⟨1, false⟩], [some ⟨some 0⟩], []⟩, twoBlocks 4136 0 0 zeros, [4096]⟩, []⟩ :=
    ⟨⟨trivial, by decide⟩, rfl, rfl⟩
  have h2 : Step 32 ⟨⟨⟨[⟨1, false⟩], [some ⟨some 0⟩], []⟩, twoBlocks 4136 0 0 zeros, [4096]⟩, []⟩
      (.op .create, some 1) ⟨⟨⟨[⟨1, false⟩, ⟨1, false⟩], [some ⟨some 0⟩, some ⟨some 1⟩], []⟩,
        twoBlocks 0 0 0 zeros, [4096, 4120]⟩, []⟩ :=
    ⟨⟨trivial, by decide⟩, rfl, rfl⟩
  have h3 : Step 32 ⟨⟨⟨[⟨1, false⟩, ⟨1, false⟩], [some ⟨some 0⟩, some ⟨some 1⟩], []⟩,
        twoBlocks 0 0 0 zeros, [4096, 4120]⟩, []⟩
      (.op .create, none) ⟨⟨⟨[⟨1, false⟩, ⟨1, false⟩], [some ⟨some 0⟩, some ⟨some 1⟩, some ⟨none⟩], []⟩,
        twoBlocks 0 0 0 zeros, [4096, 4120]⟩, []⟩ :=
    ⟨⟨trivial, by decide⟩, rfl, rfl⟩
  have h4 : Step 32 ⟨⟨⟨[⟨1, false⟩, ⟨1, false⟩], [some ⟨some 0⟩, some ⟨some 1⟩, some ⟨none⟩], []⟩,
        twoBlocks 0 0 0 zeros, [4096, 4120]⟩, []⟩
      (.write 1 5 [7, 7], none) ⟨⟨⟨[⟨1, false⟩, ⟨1, false⟩], [some ⟨some 0⟩, some ⟨some 1⟩, some ⟨none⟩], []⟩,
        twoBlocks 0 0 0 (splice zeros 5 [7, 7]), [4096, 4120]⟩, []⟩ :=
    ⟨⟨by decide, by decide⟩, rfl, rfl⟩
  have h5 : Step 32 ⟨⟨⟨[⟨1, false⟩, ⟨1, false⟩], [some ⟨some 0⟩, some ⟨some 1⟩, some ⟨none⟩], []⟩,
        twoBlocks 0 0 0 (splice zeros 5 [7, 7]), [4096, 4120]⟩, []⟩
      (.op (.destruct 1), none) ⟨⟨⟨[⟨1, false⟩, ⟨0, true⟩], [some ⟨some 0⟩, none, some ⟨none⟩], [1]⟩,
        twoBlocks 4136 0 0 zeros, [4096, 4120]⟩, []⟩ :=
    ⟨⟨⟨_, rfl⟩, by decide⟩, rfl, rfl⟩
  have hrun := Run.cons h1 (.cons h2 (.cons h3 (.cons h4 (Run.single h5))))
  obtain ⟨pool, hnew, hpool⟩ := pooled_partition 32 true (show 1 ≤ 2 by decide) (show 1 ≤ 8 by decide)
    (show NoOverflow 16 2 8 from ⟨by decide, by decide, by decide⟩) (show 0 < 4096 by decide) (by decide)
  obtain rfl : twoBlocks 4112 4136 0 zeros = pool := Except.ok.inj hnew
  exact ⟨_, _, hnew, hrun, hpool _ _ hrun⟩

end A3Pooled
