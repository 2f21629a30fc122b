import LibA3.Ht.Resize
import LibA3.Trans

/-!
# Runs of table operations

A step is one call; its label records the call, what it returned, whether the capacity check refused it
and whether its key was stored when it was made. `Effect` says once what a call can do to a table, in
terms of what is stored; `step_effect` is the only place where the operations are looked into, and every
statement about runs is derived from it.

`Sound` is `WF` with `size` at least the number of stored entries. That is all there is to say about
`size`: it is compared with `cap` before an insertion, and must not be too small.
-/

namespace A3Ht

open HT Trans

variable {K V : Type} [Inhabited K] [Inhabited V]

/-! ## Calls -/

inductive Op (K V : Type) where
  | insert (key : K) (value : V)
  | delete (key : K)
  | find (key : K)
  | resize (newCap : Nat)
  | setDuplicateCb (cb : Option (V → V → V × Bool))

/-- What a call returns. -/
inductive Ret (V : Type) where
  | bool (b : Bool)
  | value (v : Option V)
  | void
deriving DecidableEq, Repr

def exec (M : Methods K) (t : HT K V) : Op K V → Option (HT K V × Ret V)
  | .insert key value => (insert M t key value).map fun r => (r.1, .bool r.2)
  | .delete key => (delete M t key).map fun r => (r.1, .bool r.2)
  | .find key => (find M t key).map fun v => (t, .value v)
  | .resize newCap => (resize M t newCap).map fun t' => (t', .void)
  | .setDuplicateCb cb => some (setDuplicateCb t cb, .void)

/-- `assert(new_cap > table->cap)` is the one thing a caller has to see to. -/
def Op.Allowed (t : HT K V) : Op K V → Prop
  | .resize newCap => t.cap < newCap
  | _ => True

instance (t : HT K V) (op : Op K V) : Decidable (op.Allowed t) :=
  match op with
  | .resize newCap => inferInstanceAs (Decidable (t.cap < newCap))
  | .insert _ _ | .delete _ | .find _ | .setDuplicateCb _ => isTrue trivial

def Op.refused (M : Methods K) (t : HT K V) : Op K V → Bool
  | .insert _ _ => refuses M t
  | _ => false

def Op.bound (M : Methods K) (t : HT K V) : Op K V → Bool
  | .insert key _ | .delete key | .find key => (bindings M t key).isSome
  | _ => false

structure Call (K V : Type) where
  op : Op K V
  /-- refused by the capacity check -/
  refused : Bool
  /-- the key was stored -/
  bound : Bool
  ret : Ret V

/-- One call, returning. -/
def Step (M : Methods K) (t : HT K V) (a : Call K V) (t' : HT K V) : Prop :=
  a.op.Allowed t ∧ a.refused = a.op.refused M t ∧ a.bound = a.op.bound M t ∧ exec M t a.op = some (t', a.ret)

/-- Calls made one after another: what they were, and the table after them. -/
def callAll (M : Methods K) : HT K V → List (Op K V) → Option (List (Call K V) × HT K V)
  | t, [] => some ([], t)
  | t, op :: ops =>
    if op.Allowed t then
      match exec M t op with
      | none => none
      | some (t', ret) =>
        (callAll M t' ops).map fun r => (⟨op, op.refused M t, op.bound M t, ret⟩ :: r.1, r.2)
    else none

/-! ## What a call does -/

inductive Effect (M : Methods K) (t : HT K V) : Call K V → HT K V → Prop
  | insertRefused (key value bound) : refuses M t = true → Effect M t ⟨.insert key value, true, bound, .bool false⟩ t
  | insertAbsent (key value) (t' : HT K V) : refuses M t = false → (∀ e ∈ t.live, M.C key e.key ≠ 0) →
      t'.live.Perm (⟨key, value, hash M t key⟩ :: t.live) →
      SameBut { t with size := t.size + 1, cap := if grows M t then t.cap * 2 else t.cap } t' →
      Effect M t ⟨.insert key value, false, false, .bool true⟩ t'
  | insertPresent (key value) (e : Entry K V) (rest : List (Entry K V)) (t' : HT K V) : refuses M t = false →
      M.C key e.key = 0 → t.live.Perm (e :: rest) →
      t'.live.Perm ({ e with value := (onDuplicateValue t.duplicateCb e.value value).1 } :: rest) →
      SameBut { t with size := t.size + 1, cap := if grows M t then t.cap * 2 else t.cap } t' →
      Effect M t ⟨.insert key value, false, true, .bool (onDuplicateValue t.duplicateCb e.value value).2⟩ t'
  | deleteAbsent (key) : (∀ e ∈ t.live, M.C key e.key ≠ 0) → Effect M t ⟨.delete key, false, false, .bool false⟩ t
  | deletePresent (key) (e : Entry K V) (t' : HT K V) : M.C key e.key = 0 → t.live.Perm (e :: t'.live) →
      SameBut { t with size := t.size - 1 } t' → Effect M t ⟨.delete key, false, true, .bool true⟩ t'
  | find (key) : Effect M t ⟨.find key, false, (bindings M t key).isSome, .value (bindings M t key)⟩ t
  | resize (newCap) (t' : HT K V) : t'.live.Perm t.live → SameBut { t with cap := newCap } t' →
      Effect M t ⟨.resize newCap, false, false, .void⟩ t'
  | setDuplicateCb (cb) : Effect M t ⟨.setDuplicateCb cb, false, false, .void⟩ (A3Ht.setDuplicateCb t cb)

/-- The invariant of a table in use. -/
structure Sound (M : Methods K) (t : HT K V) : Prop where
  wf : WF M t
  size_ge : t.live.length ≤ t.size

variable {M : Methods K}

omit [Inhabited K] [Inhabited V] in
theorem bound_cases (t : HT K V) (key : K) :
    (∀ e ∈ t.live, M.C key e.key ≠ 0) ∧ (bindings M t key).isSome = false ∨
      (∃ e ∈ t.live, M.C key e.key = 0) ∧ (bindings M t key).isSome = true := by
  cases hb : (bindings M t key).isSome with
  | false => exact Or.inl ⟨lookup_eq_none.1 (Option.isSome_eq_false_iff.1 hb |> Option.isNone_iff_eq_none.1), rfl⟩
  | true => exact Or.inr ⟨lookup_isSome.1 hb, rfl⟩

theorem run_callAll : ∀ (ops : List (Op K V)) {t t' : HT K V} {l : List (Call K V)},
    callAll M t ops = some (l, t') → Run (Step M) t l t'
  | [], t, t', l, h => by
    simp only [callAll, Option.some.injEq, Prod.mk.injEq] at h
    obtain ⟨rfl, rfl⟩ := h
    exact .nil _
  | op :: ops, t, t', l, h => by
    rw [callAll] at h
    split at h
    · rename_i hop
      split at h
      · cases h
      · rename_i t1 ret hexec
        obtain ⟨⟨l1, t2⟩, hrest, heq⟩ := Option.map_eq_some_iff.1 h
        simp only [Prod.mk.injEq] at heq
        obtain ⟨rfl, rfl⟩ := heq
        exact .cons ⟨hop, rfl, rfl, hexec⟩ (run_callAll ops hrest)
    · cases h

/-- INSERT returns, with one of its three effects. -/
theorem insert_effect {t : HT K V} (s : Sound M t) (key : K) (value : V) : ∃ t' b,
    insert M t key value = some (t', b) ∧ Sound M t' ∧
      Effect M t ⟨.insert key value, refuses M t, (bindings M t key).isSome, .bool b⟩ t' := by
  cases href : refuses M t with
  | true => exact ⟨t, false, insert_refused href key value, s, .insertRefused key value _ href⟩
  | false =>
    rcases bound_cases (M := M) t key with ⟨habs, hb⟩ | ⟨⟨e, he, hk⟩, hb⟩
    · obtain ⟨t', hins, w', hs, hperm⟩ := insert_absent s.wf s.size_ge href value habs
      have hlen := hperm.length_eq
      have hsize : t'.size = t.size + 1 := by rw [hs]
      have hge := s.size_ge
      refine ⟨t', true, hins, ⟨w', ?_⟩, hb ▸ .insertAbsent key value t' href habs hperm hs⟩
      rw [hlen, hsize, List.length_cons]; omega
    · obtain ⟨t', rest, hins, w', hs, hperm, hperm'⟩ := insert_present s.wf s.size_ge href value he hk
      have hlen := hperm.length_eq
      have hlen' := hperm'.length_eq
      have hsize : t'.size = t.size + 1 := by rw [hs]
      have hge := s.size_ge
      simp only [List.length_cons] at hlen hlen'
      exact ⟨t', _, hins, ⟨w', by omega⟩, hb ▸ .insertPresent key value e rest t' href hk hperm hperm' hs⟩

theorem delete_effect {t : HT K V} (s : Sound M t) (key : K) : ∃ t' b,
    delete M t key = some (t', b) ∧ Sound M t' ∧
      Effect M t ⟨.delete key, false, (bindings M t key).isSome, .bool b⟩ t' := by
  rcases bound_cases (M := M) t key with ⟨habs, hb⟩ | ⟨⟨e, he, hk⟩, hb⟩
  · exact ⟨t, false, delete_absent s.wf habs, s, hb ▸ .deleteAbsent key habs⟩
  · obtain ⟨t', hdel, hs, w', hperm⟩ := delete_present s.wf he hk
    have hlen := hperm.length_eq
    have hsize : t'.size = t.size - 1 := by rw [hs]
    have hge := s.size_ge
    simp only [List.length_cons] at hlen
    exact ⟨t', true, hdel, ⟨w', by omega⟩, hb ▸ .deletePresent key e t' hk hperm hs⟩

/-- **Every call returns**, and does what `Effect` says. -/
theorem exec_effect {t : HT K V} (s : Sound M t) (op : Op K V) (hop : op.Allowed t) : ∃ t' ret,
    exec M t op = some (t', ret) ∧ Sound M t' ∧ Effect M t ⟨op, op.refused M t, op.bound M t, ret⟩ t' := by
  cases op with
  | insert key value =>
    obtain ⟨t', b, h, s', heff⟩ := insert_effect s key value
    exact ⟨t', .bool b, by rw [exec, h]; rfl, s', heff⟩
  | delete key =>
    obtain ⟨t', b, h, s', heff⟩ := delete_effect s key
    exact ⟨t', .bool b, by rw [exec, h]; rfl, s', heff⟩
  | find key => exact ⟨t, .value (bindings M t key), by rw [exec, find_spec s.wf]; rfl, s, .find key⟩
  | resize newCap =>
    obtain ⟨t', h, hs, w', hperm⟩ := resize_spec s.wf newCap hop
    have hsize : t'.size = t.size := by rw [hs]
    exact ⟨t', .void, by rw [exec, h]; rfl, ⟨w', by rw [hperm.length_eq, hsize]; exact s.size_ge⟩,
      .resize newCap t' hperm hs⟩
  | setDuplicateCb cb => exact ⟨_, .void, rfl, ⟨s.wf.setDuplicateCb cb, s.size_ge⟩, .setDuplicateCb cb⟩

/-- **Step lemma.** -/
theorem step_effect {t t' : HT K V} {a : Call K V} (s : Sound M t) (h : Step M t a t') :
    Effect M t a t' ∧ Sound M t' := by
  obtain ⟨op, refused, bound, ret⟩ := a
  obtain ⟨hop, hr, hb, hexec⟩ := h
  obtain ⟨t1, ret1, hexec1, s1, heff⟩ := exec_effect s op hop
  have heq := hexec1.symm.trans hexec
  simp only [Option.some.injEq, Prod.mk.injEq] at heq
  obtain ⟨rfl, rfl⟩ := heq
  simp only at hr hb
  subst hr hb
  exact ⟨heff, s1⟩

theorem step_progress {t : HT K V} (s : Sound M t) (op : Op K V) (hop : op.Allowed t) :
    ∃ a t', a.op = op ∧ Step M t a t' := by
  obtain ⟨t', ret, hexec, _, _⟩ := exec_effect s op hop
  exact ⟨⟨op, op.refused M t, op.bound M t, ret⟩, t', rfl, hop, rfl, rfl, hexec⟩

theorem init_sound (M : Methods K) (key : Option (List UInt8)) (rand : Nat → UInt8) (canGrow : Bool) :
    Sound M (init M key rand canGrow : HT K V) :=
  ⟨init_wf M key rand canGrow, by rw [init_live]; exact Nat.zero_le _⟩

/-- **Run lemma.** -/
theorem run_sound {t t' : HT K V} {l : List (Call K V)} (h : Run (Step M) t l t') (s : Sound M t) : Sound M t' :=
  h.invariant (fun _ _ _ s1 hs => (step_effect s1 hs).2) s

/-! ## A table to evaluate on -/

/-- Keys that are numbers and hash to themselves. -/
def numberMethods (initialCap : Nat) (h : 1 ≤ initialCap) : Methods Nat where
  initialCap := initialCap
  loadFactor := 90
  H _ k := k
  C a b := a - b
  initialCap_pos := h
  loadFactor_le := defaultLoadFactor_le
  C_equiv := ⟨fun _ => by omega, fun h => by omega, fun h h' => by omega⟩
  H_congr _ a b h := by omega

def numbersInTwo : Methods Nat := numberMethods 2 (by decide)

end A3Ht
