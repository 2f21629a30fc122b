import LibA3.Vec.Refine

/-!
# A vector after `A3_VEC_CLEAR`

`a3_vec_destroy` frees the storage and leaves `buf` where it was. What comes next depends on three cases of a vector
(`Status`): it has had no storage yet, it has storage, or `buf` is dangling. In the third `cap` is 0 and `buf` is not
`NULL`: `a3_vec_reserve` doubles 0 for ever, and another `A3_VEC_CLEAR` frees the block again.
-/

namespace A3Vec

open Trans Mem

variable {junk : Nat → Nat → UInt8} {size align : Nat} {s s' : St} {xs ys : List (List UInt8)} {call : Call} {out : Out}
  {calls : List Call}

inductive Status where
  | unset
  | live
  | freed
deriving DecidableEq, Repr

/-- `buf` addresses a block that has been freed. -/
structure Dangling (s : St) : Prop where
  len : s.vec.len = 0
  cap : s.vec.cap = 0
  buf : ∃ b data, s.vec.buf = some b ∧ s.heap[b]? = some ⟨data, false⟩

def Is (size align : Nat) (s : St) (xs : List (List UInt8)) : Status → Prop
  | .unset => Holds size align s xs ∧ s.vec.buf = none
  | .live => Holds size align s xs ∧ s.vec.buf ≠ none
  | .freed => Dangling s ∧ xs = []

/-- The case a call leads to, none if the call is not to be made. -/
def Status.next (st : Status) : Call → Option Status
  | .push _ => if st = .freed then none else some .live
  | .pop => some st
  | .reserve n => if n = 0 then some st else if st = .freed then none else some .live
  | .at' _ => some st
  | .clear =>
    match st with
    | .unset => some .unset
    | .live => some .freed
    | .freed => none

/-- What a call does to the list. `A3_VEC_POP` asserts that there is an element. -/
def listCall (xs : List (List UInt8)) : Call → Except Fault (List (List UInt8) × Out)
  | .push elem => .ok (xs ++ [elem], .done)
  | .pop =>
    match xs.getLast? with
    | none => .error .assertion
    | some x => .ok (xs.dropLast, .elem x)
  | .reserve _ => .ok (xs, .done)
  | .at' i => .ok (xs, .ofElem xs[i]?)
  | .clear => .ok ([], .done)

/-- No call is made on a dangling `buf` that would use it, until the run ends or stops at an assertion. -/
def Careful (st : Status) (xs : List (List UInt8)) : List Call → Prop
  | [] => True
  | call :: calls =>
    match st.next call, listCall xs call with
    | none, _ => False
    | some _, .error _ => True
    | some st', .ok (ys, _) => Careful st' ys calls

/-- Several calls: what each of them returns and the length after it, and the fault that has stopped the run. -/
def runCalls (junk : Nat → Nat → UInt8) (size align fuel : Nat) (s : St) : List Call → List (Out × Nat) × Option Fault
  | [] => ([], none)
  | call :: calls =>
    match exec .exact junk size align fuel s call with
    | .error f => ([], some f)
    | .ok (s', out) =>
      let r := runCalls junk size align fuel s' calls
      ((out, s'.vec.len) :: r.1, r.2)

def listCalls (xs : List (List UInt8)) : List Call → List (Out × Nat) × Option Fault
  | [] => ([], none)
  | call :: calls =>
    match listCall xs call with
    | .error f => ([], some f)
    | .ok (ys, out) =>
      let r := listCalls ys calls
      ((out, ys.length) :: r.1, r.2)

/-- The elements pushed are of the vector's type. -/
def Call.Sized (size : Nat) : Call → Prop
  | .push elem => elem.length = size
  | _ => True

/-! ## One call -/

theorem Is.len {st : Status} (h : Is size align s xs st) : s.vec.len = xs.length := by
  cases st with
  | unset => exact h.1.len
  | live => exact h.1.len
  | freed => rw [h.1.len, h.2, List.length_nil]

/-- Storage there has been, or not. -/
theorem is_of_holds (h : Holds size align s xs) : Is size align s xs (if s.vec.buf = none then .unset else .live) := by
  split
  · exact ⟨h, ‹_›⟩
  · exact ⟨h, ‹_›⟩

theorem destroy_spec (h : Holds size align s xs) :
    ∃ s', destroy s = .ok s' ∧ Is size align s' [] (if s.vec.buf = none then .unset else .freed) := by
  cases hb : s.vec.buf with
  | none =>
    refine ⟨⟨{ s.vec with len := 0, cap := 0 }, s.heap⟩, ?_, ?_⟩
    · simp only [destroy, hb, bind, Except.bind, pure, Except.pure]
    · refine ⟨?_, hb⟩
      exact
        { size_pos := h.size_pos
          align_pos := h.align_pos
          elemSize := h.elemSize
          elemAlign := h.elemAlign
          len := rfl
          sized := fun _ hx => (List.not_mem_nil hx).elim
          len_le := Nat.le_refl 0
          unset := fun _ => rfl
          storage := fun b hb' => by simp [hb] at hb' }
  | some b =>
    obtain ⟨_, _, data, howns, _, _⟩ := h.storage b hb
    refine ⟨⟨{ s.vec with len := 0, cap := 0 }, s.heap.set b ⟨data, false⟩⟩, ?_, ⟨rfl, rfl, b, data, hb, ?_⟩, rfl⟩
    · simp only [destroy, hb, free_eq howns, bind, Except.bind, pure, Except.pure]
    · exact List.getElem?_set_self howns.lt

theorem Status.eq_freed {st : Status} (hnext : st.next call = none) : st = .freed := by
  cases st with
  | freed => rfl
  | unset | live =>
    cases call with
    | reserve n =>
      simp only [Status.next, reduceCtorEq, if_false] at hnext
      split at hnext <;> cases hnext
    | push elem | pop | at' i | clear => cases hnext

/-- A call on a dangling `buf` that uses it does not end, or frees it again. -/
theorem exec_careless (junk : Nat → Nat → UInt8) {st : Status} (h : Is size align s xs st) (hnext : st.next call = none) :
    ∃ f, (f = .diverges ∨ f = .doubleFree) ∧ ∀ fuel, exec .exact junk size align fuel s call = .error f := by
  obtain rfl := Status.eq_freed hnext
  obtain ⟨⟨hlen, hcap, b, data, hb, hdata⟩, _⟩ := h
  have hreserve : ∀ n fuel, n ≠ 0 → reserve .exact junk fuel s n = .error .diverges := by
    intro n fuel hn
    have hfull : ¬s.vec.len + n ≤ s.vec.cap := by omega
    have hgrow : growCap .exact s.vec.len n fuel s.vec.cap = .error .diverges := by
      rw [hlen, hcap]
      exact growCap_zero rfl rfl (Nat.pos_of_ne_zero hn) fuel
    simp only [reserve, exact_add, if_neg hfull, hb, hgrow, bind, Except.bind]
  cases call with
  | push elem =>
    refine ⟨.diverges, Or.inl rfl, fun fuel => ?_⟩
    simp only [exec, push, writePtr, hreserve 1 fuel Nat.one_ne_zero, bind, Except.bind]
  | reserve n =>
    have hn : n ≠ 0 := by
      rintro rfl
      cases hnext
    refine ⟨.diverges, Or.inl rfl, fun fuel => ?_⟩
    simp only [exec, hreserve n fuel hn, bind, Except.bind]
  | clear =>
    refine ⟨.doubleFree, Or.inr rfl, fun fuel => ?_⟩
    simp only [exec, destroy, hb, free, hdata, bind, Except.bind]
    rfl
  | pop => cases hnext
  | at' i => cases hnext

/-- What `call` does is what it does to the list, if the vector is left in `st'`. -/
def Follows (junk : Nat → Nat → UInt8) (size align : Nat) (s : St) (xs : List (List UInt8)) (call : Call) (st' : Status) :
    Prop :=
  match listCall xs call with
  | .error f => ∀ fuel, exec .exact junk size align fuel s call = .error f
  | .ok (ys, out) => ∃ s', Returns junk size align s call s' out ∧ Is size align s' ys st'

theorem Is.holds {st : Status} (h : Is size align s xs st) (hne : st ≠ .freed) :
    Holds size align s xs ∧ st = if s.vec.buf = none then .unset else .live := by
  cases st with
  | unset => exact ⟨h.1, (if_pos h.2).symm⟩
  | live => exact ⟨h.1, (if_neg h.2).symm⟩
  | freed => exact absurd rfl hne

theorem follows_holds {st' : Status} (h : Holds size align s xs) (hsized : call.Sized size)
    (hnext : (if s.vec.buf = none then Status.unset else .live).next call = some st') :
    Follows junk size align s xs call st' := by
  cases call with
  | push elem =>
    obtain ⟨k, s', hpush, h', hb⟩ := push_spec junk h hsized
    obtain rfl : Status.live = st' := by
      split at hnext <;> exact Option.some.inj hnext
    refine ⟨s', ⟨k, fun fuel hfuel => ?_⟩, h', hb⟩
    simp only [exec, hpush fuel hfuel, bind, Except.bind, pure, Except.pure]
  | pop =>
    obtain rfl := Option.some.inj hnext
    rcases List.eq_nil_or_concat xs with rfl | ⟨ys, x, rfl⟩
    · intro fuel
      simp only [exec, pop_nil h, bind, Except.bind]
    · rw [List.concat_eq_append] at h ⊢
      obtain ⟨s', hpop, h', hb⟩ := pop_spec h
      have his := is_of_holds h'
      rw [hb] at his
      simp only [Follows, listCall, List.getLast?_concat, List.dropLast_concat]
      refine ⟨s', ⟨0, fun fuel _ => ?_⟩, his⟩
      simp only [exec, hpop, bind, Except.bind, pure, Except.pure]
  | reserve n =>
    obtain ⟨k, s', hreserve, h', _, hb⟩ := reserve_spec junk h n
    have hst : (if s'.vec.buf = none then Status.unset else .live) = st' := by
      by_cases hn : n = 0
      · have hsame : s'.vec.buf = none ↔ s.vec.buf = none := hb.trans (and_iff_left hn)
        rw [Status.next, if_pos hn] at hnext
        rw [← Option.some.inj hnext]
        exact if_congr hsame rfl rfl
      · have hset : s'.vec.buf ≠ none := fun heq => hn (hb.1 heq).2
        rw [if_neg hset]
        simp only [Status.next, if_neg hn] at hnext
        split at hnext <;> exact Option.some.inj hnext
    refine ⟨s', ⟨k, fun fuel hfuel => ?_⟩, hst ▸ is_of_holds h'⟩
    simp only [exec, hreserve fuel hfuel, bind, Except.bind, pure, Except.pure]
  | at' i =>
    obtain rfl := Option.some.inj hnext
    exact ⟨s, ⟨0, fun fuel _ => at_spec h i fuel⟩, is_of_holds h⟩
  | clear =>
    obtain ⟨s', hdestroy, hst⟩ := destroy_spec h
    have hst' : (if s.vec.buf = none then Status.unset else .freed) = st' := by
      split at hnext
      · exact (if_pos ‹_›).trans (Option.some.inj hnext)
      · exact (if_neg ‹_›).trans (Option.some.inj hnext)
    refine ⟨s', ⟨0, fun fuel _ => ?_⟩, hst' ▸ hst⟩
    simp only [exec, hdestroy, bind, Except.bind, pure, Except.pure]

theorem follows_dangling {st' : Status} (h : Dangling s) (hnext : Status.freed.next call = some st') :
    Follows junk size align s [] call st' := by
  cases call with
  | push elem | clear => cases hnext
  | pop =>
    intro fuel
    simp [exec, pop, h.len, bind, Except.bind, throw, throwThe, MonadExceptOf.throw]
  | reserve n =>
    by_cases hn : n = 0
    · subst hn
      obtain rfl := Option.some.inj hnext
      have hfits : s.vec.len + 0 ≤ s.vec.cap := by rw [h.len]; exact Nat.zero_le _
      have hreserve : ∀ fuel, reserve .exact junk fuel s 0 = .ok s := fun _ => if_pos hfits
      refine ⟨s, ⟨0, fun fuel _ => ?_⟩, h, rfl⟩
      simp only [exec, hreserve, bind, Except.bind, pure, Except.pure]
    · rw [Status.next, if_neg hn] at hnext
      cases hnext
  | at' i =>
    obtain rfl := Option.some.inj hnext
    have hat : i ≥ s.vec.len := by rw [h.len]; exact Nat.zero_le _
    refine ⟨s, ⟨0, fun fuel _ => ?_⟩, h, rfl⟩
    simp only [exec, atPtr, if_pos hat, bind, Except.bind, pure, Except.pure]
    rfl

/-- Any other call does what it does to the list. -/
theorem exec_careful (junk : Nat → Nat → UInt8) {st st' : Status} (h : Is size align s xs st) (hsized : call.Sized size)
    (hnext : st.next call = some st') : Follows junk size align s xs call st' := by
  by_cases hst : st = .freed
  · subst hst
    obtain ⟨h, rfl⟩ := h
    exact follows_dangling h hnext
  · obtain ⟨hholds, rfl⟩ := h.holds hst
    exact follows_holds hholds hsized hnext

/-! ## Runs -/

/-- With fuel enough, the calls have this outcome. -/
def Settles (junk : Nat → Nat → UInt8) (size align : Nat) (s : St) (calls : List Call)
    (r : List (Out × Nat) × Option Fault) : Prop :=
  ∃ k, ∀ fuel, k ≤ fuel → runCalls junk size align fuel s calls = r

theorem Settles.unique {r r' : List (Out × Nat) × Option Fault} (h : Settles junk size align s calls r)
    (h' : Settles junk size align s calls r') : r = r' :=
  Fuel.unique h h'

theorem Settles.error {f : Fault} (h : ∀ fuel, exec .exact junk size align fuel s call = .error f) :
    Settles junk size align s (call :: calls) ([], some f) :=
  ⟨0, fun fuel _ => by rw [runCalls, h fuel]⟩

theorem Settles.cons {r : List (Out × Nat) × Option Fault} (h : Returns junk size align s call s' out)
    (hr : Settles junk size align s' calls r) :
    Settles junk size align s (call :: calls) ((out, s'.vec.len) :: r.1, r.2) := by
  obtain ⟨k, hk⟩ := h
  obtain ⟨k', hk'⟩ := hr
  refine ⟨max k k', fun fuel hfuel => ?_⟩
  rw [runCalls, hk fuel (Nat.le_trans (Nat.le_max_left _ _) hfuel)]
  simp only [hk' fuel (Nat.le_trans (Nat.le_max_right _ _) hfuel)]

theorem settles_careful {st : Status} (h : Is size align s xs st) (hsized : ∀ call ∈ calls, call.Sized size)
    (hcareful : Careful st xs calls) : Settles junk size align s calls (listCalls xs calls) := by
  induction calls generalizing s xs st with
  | nil => exact ⟨0, fun _ _ => rfl⟩
  | cons call calls ih =>
    obtain ⟨hcall, hcalls⟩ := List.forall_mem_cons.1 hsized
    unfold Careful at hcareful
    cases hnext : st.next call with
    | none => simp only [hnext] at hcareful
    | some st' =>
      have hfollows := exec_careful junk h hcall hnext
      unfold Follows at hfollows
      unfold listCalls
      cases hlist : listCall xs call with
      | error f =>
        simp only [hlist] at hfollows ⊢
        exact .error hfollows
      | ok a =>
        obtain ⟨ys, out⟩ := a
        simp only [hlist, hnext] at hfollows hcareful ⊢
        obtain ⟨s', hret, his⟩ := hfollows
        rw [← his.len]
        exact .cons hret (ih his hcalls hcareful)

/-- A run that is not careful ends in a loop for ever, or in a second `free`. -/
theorem settles_careless (junk : Nat → Nat → UInt8) {st : Status} (h : Is size align s xs st)
    (hsized : ∀ call ∈ calls, call.Sized size) (hcareful : ¬Careful st xs calls) :
    ∃ l f, (f = .diverges ∨ f = .doubleFree) ∧ Settles junk size align s calls (l, some f) := by
  induction calls generalizing s xs st with
  | nil => exact absurd trivial hcareful
  | cons call calls ih =>
    obtain ⟨hcall, hcalls⟩ := List.forall_mem_cons.1 hsized
    unfold Careful at hcareful
    cases hnext : st.next call with
    | none =>
      obtain ⟨f, hf, hexec⟩ := exec_careless junk h hnext
      exact ⟨[], f, hf, .error hexec⟩
    | some st' =>
      have hfollows := exec_careful junk h hcall hnext
      unfold Follows at hfollows
      cases hlist : listCall xs call with
      | error f => simp only [hlist, hnext, not_true_eq_false] at hcareful
      | ok a =>
        obtain ⟨ys, out⟩ := a
        simp only [hlist, hnext] at hfollows hcareful
        obtain ⟨s', hret, his⟩ := hfollows
        obtain ⟨l, f, hf, hsettles⟩ := ih his hcalls hcareful
        exact ⟨_, f, hf, hsettles.cons hret⟩

theorem listCalls_fault (xs : List (List UInt8)) (calls : List Call) :
    (listCalls xs calls).2 = none ∨ (listCalls xs calls).2 = some .assertion := by
  induction calls generalizing xs with
  | nil => exact Or.inl rfl
  | cons call calls ih =>
    unfold listCalls
    cases hlist : listCall xs call with
    | ok a => exact ih a.1
    | error f =>
      cases call with
      | pop =>
        rw [listCall] at hlist
        split at hlist
        · exact Or.inr (congrArg some (Except.error.inj hlist).symm)
        · cases hlist
      | push elem | reserve n | at' i | clear => cases hlist

theorem Status.next_freed {st : Status} (h : Status.freed.next call = some st) :
    st = .freed ∧ Status.unset.next call = some .unset := by
  cases call with
  | push elem | clear => cases h
  | pop | at' i => exact ⟨(Option.some.inj h).symm, rfl⟩
  | reserve n =>
    by_cases hn : n = 0
    · rw [Status.next, if_pos hn] at h ⊢
      exact ⟨(Option.some.inj h).symm, rfl⟩
    · rw [Status.next, if_neg hn] at h
      cases h

/-- Where a dangling vector may be used, one without storage may. -/
theorem Careful.unset (h : Careful .freed xs calls) : Careful .unset xs calls := by
  induction calls generalizing xs with
  | nil => exact h
  | cons call calls ih =>
    unfold Careful at h ⊢
    cases hnext : Status.freed.next call with
    | none => simp only [hnext] at h
    | some st =>
      obtain ⟨rfl, hnext0⟩ := Status.next_freed hnext
      cases hlist : listCall xs call with
      | error f => simp only [hnext0]
      | ok a =>
        simp only [hnext, hnext0, hlist] at h ⊢
        exact ih h

/-- The calls do on `s` what they do on `s0`: they all return, the same elements and with the same length after each, or
they stop at `A3_VEC_POP`'s assertion. -/
def Like (junk : Nat → Nat → UInt8) (size align : Nat) (s s0 : St) (calls : List Call) : Prop :=
  ∃ r, Settles junk size align s calls r ∧ Settles junk size align s0 calls r ∧ (r.2 = none ∨ r.2 = some .assertion)

theorem like_iff {st : Status} {s0 : St} (h : Is size align s [] st) (hst : st = .unset ∨ st = .freed)
    (h0 : Is size align s0 [] .unset) (hsized : ∀ call ∈ calls, call.Sized size) :
    Like junk size align s s0 calls ↔ Careful st [] calls := by
  constructor
  · rintro ⟨r, hr, _, hfault⟩
    by_contra hcareless
    obtain ⟨l, f, hf, hsettles⟩ := settles_careless junk h hsized hcareless
    rw [hr.unique hsettles] at hfault
    rcases hf with rfl | rfl <;> simp at hfault
  · intro hcareful
    have hcareful0 : Careful .unset [] calls := by
      rcases hst with rfl | rfl
      · exact hcareful
      · exact hcareful.unset
    exact ⟨_, settles_careful h hsized hcareful, settles_careful h0 hsized hcareful0, listCalls_fault [] calls⟩

/-- **`A3_VEC_CLEAR` and after.** The calls do what they do on a vector just initialised with capacity 0 if and only if
none of them is a push, a reservation of something or another `A3_VEC_CLEAR` on storage that has been freed. -/
theorem clear_like_iff (junk : Nat → Nat → UInt8) {size k : Nat} (hsize : 0 < size) (halign : 2 ^ k ∣ size) (cap : Nat) :
    ∃ s0 sfresh, init .exact junk size (2 ^ k) cap = .ok s0 ∧ init .exact junk size (2 ^ k) 0 = .ok sfresh ∧
      ∀ before s, Run (Step junk size (2 ^ k)) s0 before s → ∃ s', destroy s = .ok s' ∧
        ∀ calls : List Call, (∀ call ∈ calls, call.Sized size) →
          (Like junk size (2 ^ k) s' sfresh calls ↔ Careful (if s.vec.buf = none then .unset else .freed) [] calls) := by
  obtain ⟨s0, hinit, h0, _⟩ := init_spec junk hsize halign cap
  obtain ⟨sfresh, hfresh, hf, hbuf⟩ := init_spec junk hsize halign 0
  refine ⟨s0, sfresh, hinit, hfresh, fun before s hrun => ?_⟩
  have hkeep : ∀ s a s', (∃ xs, Holds size (2 ^ k) s xs) → Step junk size (2 ^ k) s a s' →
      ∃ xs, Holds size (2 ^ k) s' xs := by
    rintro s ⟨call, out⟩ s' ⟨xs, h⟩ ⟨hlegal, hret⟩
    obtain ⟨out', s1, ys, hret', _, h', _⟩ := step_total junk h hlegal
    obtain ⟨rfl, rfl⟩ := hret.unique hret'
    exact ⟨ys, h'⟩
  obtain ⟨xs, h⟩ := hrun.invariant hkeep ⟨[], h0⟩
  obtain ⟨s', hdestroy, h'⟩ := destroy_spec h
  refine ⟨s', hdestroy, fun calls hsized => like_iff h' ?_ ⟨hf, hbuf.2 rfl⟩ hsized⟩
  split
  · exact Or.inl rfl
  · exact Or.inr rfl

/-- After a clear, a look at an element and a reservation of nothing do what they do on a new vector, and a push does not. -/
theorem clear_like_iff_four :
    ∃ s0 s s' sfresh, init .exact (fun _ _ => 0) 4 (2 ^ 2) 0 = .ok s0 ∧
      Run (Step (fun _ _ => 0) 4 (2 ^ 2)) s0 fourCalls s ∧ destroy s = .ok s' ∧
      init .exact (fun _ _ => 0) 4 (2 ^ 2) 0 = .ok sfresh ∧
      Like (fun _ _ => 0) 4 (2 ^ 2) s' sfresh [.at' 0, .reserve 0] ∧
      ¬Like (fun _ _ => 0) 4 (2 ^ 2) s' sfresh [.at' 0, .push [1, 0, 0, 0]] := by
  obtain ⟨s0, s, hinit, hrun, hvec⟩ := four_run
  obtain ⟨s1, sfresh, hinit1, hfresh, hiff⟩ :=
    clear_like_iff (fun _ _ => 0) (show 0 < 4 by decide) (show 2 ^ 2 ∣ 4 by decide) 0
  obtain rfl : s0 = s1 := Except.ok.inj (hinit.symm.trans hinit1)
  obtain ⟨s', hdestroy, hlike⟩ := hiff fourCalls s hrun
  rw [hvec] at hlike
  refine ⟨s0, s, s', sfresh, hinit, hrun, hdestroy, hfresh, (hlike _ ?_).2 trivial, fun h => ?_⟩
  · rintro _ (_ | ⟨_, _ | ⟨_, ⟨⟩⟩⟩) <;> trivial
  · refine (hlike [.at' 0, .push [1, 0, 0, 0]] ?_).1 h
    rintro _ (_ | ⟨_, _ | ⟨_, ⟨⟩⟩⟩)
    · trivial
    · rfl

/-- `A3_VEC_INIT(char, &vec)`, `A3_VEC_CLEAR(&vec)`, and a push that does not end. -/
theorem clear_push_diverges :
    ∃ s0 s' sfresh, init .exact (fun _ _ => 0) 1 1 8 = .ok s0 ∧ destroy s0 = .ok s' ∧
      init .exact (fun _ _ => 0) 1 1 0 = .ok sfresh ∧
      (∀ fuel, runCalls (fun _ _ => 0) 1 1 fuel s' [.push [7]] = ([], some .diverges)) ∧
      ¬Like (fun _ _ => 0) 1 1 s' sfresh [.push [7]] := by
  have hdiverges : ∀ fuel, runCalls (fun _ _ => 0) 1 1 fuel ⟨⟨0, 0, 1, 1, some 0⟩, [⟨List.replicate 8 0, false⟩]⟩
      [.push [7]] = ([], some .diverges) := by
    intro fuel
    have hgrow : growCap .exact 0 1 fuel 0 = .error .diverges := growCap_zero rfl rfl Nat.one_pos fuel
    simp [runCalls, exec, push, writePtr, reserve, hgrow, bind, Except.bind]
  refine ⟨_, _, _, rfl, rfl, rfl, hdiverges, ?_⟩
  rintro ⟨r, hr, _, hfault⟩
  rw [hr.unique ⟨0, fun fuel _ => hdiverges fuel⟩] at hfault
  simp at hfault

end A3Vec
