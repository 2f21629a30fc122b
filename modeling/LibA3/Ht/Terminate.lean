import LibA3.Ht.Run
import LibA3.Fuel

/-!
# Every loop ends

The loops of `A3_HT_INSERT_AT`, `A3_HT_FIND_INDEX` and `A3_HT_DELETE_INDEX` have no bound of their own. On a
table some run has led to, each of them ends within `cap + 1` turns, wherever it is entered:
`InsertAtCalls` says on which tables, and with which entries, `A3_HT_INSERT` and `A3_HT_RESIZE` call
`A3_HT_INSERT_AT`, the insertion of every entry of a resized table included.

That the calls return is `exec_effect`. What is left to say is that a loop which has returned makes no
further turn, however much fuel it is given.
-/

namespace A3Ht

open HT Trans

variable {K V : Type} [Inhabited K] [Inhabited V] {M : Methods K}

/-! ## A loop that has returned has ended -/

theorem insertAtLoop_succ (M : Methods K) : ∀ (n : Nat) (t : HT K V) (i m : Nat) (e : Entry K V) (r : HT K V × Bool),
    insertAtLoop M n t i m e = some r → insertAtLoop M (n + 1) t i m e = some r
  | 0, _, _, _, _, _, h => by cases h
  | n + 1, t, i, m, e, r, h => by
    rw [insertAtLoop] at h ⊢
    by_cases h0 : (t.entry i).hash = 0
    · simpa only [if_pos h0] using h
    · by_cases heq : e.hash = (t.entry i).hash ∧ M.C e.key (t.entry i).key = 0
      · simpa only [if_neg h0, if_pos heq] using h
      · simp only [if_neg h0, if_neg heq] at h ⊢
        by_cases hlt : t.probeCount i (t.entry i).hash < m
        · simp only [if_pos hlt] at h ⊢
          exact insertAtLoop_succ M n _ _ _ _ r h
        · simp only [if_neg hlt] at h ⊢
          exact insertAtLoop_succ M n _ _ _ _ r h

theorem findIndexLoop_succ (M : Methods K) : ∀ (n : Nat) (t : HT K V) (i m hash : Nat) (key : K) (r : Option Nat),
    findIndexLoop M n t i m hash key = some r → findIndexLoop M (n + 1) t i m hash key = some r
  | 0, _, _, _, _, _, _, h => by cases h
  | n + 1, t, i, m, hash, key, r, h => by
    rw [findIndexLoop] at h ⊢
    by_cases h0 : (t.entry i).hash = 0 ∨ t.probeCount i (t.entry i).hash < m
    · simpa only [if_pos h0] using h
    · by_cases heq : hash = (t.entry i).hash ∧ M.C key (t.entry i).key = 0
      · simpa only [if_neg h0, if_pos heq] using h
      · simp only [if_neg h0, if_neg heq] at h ⊢
        exact findIndexLoop_succ M n _ _ _ _ _ r h

theorem deleteIndexLoop_succ : ∀ (n : Nat) (t : HT K V) (index i : Nat) (r : HT K V),
    deleteIndexLoop n t index i = some r → deleteIndexLoop (n + 1) t index i = some r
  | 0, _, _, _, _, h => by cases h
  | n + 1, t, index, i, r, h => by
    rw [deleteIndexLoop] at h ⊢
    by_cases hnext : (t.entry i).hash ≠ 0 ∧ t.probeCount i (t.entry i).hash ≠ 0
    · simp only [if_pos hnext] at h ⊢
      exact deleteIndexLoop_succ n _ _ _ r h
    · simpa only [if_neg hnext] using h

/-! ## The calls of `A3_HT_INSERT_AT` -/

/-- The loop of `A3_HT_RESIZE` (`ht.h:275`), from the table `t` on, calls `A3_HT_INSERT_AT` on the table `u`
    with the entry `a`. -/
inductive ReinsertCalls (M : Methods K) : HT K V → List (Entry K V) → HT K V → Entry K V → Prop
  | here {t e rest} : e.hash ≠ 0 → ReinsertCalls M t (e :: rest) t e
  | skip {t e rest u a} : e.hash = 0 → ReinsertCalls M t rest u a → ReinsertCalls M t (e :: rest) u a
  | next {t e rest t' b u a} : e.hash ≠ 0 → insertAt M t e.hash e.key e.value = some (t', b) →
      ReinsertCalls M t' rest u a → ReinsertCalls M t (e :: rest) u a

def ResizeCalls (M : Methods K) (t : HT K V) (newCap : Nat) : HT K V → Entry K V → Prop :=
  ReinsertCalls M { t with cap := newCap, entries := List.replicate newCap default } (t.entries.take t.cap)

/-- The table `A3_HT_INSERT` goes on with when the capacity check has let it (`ht.h:361-363`). -/
def Checked (M : Methods K) (t t' : HT K V) : Prop :=
  if t.size * 100 ≥ t.cap * M.loadFactor then
    ∃ grown, grow M t = some (t', grown) ∧ ¬(grown = false ∧ t'.size ≥ t'.cap)
  else t' = t

/-- A call on the table `t` makes `A3_HT_INSERT_AT` put the entry `a` into the table `u`. -/
inductive InsertAtCalls (M : Methods K) (t : HT K V) : Op K V → HT K V → Entry K V → Prop
  | resize {newCap u a} : ResizeCalls M t newCap u a → InsertAtCalls M t (.resize newCap) u a
  | grow {key value u a} : t.size * 100 ≥ t.cap * M.loadFactor → t.canGrow = true →
      ResizeCalls M t (t.cap * 2) u a → InsertAtCalls M t (.insert key value) u a
  | insert {key value t'} : Checked M t t' →
      InsertAtCalls M t (.insert key value) { t' with size := t'.size + 1 } ⟨key, value, hash M t' key⟩

/-- A rehash that returns has got an answer from each of its calls. -/
theorem reinsert_calls {t u : HT K V} {prev : List (Entry K V)} {a : Entry K V} (h : ReinsertCalls M t prev u a) :
    ∀ {t' : HT K V}, reinsert M t prev = some t' → ∃ r, insertAt M u a.hash a.key a.value = some r := by
  induction h with
  | here h0 =>
    intro t' hre
    rw [reinsert, if_neg h0] at hre
    split at hre
    · cases hre
    · rename_i t1 b hins
      exact ⟨_, hins⟩
  | skip h0 _ ih =>
    intro t' hre
    rw [reinsert, if_pos h0] at hre
    exact ih hre
  | next h0 hins _ ih =>
    intro t' hre
    rw [reinsert, if_neg h0, hins] at hre
    exact ih hre

theorem insert_checked {t t' : HT K V} (h : Checked M t t') (key : K) (value : V) :
    insert M t key value = insertCounted M t' key value := by
  unfold Checked at h
  by_cases hload : t.size * 100 ≥ t.cap * M.loadFactor
  · rw [if_pos hload] at h
    obtain ⟨grown, hgrow, hfull⟩ := h
    rw [insert, if_pos hload, hgrow]
    exact if_neg hfull
  · rw [if_neg hload] at h
    rw [insert, if_neg hload, h]

/-- An INSERT that returns has returned from growing. -/
theorem grow_of_insert {t : HT K V} (hload : t.size * 100 ≥ t.cap * M.loadFactor) (hgrow : t.canGrow = true) {key : K}
    {value : V} {r : HT K V × Bool} (h : insert M t key value = some r) : ∃ t', resize M t (t.cap * 2) = some t' := by
  rw [insert, if_pos hload, grow, if_neg (by simp [hgrow])] at h
  cases hre : resize M t (t.cap * 2) with
  | none => rw [hre] at h; cases h
  | some t' => exact ⟨t', rfl⟩

/-- A call that returns has returned from `A3_HT_INSERT_AT`. -/
theorem insertAt_calls {t u : HT K V} {op : Op K V} {a : Entry K V} (hc : InsertAtCalls M t op u a) {t' : HT K V}
    {ret : Ret V} (h : exec M t op = some (t', ret)) : ∃ r, insertAt M u a.hash a.key a.value = some r := by
  cases hc with
  | resize hre =>
    obtain ⟨t1, hres, -⟩ := Option.map_eq_some_iff.1 h
    exact reinsert_calls hre hres
  | grow hload hgrow hre =>
    obtain ⟨r, hins, -⟩ := Option.map_eq_some_iff.1 h
    obtain ⟨t1, hres⟩ := grow_of_insert hload hgrow hins
    exact reinsert_calls hre hres
  | insert hch =>
    obtain ⟨r, hins, -⟩ := Option.map_eq_some_iff.1 h
    rw [insert_checked hch] at hins
    exact ⟨r, hins⟩

/-! ## Reachable tables -/

theorem insertAt_within {u : HT K V} {a : Entry K V} {r : HT K V × Bool}
    (h : insertAt M u a.hash a.key a.value = some r) :
    Fuel.Within (fun fuel => insertAtLoop M fuel u (a.hash % u.cap) 0 a) (u.cap + 1) :=
  Fuel.within (fun n r => insertAtLoop_succ M n _ _ _ _ r) h

theorem findIndex_within {t : HT K V} {key : K} {r : Option Nat} (h : findIndex M t key = some r) :
    Fuel.Within (fun fuel => findIndexLoop M fuel t (hash M t key % t.cap) 0 (hash M t key) key) (t.cap + 1) :=
  Fuel.within (fun n r => findIndexLoop_succ M n _ _ _ _ _ r) h

theorem deleteIndex_within {t t' : HT K V} {index : Nat} (h : deleteIndex t index = some t') :
    Fuel.Within (fun fuel => deleteIndexLoop fuel { t.clearHash index with size := t.size - 1 } index
      ((index + 1) % t.cap)) (t.cap + 1) :=
  Fuel.within (fun n r => deleteIndexLoop_succ n _ _ _ r) h

/-- `A3_HT_FIND_INDEX` returns. -/
theorem findIndex_returns {t : HT K V} (w : WF M t) (key : K) : ∃ r, findIndex M t key = some r := by
  rcases bound_cases (M := M) t key with ⟨habs, -⟩ | ⟨⟨e, he, hk⟩, -⟩
  · exact ⟨_, findIndex_absent w habs⟩
  · obtain ⟨i, hfi, -⟩ := findIndex_present w he hk
    exact ⟨_, hfi⟩

/-- `A3_HT_DELETE_INDEX` returns on the slot `A3_HT_DELETE` calls it with. -/
theorem deleteIndex_returns {t : HT K V} (s : Sound M t) {key : K} {index : Nat}
    (h : findIndex M t key = some (some index)) : ∃ t', deleteIndex t index = some t' := by
  obtain ⟨t', ret, hexec, -⟩ := exec_effect s (.delete key) trivial
  rw [exec, delete, h] at hexec
  obtain ⟨r, hdel, -⟩ := Option.map_eq_some_iff.1 hexec
  obtain ⟨t1, hdel1, -⟩ := Option.map_eq_some_iff.1 hdel
  exact ⟨t1, hdel1⟩

/-- **The loops of `A3_HT_FIND_INDEX`, `A3_HT_INSERT_AT` and `A3_HT_DELETE_INDEX` end within `cap + 1` turns**,
    whatever the table has been through and whatever they are called for. -/
theorem loops_end (M : Methods K) (key : Option (List UInt8)) (rand : Nat → UInt8) (canGrow : Bool)
    {l : List (Call K V)} {t : HT K V} (h : Run (Step M) (init M key rand canGrow) l t) :
    (∀ k, Fuel.Within (fun fuel => findIndexLoop M fuel t (hash M t k % t.cap) 0 (hash M t k) k) (t.cap + 1)) ∧
    (∀ op u a, op.Allowed t → InsertAtCalls M t op u a →
      Fuel.Within (fun fuel => insertAtLoop M fuel u (a.hash % u.cap) 0 a) (u.cap + 1)) ∧
    (∀ k index, findIndex M t k = some (some index) →
      Fuel.Within (fun fuel => deleteIndexLoop fuel { t.clearHash index with size := t.size - 1 } index
        ((index + 1) % t.cap)) (t.cap + 1)) := by
  have s := run_sound h (init_sound M key rand canGrow)
  refine ⟨fun k => ?_, fun op u a hop hc => ?_, fun k index hfi => ?_⟩
  · obtain ⟨r, hfi⟩ := findIndex_returns s.wf k
    exact findIndex_within hfi
  · obtain ⟨t', ret, hexec, -⟩ := exec_effect s op hop
    obtain ⟨r, hins⟩ := insertAt_calls hc hexec
    exact insertAt_within hins
  · obtain ⟨t', hdel⟩ := deleteIndex_returns s hfi
    exact deleteIndex_within hdel

/-- A table of two slots, both occupied. -/
theorem loops_end_full :
    let t : HT Nat Nat := ⟨false, 2, 2, List.replicate 32 0, none, [⟨2, 20, 2⟩, ⟨4, 40, 4⟩]⟩
    (∀ k, Fuel.Within (fun fuel => findIndexLoop numbersInTwo fuel t (hash numbersInTwo t k % t.cap) 0
      (hash numbersInTwo t k) k) (t.cap + 1)) ∧
    (∀ op u a, op.Allowed t → InsertAtCalls numbersInTwo t op u a →
      Fuel.Within (fun fuel => insertAtLoop numbersInTwo fuel u (a.hash % u.cap) 0 a) (u.cap + 1)) ∧
    (∀ k index, findIndex numbersInTwo t k = some (some index) →
      Fuel.Within (fun fuel => deleteIndexLoop fuel { t.clearHash index with size := t.size - 1 } index
        ((index + 1) % t.cap)) (t.cap + 1)) :=
  loops_end numbersInTwo none (fun _ => 0) false (run_callAll [.insert 2 20, .insert 4 40] rfl)

end A3Ht
