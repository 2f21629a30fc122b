import LibA3.Trans
import LibA3.Vec.Spec

/-!
# A vector is a list
-/

namespace A3Vec

open Trans Mem

variable {junk : Nat → Nat → UInt8} {size align : Nat} {s s' : St} {xs ys : List (List UInt8)} {call : Call} {out : Out}

/-- What each call does to the list, and returns. -/
inductive ListStep (size : Nat) (xs : List (List UInt8)) : Call × Out → List (List UInt8) → Prop
  | push (elem : List UInt8) : elem.length = size → ListStep size xs (.push elem, .done) (xs ++ [elem])
  | pop (ys : List (List UInt8)) (x : List UInt8) : xs = ys ++ [x] → ListStep size xs (.pop, .elem x) ys
  | reserve (n : Nat) : ListStep size xs (.reserve n, .done) xs
  | at' (i : Nat) : ListStep size xs (.at' i, .ofElem xs[i]?) xs

/-- The calls made on a vector that is in use: elements are of its type, and it is not empty when it is popped. -/
def Legal (size : Nat) (s : St) : Call → Prop
  | .push elem => elem.length = size
  | .pop => s.vec.len ≠ 0
  | .clear => False
  | _ => True

/-- The call ends, in `s'`, and returns `out`. -/
def Returns (junk : Nat → Nat → UInt8) (size align : Nat) (s : St) (call : Call) (s' : St) (out : Out) : Prop :=
  ∃ k, ∀ fuel, k ≤ fuel → exec .exact junk size align fuel s call = .ok (s', out)

def Step (junk : Nat → Nat → UInt8) (size align : Nat) (s : St) (a : Call × Out) (s' : St) : Prop :=
  Legal size s a.1 ∧ Returns junk size align s a.1 s' a.2

theorem Returns.unique {s1 s2 : St} {out1 out2 : Out} (h1 : Returns junk size align s call s1 out1)
    (h2 : Returns junk size align s call s2 out2) : s1 = s2 ∧ out1 = out2 := by
  have heq := Fuel.unique h1 h2
  exact Prod.mk.inj (Except.ok.inj heq)

/-- Every call returns what the list says. -/
theorem step_total (junk : Nat → Nat → UInt8) (h : Holds size align s xs) (hlegal : Legal size s call) :
    ∃ out s' ys, Returns junk size align s call s' out ∧ ListStep size xs (call, out) ys ∧ Holds size align s' ys ∧
      ∀ n, call = .reserve n → n ≤ s'.vec.cap - s'.vec.len := by
  cases call with
  | push elem =>
    obtain ⟨k, s', hpush, h', _⟩ := push_spec junk h hlegal
    refine ⟨.done, s', _, ⟨k, fun fuel hfuel => ?_⟩, .push elem hlegal, h', by rintro _ ⟨⟩⟩
    simp only [exec, hpush fuel hfuel, bind, Except.bind, pure, Except.pure]
  | pop =>
    rcases List.eq_nil_or_concat xs with rfl | ⟨ys, x, rfl⟩
    · exact absurd h.len hlegal
    · rw [List.concat_eq_append] at h ⊢
      obtain ⟨s', hpop, h', _⟩ := pop_spec h
      refine ⟨.elem x, s', ys, ⟨0, fun fuel _ => ?_⟩, .pop ys x rfl, h', by rintro _ ⟨⟩⟩
      simp only [exec, hpop, bind, Except.bind, pure, Except.pure]
  | reserve n =>
    obtain ⟨k, s', hreserve, h', hroom, _⟩ := reserve_spec junk h n
    refine ⟨.done, s', _, ⟨k, fun fuel hfuel => ?_⟩, .reserve n, h', fun n' heq => ?_⟩
    · simp only [exec, hreserve fuel hfuel, bind, Except.bind, pure, Except.pure]
    · cases heq
      exact hroom
  | at' i => exact ⟨_, s, xs, ⟨0, fun fuel _ => at_spec h i fuel⟩, .at' i, h, by rintro _ ⟨⟩⟩
  | clear => exact hlegal.elim

/-- Where element `i` is, in the storage allocated last. -/
def InStorage (s : St) (i : Nat) : Prop :=
  ∃ b data, atPtr .exact s i = .ok (some (b, i * s.vec.elemSize)) ∧ b + 1 = s.heap.length ∧
    s.heap[b]? = some ⟨data, true⟩ ∧ i * s.vec.elemSize + s.vec.elemSize ≤ data.length

theorem inStorage (h : Holds size align s xs) {i : Nat} (hi : i < s.vec.len) : InStorage s i := by
  have hne : xs ≠ [] := List.ne_nil_of_length_pos (by have := h.len; omega)
  obtain ⟨b, hb⟩ := h.buf_of_ne_nil hne
  obtain ⟨hlast, _, data, howns, hdata, _⟩ := h.storage b hb
  refine ⟨b, data, ?_, hlast, howns, ?_⟩
  · simp only [atPtr, if_neg (Nat.not_le.2 hi), hb, exact_mul]
  · rw [hdata, h.elemSize, ← Nat.succ_mul]
    exact Nat.mul_le_mul_right size (Nat.le_trans hi h.len_le)

/-- **A vector is a list.** Every run from `a3_vec_init_` is, call by call, a run of the list; every legal call returns,
`a3_vec_reserve` with the room asked for; and every element is inside the storage allocated last. -/
theorem vec_refines_list (junk : Nat → Nat → UInt8) {size k : Nat} (hsize : 0 < size) (halign : 2 ^ k ∣ size) (cap : Nat) :
    ∃ s0, init .exact junk size (2 ^ k) cap = .ok s0 ∧ ∀ calls s, Run (Step junk size (2 ^ k)) s0 calls s →
      ∃ xs, Run (ListStep size) [] calls xs ∧ s.vec.len = xs.length ∧ s.vec.len ≤ s.vec.cap ∧
        (∀ i < s.vec.len, InStorage s i) ∧
        ∀ call, Legal size s call → ∃ out s', Step junk size (2 ^ k) s (call, out) s' ∧
          ∀ n, call = .reserve n → n ≤ s'.vec.cap - s'.vec.len := by
  obtain ⟨s0, hinit, h0, _⟩ := init_spec junk hsize halign cap
  refine ⟨s0, hinit, fun calls s hrun => ?_⟩
  have hsim : ∀ s xs (a : Call × Out) s', Holds size (2 ^ k) s xs → Step junk size (2 ^ k) s a s' →
      ∃ ys, ListStep size xs a ys ∧ Holds size (2 ^ k) s' ys := by
    rintro s xs ⟨call, out⟩ s' h ⟨hlegal, hret⟩
    obtain ⟨out', s1, ys, hret', hlist, h', _⟩ := step_total junk h hlegal
    obtain ⟨rfl, rfl⟩ := hret.unique hret'
    exact ⟨ys, hlist, h'⟩
  obtain ⟨xs, hlist, h⟩ := hrun.simulate hsim h0
  refine ⟨xs, hlist, h.len, h.len_le, fun i hi => inStorage h hi, fun call hlegal => ?_⟩
  obtain ⟨out, s', _, hret, _, _, hroom⟩ := step_total junk h hlegal
  exact ⟨out, s', ⟨hlegal, hret⟩, hroom⟩

/-- Three elements of four bytes, for which storage is allocated three times, a pop, and room for three more. -/
def fourCalls : List (Call × Out) :=
  [(.push [1, 0, 0, 0], .done), (.push [2, 0, 0, 0], .done), (.push [3, 0, 0, 0], .done), (.pop, .elem [3, 0, 0, 0]),
    (.at' 1, .elem [2, 0, 0, 0]), (.at' 2, .null), (.reserve 3, .done)]

theorem four_run : ∃ s0 s, init .exact (fun _ _ => 0) 4 (2 ^ 2) 0 = .ok s0 ∧
    Run (Step (fun _ _ => 0) 4 (2 ^ 2)) s0 fourCalls s ∧ s.vec = ⟨8, 2, 4, 4, some 3⟩ := by
  have hrun : Run (Step (fun _ _ => 0) 4 (2 ^ 2)) ⟨⟨0, 0, 4, 4, none⟩, []⟩ fourCalls _ :=
    .cons ⟨rfl, 1, Fuel.from_add 1 fun _ => rfl⟩ (.cons ⟨rfl, 2, Fuel.from_add 2 fun _ => rfl⟩
      (.cons ⟨rfl, 2, Fuel.from_add 2 fun _ => rfl⟩ (.cons ⟨Nat.succ_ne_zero 2, 0, fun _ _ => rfl⟩
        (.cons ⟨trivial, 0, fun _ _ => rfl⟩ (.cons ⟨trivial, 0, fun _ _ => rfl⟩
          (.single ⟨trivial, 2, Fuel.from_add 2 fun _ => rfl⟩))))))
  exact ⟨_, _, rfl, hrun, rfl⟩

theorem vec_refines_list_four :
    ∃ s0 s, init .exact (fun _ _ => 0) 4 (2 ^ 2) 0 = .ok s0 ∧ Run (Step (fun _ _ => 0) 4 (2 ^ 2)) s0 fourCalls s ∧
      ∃ xs, Run (ListStep 4) [] fourCalls xs ∧ s.vec.len = xs.length ∧ s.vec.len ≤ s.vec.cap ∧
        (∀ i < s.vec.len, InStorage s i) ∧
        ∀ call, Legal 4 s call → ∃ out s', Step (fun _ _ => 0) 4 (2 ^ 2) s (call, out) s' ∧
          ∀ n, call = .reserve n → n ≤ s'.vec.cap - s'.vec.len := by
  obtain ⟨s0, s, hinit, hrun, _⟩ := four_run
  obtain ⟨s1, hinit1, hlist⟩ := vec_refines_list (fun _ _ => 0) (show 0 < 4 by decide) (show 2 ^ 2 ∣ 4 by decide) 0
  obtain rfl : s0 = s1 := Except.ok.inj (hinit.symm.trans hinit1)
  exact ⟨s0, s, hinit, hrun, hlist fourCalls s hrun⟩

end A3Vec
