import LibA3.Fallible
import LibA3.Vec.Refine

/-!
# `A3_VEC_FOR_EACH` (`vec.h:94`)

The loop goes by pointers: from `a3_vec_first` on, as long as they are below `buf + len`. Its body is given by what it leaves
in the element that it finds. It is run on the elements in order, once on each, and the vector then holds what it left,
nothing else having changed (`for_each_maps`).
-/

namespace A3Vec

open Fallible Mem Trans

variable {junk : Nat → Nat → UInt8} {size align b off : Nat} {s s1 s2 : St} {xs as bs : List (List UInt8)}
  {x y data : List UInt8} {body : List UInt8 → List UInt8}

/-- `a3_vec_first` (`vec.c:98`) -/
def first (s : St) : Option Ptr := s.vec.buf.map fun b => (b, 0)

/-- The `for`, at `NAME`, with the elements that the body has been run on. Neither pointer is below the other if there is no
storage. -/
def forEachLoop (size : Nat) (body : List UInt8 → List UInt8) : Nat → St → Option Ptr →
    Except Fault (St × List (List UInt8))
  | 0, _, _ => .error .diverges
  | fuel + 1, s, name =>
    match name with
    | none => .ok (s, [])
    | some p =>
      if p.2 < s.vec.len * size then do
        let elem ← load s.heap p size
        let heap ← store s.heap p (body elem)
        let (s, visited) ← forEachLoop size body fuel { s with heap := heap } (some (p.1, p.2 + size))
        return (s, elem :: visited)
      else .ok (s, [])

def forEach (size fuel : Nat) (body : List UInt8 → List UInt8) (s : St) : Except Fault (St × List (List UInt8)) :=
  forEachLoop size body fuel s (first s)

/-! ## What a loop leaves alone -/

/-- Only the elements differ: the vector is the same, and so are the other blocks and the spare bytes of its own. -/
structure OnlyElements (size : Nat) (s s' : St) : Prop where
  vec : s'.vec = s.vec
  other : ∀ j, s.vec.buf ≠ some j → s'.heap[j]? = s.heap[j]?
  spare : ∀ b block, s.vec.buf = some b → s.heap[b]? = some block → ∃ block', s'.heap[b]? = some block' ∧
    block'.live = block.live ∧ block'.bytes.length = block.bytes.length ∧
    block'.bytes.drop (s.vec.len * size) = block.bytes.drop (s.vec.len * size)

namespace OnlyElements

theorem refl (size : Nat) (s : St) : OnlyElements size s s where
  vec := rfl
  other := fun _ _ => rfl
  spare := fun _ block _ hblock => ⟨block, hblock, rfl, rfl, rfl⟩

theorem trans (h : OnlyElements size s s1) (h' : OnlyElements size s1 s2) : OnlyElements size s s2 where
  vec := h'.vec.trans h.vec
  other := fun j hj => (h'.other j (by rwa [h.vec])).trans (h.other j hj)
  spare := by
    intro b block hb hblock
    obtain ⟨block1, hblock1, hlive1, hlen1, hdrop1⟩ := h.spare b block hb hblock
    obtain ⟨block2, hblock2, hlive2, hlen2, hdrop2⟩ := h'.spare b block1 (by rwa [h.vec]) hblock1
    rw [h.vec] at hdrop2
    exact ⟨block2, hblock2, hlive2.trans hlive1, hlen2.trans hlen1, hdrop2.trans hdrop1⟩

end OnlyElements

/-- A store that ends before the spare bytes. -/
theorem onlyElements_store (hb : s.vec.buf = some b) (howns : Owns s.heap b data) (hroom : off + y.length ≤ data.length)
    (hend : off + y.length ≤ s.vec.len * size) :
    OnlyElements size s { s with heap := s.heap.set b ⟨splice data off y, true⟩ } where
  vec := rfl
  other := by
    intro j hj
    have hne : b ≠ j := by
      rintro rfl
      exact hj hb
    exact List.getElem?_set_ne hne
  spare := by
    intro b' block hb' hblock
    obtain rfl : b = b' := Option.some.inj (hb.symm.trans hb')
    obtain rfl : block = ⟨data, true⟩ := Option.some.inj (hblock.symm.trans howns)
    exact ⟨_, owns_set howns.lt, rfl, length_splice hroom, drop_splice hend hroom⟩

/-! ## The loop -/

/-- One element overwritten in bytes that begin with the list. -/
theorem take_splice_elem (hsized : Sized size (as ++ x :: bs)) (hy : y.length = size)
    (hdata : data.take ((as ++ x :: bs).length * size) = (as ++ x :: bs).flatten)
    (hroom : as.length * size + y.length ≤ data.length) :
    (splice data (as.length * size) y).take ((as ++ y :: bs).length * size) = (as ++ y :: bs).flatten := by
  have hlength : ∀ z : List UInt8, (as ++ z :: bs).length = as.length + 1 + bs.length := fun z => by simp; omega
  have hbefore : data.take (as.length * size) = as.flatten := take_chunks hsized hdata
  have hnow : (splice data (as.length * size) y).take (as.length * size + size) = as.flatten ++ y := by
    have hend : (splice data (as.length * size) y).take (as.length * size + y.length) =
        data.take (as.length * size) ++ y := take_splice_end (by omega)
    rwa [hy, hbefore] at hend
  have hafter : (splice data (as.length * size) y).drop (as.length * size + size) =
      data.drop (as.length * size + size) := drop_splice (Nat.le_of_eq (by rw [hy])) hroom
  have hrest : (data.drop (as.length * size + size)).take (bs.length * size) = bs.flatten := by
    have hall := congrArg (List.drop (as.length * size + size)) hdata
    rw [hlength, List.drop_take, Nat.add_mul, Nat.add_mul, Nat.one_mul, Nat.add_sub_cancel_left] at hall
    rw [hall, List.flatten_append, List.flatten_cons, ← List.append_assoc]
    refine List.drop_left' ?_
    rw [List.length_append, hsized.of_append.1.length_flatten, hsized x (by simp)]
  rw [hlength, Nat.add_mul, Nat.add_mul, Nat.one_mul, List.take_add, hnow, hafter, hrest]
  simp

/-- An element is overwritten where it is. -/
theorem Holds.store_elem (h : Holds size align s (as ++ x :: bs)) (hb : s.vec.buf = some b) (hy : y.length = size) :
    ∃ heap, store s.heap (b, as.length * size) y = .ok heap ∧ Holds size align { s with heap := heap } (as ++ y :: bs) ∧
      OnlyElements size s { s with heap := heap } := by
  obtain ⟨hlast, hpos, data, howns, hcap, hdata⟩ := h.storage b hb
  have hle := h.bytes_le hcap
  have hlen : (as ++ x :: bs).length = as.length + 1 + bs.length := by simp; omega
  rw [hlen, Nat.add_mul, Nat.add_mul, Nat.one_mul] at hle
  have hroom : as.length * size + y.length ≤ data.length := by omega
  have hsized : Sized size (as ++ y :: bs) :=
    h.sized.of_append.1.append fun z hz => (List.mem_cons.1 hz).elim (fun heq => heq ▸ hy)
      fun hz => h.sized.of_append.2 z (List.mem_cons_of_mem x hz)
  have hend : as.length * size + y.length ≤ s.vec.len * size := by
    rw [h.len, hlen, hy, Nat.add_mul, Nat.add_mul, Nat.one_mul]
    exact Nat.le_add_right _ _
  refine ⟨_, store_eq (p := (b, as.length * size)) howns hroom, ?_, onlyElements_store hb howns hroom hend⟩
  exact
    { size_pos := h.size_pos
      align_pos := h.align_pos
      elemSize := h.elemSize
      elemAlign := h.elemAlign
      len := by rw [h.len]; simp
      sized := hsized
      len_le := h.len_le
      unset := h.unset
      storage := by
        intro b' hb'
        obtain rfl : b = b' := Option.some.inj (hb.symm.trans hb')
        exact ⟨by simpa using hlast, hpos, _, owns_set howns.lt, by rw [length_splice hroom, hcap],
          take_splice_elem h.sized hy hdata hroom⟩ }

/-- The loop, with the elements `bs` still to come. -/
theorem forEachLoop_spec (as : List (List UInt8)) (hbody : ∀ x : List UInt8, x.length = size → (body x).length = size)
    (h : Holds size align s (as ++ bs)) (hb : s.vec.buf = some b) :
    ∃ s', (∀ fuel, bs.length < fuel → forEachLoop size body fuel s (some (b, as.length * size)) = .ok (s', bs)) ∧
      Holds size align s' (as ++ bs.map body) ∧ OnlyElements size s s' := by
  induction bs generalizing as s with
  | nil =>
    have hend : ¬as.length * size < s.vec.len * size := by
      rw [h.len, List.append_nil]
      exact Nat.lt_irrefl _
    refine ⟨s, fun fuel hfuel => ?_, h, .refl size s⟩
    obtain ⟨fuel, rfl⟩ := Fuel.succ_of_lt hfuel
    rw [forEachLoop]
    simp only [if_neg hend]
  | cons x bs ih =>
    have hlen : s.vec.len = as.length + 1 + bs.length := by
      rw [h.len]
      simp
      omega
    have hmore : as.length * size < s.vec.len * size :=
      Nat.mul_lt_mul_of_pos_right (by omega) h.size_pos
    have hload := h.load_elem hb
    obtain ⟨heap, hstore, h1, honly⟩ := h.store_elem hb (hbody x (h.sized x (by simp)))
    have happend : as ++ body x :: bs = (as ++ [body x]) ++ bs := by simp
    rw [happend] at h1
    obtain ⟨s', hloop, h', honly'⟩ := ih (as ++ [body x]) h1 hb
    have hnext : (as ++ [body x]).length * size = as.length * size + size := by
      rw [List.length_append, List.length_singleton, Nat.succ_mul]
    rw [hnext] at hloop
    refine ⟨s', fun fuel hfuel => ?_, by simpa using h', honly.trans honly'⟩
    obtain ⟨fuel, rfl⟩ := Fuel.succ_of_lt hfuel
    rw [forEachLoop]
    simp only [if_pos hmore, hload, hstore, hloop fuel (by simpa using hfuel), ok_bind, pure_ok]

/-- **The loop goes through the list.** In every state that is reached after `a3_vec_init_`, `A3_VEC_FOR_EACH` runs its body on
the elements of the list in order, once on each; what it leaves in them is what the vector then holds, and nothing else has
changed. -/
theorem for_each_maps (junk : Nat → Nat → UInt8) {size k : Nat} (hsize : 0 < size) (halign : 2 ^ k ∣ size) (cap : Nat)
    (hbody : ∀ x : List UInt8, x.length = size → (body x).length = size) :
    ∃ s0, init .exact junk size (2 ^ k) cap = .ok s0 ∧ ∀ calls s, Run (Step junk size (2 ^ k)) s0 calls s →
      ∃ xs s', Run (ListStep size) [] calls xs ∧ (∃ n, ∀ fuel, n ≤ fuel → forEach size fuel body s = .ok (s', xs)) ∧
        Holds size (2 ^ k) s' (xs.map body) ∧ OnlyElements size s s' := by
  obtain ⟨s0, hinit, h0, _⟩ := init_spec junk hsize halign cap
  refine ⟨s0, hinit, fun calls s hrun => ?_⟩
  obtain ⟨xs, hlist, h⟩ : ∃ xs, Run (ListStep size) [] calls xs ∧ Holds size (2 ^ k) s xs := hrun.simulate
    (R := fun s xs => Holds size (2 ^ k) s xs)
    (fun s xs a s' h hstep => by
      obtain ⟨call, out⟩ := a
      obtain ⟨hlegal, hret⟩ := hstep
      obtain ⟨out', s1, ys, hret', hlist, h', _⟩ := step_total junk h hlegal
      obtain ⟨rfl, rfl⟩ := hret.unique hret'
      exact ⟨ys, hlist, h'⟩) h0
  cases hb : s.vec.buf with
  | none =>
    have hcap := h.unset hb
    have hlen := h.len
    have hle := h.len_le
    obtain rfl : xs = [] := List.eq_nil_of_length_eq_zero (by omega)
    refine ⟨[], s, hlist, ⟨1, fun fuel hfuel => ?_⟩, h, .refl size s⟩
    obtain ⟨fuel, rfl⟩ := Fuel.succ_of_lt hfuel
    rw [forEach, first, hb]
    rfl
  | some b =>
    obtain ⟨s', hloop, h', honly⟩ := forEachLoop_spec [] hbody h hb
    rw [List.length_nil, Nat.zero_mul] at hloop
    refine ⟨xs, s', hlist, ⟨xs.length + 1, fun fuel hfuel => ?_⟩, h', honly⟩
    rw [forEach, first, hb]
    exact hloop fuel hfuel

/-- A body that reverses each element's bytes. -/
theorem for_each_maps_four :
    ∃ s0 s, init .exact (fun _ _ => 0) 4 (2 ^ 2) 0 = .ok s0 ∧ Run (Step (fun _ _ => 0) 4 (2 ^ 2)) s0 fourCalls s ∧
      ∃ xs s', Run (ListStep 4) [] fourCalls xs ∧
        (∃ n, ∀ fuel, n ≤ fuel → forEach 4 fuel List.reverse s = .ok (s', xs)) ∧
        Holds 4 (2 ^ 2) s' (xs.map List.reverse) ∧ OnlyElements 4 s s' := by
  have hbody : ∀ x : List UInt8, x.length = 4 → x.reverse.length = 4 := fun _ hx => List.length_reverse.trans hx
  obtain ⟨s0, s, hinit, hrun, _⟩ := four_run
  obtain ⟨s1, hinit1, hmaps⟩ := for_each_maps (fun _ _ => 0) (by decide) (show 2 ^ 2 ∣ 4 by decide) 0 hbody
  obtain rfl : s0 = s1 := Except.ok.inj (hinit.symm.trans hinit1)
  exact ⟨s0, s, hinit, hrun, hmaps fourCalls s hrun⟩

end A3Vec
