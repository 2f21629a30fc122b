import LibA3.Amortized
import LibA3.Fallible
import LibA3.Vec.Clear

/-!
# Storage over a run

`a3_vec_reserve` is the one place where storage changes (`Reserved`): a new block, the elements copied there, the old block
freed. As the capacity doubles, all elements copied in a run are no more than the capacity it has gained
(`copies_amortized`); and at any time the block of the vector is the only one that has not been freed, so
`a3_vec_destroy` leaves none (`one_block_live`).
-/

namespace A3Vec

open Fallible Mem Trans

variable {junk : Nat → Nat → UInt8} {size align b n m cap fuel : Nat} {s s' : St} {heap heap' : List Block}
  {xs : List (List UInt8)} {bytes : List UInt8} {p : Ptr} {call : Call} {out : Out} {a : Call × Out} {l : List (Call × Out)}

/-! ## Blocks in use -/

/-- Block `b` has been allocated and not freed. -/
def InUse (heap : List Block) (b : Nat) : Prop := ∃ data, Owns heap b data

theorem Owns.inUse {data : List UInt8} (h : Owns heap b data) : InUse heap b := ⟨data, h⟩

theorem inUse_set {block : Block} (hb : b < heap.length) (j : Nat) :
    InUse (heap.set b block) j ↔ if j = b then block.live = true else InUse heap j := by
  unfold InUse Owns
  by_cases hj : j = b
  · subst hj
    rw [List.getElem?_set_self hb, if_pos rfl]
    constructor
    · rintro ⟨data, hdata⟩
      cases hdata
      rfl
    · intro hlive
      exact ⟨block.bytes, congrArg some (by rw [← hlive])⟩
  · rw [List.getElem?_set_ne (Ne.symm hj), if_neg hj]

theorem alloc_inUse (h : alloc junk heap n align = .ok (heap', b)) :
    b = heap.length ∧ heap'.length = heap.length + 1 ∧ ∀ j, InUse heap' j ↔ InUse heap j ∨ j = heap.length := by
  unfold alloc at h
  split at h
  · cases h
    refine ⟨rfl, by simp, fun j => ?_⟩
    unfold InUse Owns
    rcases Nat.lt_trichotomy j heap.length with hlt | rfl | hgt
    · rw [List.getElem?_append_left hlt, or_iff_left (Nat.ne_of_lt hlt)]
    · simp
    · have hnone : heap[j]? = none := List.getElem?_eq_none (Nat.le_of_lt hgt)
      have hlong : (heap ++ [Block.mk (fresh junk heap.length n) true]).length ≤ j := by
        rw [List.length_append, List.length_singleton]
        exact hgt
      simp [hnone, List.getElem?_eq_none hlong, Nat.ne_of_gt hgt]
  · cases h

theorem store_inUse (h : store heap p bytes = .ok heap') :
    heap'.length = heap.length ∧ ∀ j, InUse heap' j ↔ InUse heap j := by
  unfold store at h
  cases hblock : heap[p.1]? with
  | none =>
    rw [hblock] at h
    cases h
  | some block =>
    rw [hblock] at h
    simp only at h
    obtain ⟨hlive, h⟩ := guard_ok h rfl
    split at h
    · cases h
      refine ⟨List.length_set, fun j => ?_⟩
      have hlive' : block.live = true := by simpa using hlive
      rw [inUse_set (List.getElem?_eq_some_iff.1 hblock).1]
      split
      · next hj =>
        subst hj
        exact iff_of_true hlive' ⟨block.bytes, hblock.trans (congrArg some (by rw [← hlive']))⟩
      · rfl
    · cases h

theorem free_inUse (h : free heap b = .ok heap') :
    heap'.length = heap.length ∧ ∀ j, InUse heap' j ↔ InUse heap j ∧ j ≠ b := by
  unfold free at h
  cases hblock : heap[b]? with
  | none =>
    rw [hblock] at h
    cases h
  | some block =>
    rw [hblock] at h
    simp only at h
    split at h
    · cases h
      refine ⟨List.length_set, fun j => ?_⟩
      rw [inUse_set (List.getElem?_eq_some_iff.1 hblock).1]
      split
      · next hj => simp [hj]
      · next hj => rw [and_iff_left hj]
    · cases h

/-! ## `a3_vec_reserve` -/

/-- The loop stops at the first capacity that is large enough. -/
theorem growCap_bounds (hlen : m ≤ cap) (hmore : ¬m + n ≤ cap) {cap' : Nat} (h : growCap .exact m n fuel cap = .ok cap') :
    cap * 2 ≤ cap' ∧ cap' ≤ 2 * (m + n) := by
  induction fuel generalizing cap with
  | zero => cases h
  | succ fuel ih =>
    rw [growCap, exact_sub, exact_mul, if_pos (by omega)] at h
    by_cases hagain : m + n ≤ cap * 2
    · cases fuel with
      | zero => cases h
      | succ fuel =>
        rw [growCap, exact_sub, if_neg (by omega)] at h
        cases h
        omega
    · obtain ⟨hle, hroom⟩ := ih (by omega) hagain h
      omega

/-- What `a3_vec_reserve` does to the storage. -/
inductive Reserved (s : St) (n : Nat) : St → Prop
  | fits : s.vec.len + n ≤ s.vec.cap → Reserved s n s
  | first {heap : List Block} : ¬s.vec.len + n ≤ s.vec.cap → s.vec.buf = none → heap.length = s.heap.length + 1 →
      (∀ j, InUse heap j ↔ InUse s.heap j ∨ j = s.heap.length) → Reserved s n (s.moved n s.heap.length heap)
  | grown {b cap : Nat} {heap : List Block} : ¬s.vec.len + n ≤ s.vec.cap → s.vec.buf = some b → s.vec.cap * 2 ≤ cap →
      cap ≤ 2 * (s.vec.len + n) → heap.length = s.heap.length + 1 →
      (∀ j, InUse heap j ↔ (InUse s.heap j ∨ j = s.heap.length) ∧ j ≠ b) → Reserved s n (s.moved cap s.heap.length heap)

theorem reserve_reserved (hlen : s.vec.len ≤ s.vec.cap) (h : reserve .exact junk fuel s n = .ok s') : Reserved s n s' := by
  unfold reserve at h
  by_cases hfits : s.vec.len + n ≤ s.vec.cap
  · rw [exact_add, if_pos hfits] at h
    cases h
    exact .fits hfits
  · rw [exact_add, if_neg hfits] at h
    cases hb : s.vec.buf with
    | none =>
      simp only [hb] at h
      obtain ⟨⟨heap, b⟩, halloc, h⟩ := bind_ok h
      obtain ⟨rfl, hlength, huse⟩ := alloc_inUse halloc
      cases h
      exact .first hfits hb hlength huse
    | some b =>
      simp only [hb] at h
      obtain ⟨cap, hgrow, h⟩ := bind_ok h
      obtain ⟨⟨heap1, b1⟩, halloc, h⟩ := bind_ok h
      obtain ⟨bytes, _, h⟩ := bind_ok h
      obtain ⟨heap2, hstore, h⟩ := bind_ok h
      obtain ⟨heap3, hfree, h⟩ := bind_ok h
      obtain ⟨rfl, hlength1, huse1⟩ := alloc_inUse halloc
      obtain ⟨hlength2, huse2⟩ := store_inUse hstore
      obtain ⟨hlength3, huse3⟩ := free_inUse hfree
      obtain ⟨hdouble, hle⟩ := growCap_bounds hlen hfits hgrow
      cases h
      refine .grown hfits hb hdouble hle (hlength3.trans (hlength2.trans hlength1)) fun j => ?_
      rw [huse3, huse2, huse1]

/-! ## Calls -/

/-- The elements a call asks room for. -/
def Call.demand : Call → Nat
  | .push _ => 1
  | .reserve n => n
  | _ => 0

/-- Of the storage, a call does what its `a3_vec_reserve` does. -/
structure Stores (s s1 s' : St) (call : Call) : Prop where
  reserved : Reserved s call.demand s1
  cap : s'.vec.cap = s1.vec.cap
  buf : s'.vec.buf = s1.vec.buf
  heap_length : s'.heap.length = s1.heap.length
  inUse : ∀ j, InUse s'.heap j ↔ InUse s1.heap j
  len : s'.vec.len ≤ s.vec.len + call.demand

theorem Reserved.len {s1 : St} (h : Reserved s n s1) : s1.vec.len = s.vec.len := by
  cases h with
  | fits _ => rfl
  | first _ _ _ _ => rfl
  | grown _ _ _ _ _ _ => rfl

/-- A call that leaves the storage as it is. -/
theorem Stores.same (hlen : s.vec.len ≤ s.vec.cap) (hdemand : call.demand = 0) (hcap : s'.vec.cap = s.vec.cap)
    (hbuf : s'.vec.buf = s.vec.buf) (hheap : s'.heap = s.heap) (hle : s'.vec.len ≤ s.vec.len) : Stores s s s' call :=
  ⟨hdemand ▸ .fits hlen, hcap, hbuf, by rw [hheap], fun _ => by rw [hheap], Nat.le_add_right_of_le hle⟩

theorem exec_stores (hlen : s.vec.len ≤ s.vec.cap) (hlegal : Legal size s call)
    (h : exec .exact junk size align fuel s call = .ok (s', out)) : ∃ s1, Stores s s1 s' call := by
  cases call with
  | push elem =>
    obtain ⟨s2, hpush, h⟩ := bind_ok h
    cases h
    obtain ⟨⟨s3, ptr⟩, hwrite, hpush⟩ := bind_ok hpush
    obtain ⟨s1, hres, hwrite⟩ := bind_ok hwrite
    cases hwrite
    have hreserved := reserve_reserved hlen hres
    cases hptr : index .exact s1.vec s1.vec.len with
    | none =>
      simp only [hptr] at hpush
      cases hpush
    | some p =>
      simp only [hptr] at hpush
      obtain ⟨_, hpush⟩ := guard_ok hpush rfl
      obtain ⟨heap, hstore, hpush⟩ := bind_ok hpush
      cases hpush
      obtain ⟨hlength, huse⟩ := store_inUse hstore
      exact ⟨s1, hreserved, rfl, rfl, hlength, huse, by
        simp only [exact_add, hreserved.len, Call.demand]
        exact Nat.le_refl _⟩
  | pop =>
    obtain ⟨⟨s1, bytes⟩, hpop, h⟩ := bind_ok h
    cases h
    have hfst : (popPtr .exact s).1 = s ∨ (popPtr .exact s).1 = { s with vec := { s.vec with len := s.vec.len - 1 } } := by
      unfold popPtr
      split
      · exact Or.inl rfl
      · exact Or.inr rfl
    have heq : s' = (popPtr .exact s).1 := by
      unfold pop at hpop
      generalize popPtr .exact s = r at hpop ⊢
      obtain ⟨s2, ptr⟩ := r
      replace hpop := (guard_ok hpop rfl).2
      cases ptr with
      | none => cases hpop
      | some p =>
        obtain ⟨_, _, hpop⟩ := bind_ok hpop
        cases hpop
        rfl
    subst heq
    rcases hfst with hfst | hfst
    · exact ⟨s, .same hlen rfl (by rw [hfst]) (by rw [hfst]) (by rw [hfst]) (by rw [hfst])⟩
    · exact ⟨s, .same hlen rfl (by rw [hfst]) (by rw [hfst]) (by rw [hfst]) (by rw [hfst]; exact Nat.sub_le _ _)⟩
  | reserve n =>
    obtain ⟨s1, hres, h⟩ := bind_ok h
    cases h
    have hreserved := reserve_reserved hlen hres
    exact ⟨s', hreserved, rfl, rfl, rfl, fun _ => Iff.rfl, by rw [hreserved.len]; exact Nat.le_add_right _ _⟩
  | at' i =>
    obtain ⟨ptr, _, h⟩ := bind_ok h
    cases ptr with
    | none =>
      cases h
      exact ⟨s, .same hlen rfl rfl rfl rfl (Nat.le_refl _)⟩
    | some p =>
      obtain ⟨_, _, h⟩ := bind_ok h
      cases h
      exact ⟨s, .same hlen rfl rfl rfl rfl (Nat.le_refl _)⟩
  | clear => exact hlegal.elim

theorem Step.stores (h : Holds size align s xs) (hstep : Step junk size align s a s') :
    (∃ ys, Holds size align s' ys) ∧ ∃ s1, Stores s s1 s' a.1 := by
  obtain ⟨call, out⟩ := a
  obtain ⟨hlegal, hret⟩ := hstep
  obtain ⟨out1, s1, ys, hret1, _, h1, _⟩ := step_total junk h hlegal
  obtain ⟨rfl, rfl⟩ := hret.unique hret1
  obtain ⟨k, hexec⟩ := hret
  exact ⟨⟨ys, h1⟩, exec_stores h.len_le hlegal (hexec k (Nat.le_refl k))⟩

/-! ## Copies -/

/-- The elements that `a3_vec_reserve` copies: all, if there is a new block. -/
def copied (s : St) (_ : Call × Out) (s' : St) : Nat := if s'.heap.length = s.heap.length then 0 else s.vec.len

theorem Reserved.gains {s1 : St} (hr : Reserved s n s1) (h : Holds size align s xs) :
    s1.vec.cap = s.vec.cap ∧ s1.heap.length = s.heap.length ∨
      s.vec.len + s.vec.cap ≤ s1.vec.cap ∧ s1.heap.length = s.heap.length + 1 := by
  have hlen := h.len_le
  cases hr with
  | fits _ => exact Or.inl ⟨rfl, rfl⟩
  | first _ hb hlength _ =>
    have hcap := h.unset hb
    exact Or.inr ⟨by simp only [St.moved]; omega, hlength⟩
  | grown _ _ hdouble _ hlength _ => exact Or.inr ⟨by simp only [St.moved]; omega, hlength⟩

/-- Doubling the capacity pays for the copies. -/
theorem Stores.copied_le {s1 : St} (hs : Stores s s1 s' a.1) (h : Holds size align s xs) :
    copied s a s' + s.vec.cap ≤ s'.vec.cap := by
  rw [hs.cap, copied, hs.heap_length]
  rcases hs.reserved.gains h with ⟨hcap, hlength⟩ | ⟨hcap, hlength⟩
  · rw [if_pos hlength, hcap, Nat.zero_add]
  · rw [hlength, if_neg (Nat.succ_ne_self _)]
    exact hcap

/-- The elements that the calls ask room for. -/
def demands (l : List (Call × Out)) : Nat := (l.map fun a => a.1.demand).sum

theorem demands_append (l : List (Call × Out)) (a : Call × Out) : demands (l ++ [a]) = demands l + a.1.demand := by
  simp [demands]

theorem Stores.cap_le {s1 : St} (hs : Stores s s1 s' call) (hlen : s.vec.len ≤ n) :
    s'.vec.cap ≤ max s.vec.cap (2 * (n + call.demand)) := by
  rw [hs.cap]
  cases hs.reserved with
  | fits _ => exact Nat.le_max_left _ _
  | first _ _ _ _ =>
    simp only [St.moved]
    omega
  | grown _ _ _ hle _ _ =>
    simp only [St.moved]
    omega

/-- **Copying is cheap.** In every run on a vector that `a3_vec_init_` has been given `cap` for, all elements copied by all
reallocations are no more than the capacity has gained, and the capacity is no more than `cap` or twice the elements that the
calls have asked room for. -/
theorem copies_amortized (junk : Nat → Nat → UInt8) {size k : Nat} (hsize : 0 < size) (halign : 2 ^ k ∣ size) (cap : Nat) :
    ∃ s0, init .exact junk size (2 ^ k) cap = .ok s0 ∧ ∀ l s c, Spent (Step junk size (2 ^ k)) copied s0 l s c →
      c + s0.vec.cap ≤ s.vec.cap ∧ s.vec.cap ≤ max s0.vec.cap (2 * demands l) := by
  obtain ⟨s0, hinit, h0, _⟩ := init_spec junk hsize halign cap
  refine ⟨s0, hinit, fun l s c hspent => ⟨?_, ?_⟩⟩
  · have hpaid := hspent.le (P := fun s => ∃ xs, Holds size (2 ^ k) s xs) (fun s => -(s.vec.cap : Int))
      (fun _ => 0) (fun s a s' hP hstep => ?_) ⟨[], h0⟩
    · simp only [List.map_const', List.sum_replicate_nat, Nat.mul_zero] at hpaid
      omega
    · obtain ⟨xs, h⟩ := hP
      obtain ⟨h', s1, hs⟩ := hstep.stores h
      have hle := hs.copied_le h
      exact ⟨h', by omega⟩
  · have hstart : (∃ xs, Holds size (2 ^ k) s0 xs) ∧ s0.vec.len ≤ demands [] ∧
        s0.vec.cap ≤ max s0.vec.cap (2 * demands []) :=
      ⟨⟨[], h0⟩, Nat.le_of_eq h0.len, Nat.le_max_left _ _⟩
    have hinv := hspent.run.invariant_trace
      (P := fun s l => (∃ xs, Holds size (2 ^ k) s xs) ∧ s.vec.len ≤ demands l ∧
        s.vec.cap ≤ max s0.vec.cap (2 * demands l))
      (fun s l a s' hP hstep => ?_) hstart
    · exact hinv.2.2
    · obtain ⟨⟨xs, h⟩, hlen, hcap⟩ := hP
      obtain ⟨h', s1, hs⟩ := hstep.stores h
      have hle := hs.cap_le hlen
      have hlen' := hs.len
      rw [demands_append]
      exact ⟨h', by omega, by omega⟩

/-- Three pushes: one element is copied by the second, two by the third. -/
theorem copies_amortized_four :
    ∃ s0 s, init .exact (fun _ _ => 0) 4 (2 ^ 2) 0 = .ok s0 ∧
      Spent (Step (fun _ _ => 0) 4 (2 ^ 2)) copied s0 (fourCalls.take 3) s 3 ∧
      3 + s0.vec.cap ≤ s.vec.cap ∧ s.vec.cap ≤ max s0.vec.cap (2 * demands (fourCalls.take 3)) := by
  obtain ⟨s0, hinit, hcopies⟩ := copies_amortized (fun _ _ => 0) (show 0 < 4 by decide) (show 2 ^ 2 ∣ 4 by decide) 0
  obtain rfl : ⟨⟨0, 0, 4, 4, none⟩, []⟩ = s0 := Except.ok.inj hinit
  have h1 : Step (fun _ _ => 0) 4 (2 ^ 2) ⟨⟨0, 0, 4, 4, none⟩, []⟩ (.push [1, 0, 0, 0], .done)
      ⟨⟨1, 1, 4, 4, some 0⟩, [⟨[1, 0, 0, 0], true⟩]⟩ := ⟨rfl, 1, Fuel.from_add 1 fun _ => rfl⟩
  have h2 : Step (fun _ _ => 0) 4 (2 ^ 2) ⟨⟨1, 1, 4, 4, some 0⟩, [⟨[1, 0, 0, 0], true⟩]⟩ (.push [2, 0, 0, 0], .done)
      ⟨⟨2, 2, 4, 4, some 1⟩, [⟨[1, 0, 0, 0], false⟩, ⟨[1, 0, 0, 0, 2, 0, 0, 0], true⟩]⟩ :=
    ⟨rfl, 2, Fuel.from_add 2 fun _ => rfl⟩
  have h3 : Step (fun _ _ => 0) 4 (2 ^ 2)
      ⟨⟨2, 2, 4, 4, some 1⟩, [⟨[1, 0, 0, 0], false⟩, ⟨[1, 0, 0, 0, 2, 0, 0, 0], true⟩]⟩ (.push [3, 0, 0, 0], .done)
      ⟨⟨4, 3, 4, 4, some 2⟩, [⟨[1, 0, 0, 0], false⟩, ⟨[1, 0, 0, 0, 2, 0, 0, 0], false⟩,
        ⟨[1, 0, 0, 0, 2, 0, 0, 0, 3, 0, 0, 0, 0, 0, 0, 0], true⟩]⟩ := ⟨rfl, 2, Fuel.from_add 2 fun _ => rfl⟩
  have hspent : Spent (Step (fun _ _ => 0) 4 (2 ^ 2)) copied _ _ _ _ := .cons h1 (.cons h2 (.cons h3 (.nil _)))
  exact ⟨_, _, hinit, hspent, hcopies _ _ _ hspent⟩

/-! ## Blocks -/

/-- The block of the vector is the only one in use. -/
def OneBlock (s : St) : Prop := ∀ j, InUse s.heap j ↔ s.vec.buf = some j

theorem Stores.oneBlock {s1 : St} (hs : Stores s s1 s' call) (hone : OneBlock s) : OneBlock s' := by
  intro j
  rw [hs.inUse, hs.buf]
  cases hs.reserved with
  | fits _ => exact hone j
  | first _ hb _ huse =>
    have hnone : ¬InUse s.heap j := by
      rw [hone, hb]
      exact nofun
    simp only [St.moved, huse, hnone, false_or, Option.some.injEq, eq_comm]
  | @grown b _ _ _ hb _ _ _ huse =>
    have hlt : b < s.heap.length := by
      obtain ⟨data, howns⟩ := (hone b).2 hb
      exact howns.lt
    simp only [St.moved, huse, hone j, hb, Option.some.injEq]
    omega

/-- **No block is lost.** In every state that is reached after `a3_vec_init_`, the vector's block is the only one that has
been allocated and not freed, and after `a3_vec_destroy` there is none. -/
theorem one_block_live (junk : Nat → Nat → UInt8) {size k : Nat} (hsize : 0 < size) (halign : 2 ^ k ∣ size) (cap : Nat) :
    ∃ s0, init .exact junk size (2 ^ k) cap = .ok s0 ∧ ∀ l s, Run (Step junk size (2 ^ k)) s0 l s →
      (∀ j, InUse s.heap j ↔ s.vec.buf = some j) ∧ ∃ s', destroy s = .ok s' ∧ ∀ j, ¬InUse s'.heap j := by
  obtain ⟨s0, hinit, h0, _⟩ := init_spec junk hsize halign cap
  refine ⟨s0, hinit, fun l s hrun => ?_⟩
  have hfirst : OneBlock s0 := by
    unfold init at hinit
    replace hinit := (guard_ok hinit rfl).2
    split at hinit
    · obtain ⟨⟨heap, b⟩, halloc, hinit⟩ := bind_ok hinit
      obtain ⟨rfl, _, huse⟩ := alloc_inUse halloc
      cases hinit
      intro j
      rw [huse]
      constructor
      · rintro (⟨_, hnil⟩ | rfl)
        · cases hnil
        · rfl
      · intro hj
        exact Or.inr (Option.some.inj hj).symm
    · cases hinit
      intro j
      simp [InUse, Owns]
  obtain ⟨⟨xs, h⟩, hone⟩ := hrun.invariant (P := fun s => (∃ xs, Holds size (2 ^ k) s xs) ∧ OneBlock s)
    (fun s a s' hP hstep => by
      obtain ⟨⟨xs, h⟩, hone⟩ := hP
      obtain ⟨h', s1, hs⟩ := hstep.stores h
      exact ⟨h', hs.oneBlock hone⟩) ⟨⟨[], h0⟩, hfirst⟩
  refine ⟨hone, ?_⟩
  obtain ⟨s', hdestroy, _⟩ := destroy_spec h
  refine ⟨s', hdestroy, fun j hj => ?_⟩
  cases hb : s.vec.buf with
  | none =>
    simp only [destroy, hb, ok_bind, pure_ok] at hdestroy
    cases hdestroy
    rw [hone, hb] at hj
    cases hj
  | some b =>
    simp only [destroy, hb] at hdestroy
    obtain ⟨heap, hfree, hdestroy⟩ := bind_ok hdestroy
    cases hdestroy
    obtain ⟨hin, hne⟩ := ((free_inUse hfree).2 j).1 hj
    rw [hone, hb] at hin
    exact hne (Option.some.inj hin).symm

/-- Of the four blocks allocated, the last one. -/
theorem one_block_live_four :
    ∃ s0 s, init .exact (fun _ _ => 0) 4 (2 ^ 2) 0 = .ok s0 ∧ Run (Step (fun _ _ => 0) 4 (2 ^ 2)) s0 fourCalls s ∧
      (∀ j, InUse s.heap j ↔ j = 3) ∧ ∃ s', destroy s = .ok s' ∧ ∀ j, ¬InUse s'.heap j := by
  obtain ⟨s0, s, hinit, hrun, hvec⟩ := four_run
  obtain ⟨s1, hinit1, hlive⟩ := one_block_live (fun _ _ => 0) (show 0 < 4 by decide) (show 2 ^ 2 ∣ 4 by decide) 0
  obtain rfl : s0 = s1 := Except.ok.inj (hinit.symm.trans hinit1)
  obtain ⟨hone, hdestroy⟩ := hlive fourCalls s hrun
  refine ⟨s0, s, hinit, hrun, fun j => ?_, hdestroy⟩
  rw [hone, hvec, Option.some.injEq, eq_comm]

end A3Vec
