import LibA3.Vec.Invariant

/-!
# What each call does to the elements
-/

namespace A3Vec

open Mem

variable {junk : Nat → Nat → UInt8} {size align b n i : Nat} {s : St} {heap : List Block}
  {xs : List (List UInt8)} {x elem : List UInt8}

theorem init_spec (junk : Nat → Nat → UInt8) (hsize : 0 < size) {k : Nat} (halign : 2 ^ k ∣ size) (cap : Nat) :
    ∃ s, init .exact junk size (2 ^ k) cap = .ok s ∧ Holds size (2 ^ k) s [] ∧ (s.vec.buf = none ↔ cap = 0) := by
  have hpos : 0 < 2 ^ k := Nat.two_pow_pos k
  have hasserts : ¬¬(0 < size ∧ 0 < 2 ^ k) := fun h => h ⟨hsize, hpos⟩
  have hup := alignUp_eq halign
  by_cases hcap : cap = 0
  · subst hcap
    refine ⟨⟨⟨0, 0, size, 2 ^ k, none⟩, []⟩, ?_, ?_, by simp⟩
    · rw [init, if_neg hasserts, hup]
      rfl
    · exact ⟨hsize, hpos, rfl, rfl, rfl, fun _ hx => (List.not_mem_nil hx).elim, Nat.le_refl 0, fun _ => rfl,
        fun _ hb => nomatch hb⟩
  · have hbytes : 0 < cap * size := Nat.mul_pos (Nat.pos_of_ne_zero hcap) hsize
    have halloc := alloc_eq junk [] hbytes hpos
    refine ⟨⟨⟨cap, 0, size, 2 ^ k, some 0⟩, [⟨fresh junk 0 (cap * size), true⟩]⟩, ?_, ?_, by simp [hcap]⟩
    · rw [init, if_neg hasserts, hup]
      simp only [bind, Except.bind, pure, Except.pure, if_pos hcap]
      rw [show SizeT.exact.mul cap size = cap * size from rfl, halloc]
      rfl
    · refine ⟨hsize, hpos, rfl, rfl, rfl, fun _ hx => (List.not_mem_nil hx).elim, Nat.zero_le _,
        fun hb => (nomatch hb : False).elim, ?_⟩
      rintro _ ⟨⟩
      exact ⟨rfl, Nat.pos_of_ne_zero hcap, _, rfl, by simp, by simp⟩

/-- The vector in other storage. -/
def St.moved (s : St) (cap b : Nat) (heap : List Block) : St := ⟨{ s.vec with cap := cap, buf := some b }, heap⟩

theorem holds_moved (h : Holds size align s xs) {data : List UInt8} {cap : Nat} (howns : Owns heap b data)
    (hlast : b + 1 = heap.length) (hdata : data.length = cap * size) (hle : xs.length ≤ cap) (hpos : 0 < cap)
    (htake : data.take (xs.length * size) = xs.flatten) : Holds size align (s.moved cap b heap) xs :=
  { size_pos := h.size_pos
    align_pos := h.align_pos
    elemSize := h.elemSize
    elemAlign := h.elemAlign
    len := h.len
    sized := h.sized
    len_le := Nat.le_trans (Nat.le_of_eq h.len) hle
    unset := fun hb => nomatch hb
    storage := by
      rintro _ ⟨⟩
      exact ⟨hlast, hpos, data, howns, hdata, htake⟩ }

theorem reserve_unset (junk : Nat → Nat → UInt8) (h : Holds size align s xs) (hb : s.vec.buf = none)
    (hfull : ¬s.vec.len + n ≤ s.vec.cap) :
    ∃ s', (∀ fuel, reserve .exact junk fuel s n = .ok s') ∧ Holds size align s' xs ∧ n ≤ s'.vec.cap - s'.vec.len ∧
      s'.vec.buf ≠ none := by
  have hcap := h.unset hb
  have hlen := h.len
  have hlen_le := h.len_le
  have hxs : xs = [] := List.eq_nil_of_length_eq_zero (by omega)
  subst hxs
  have hn : 0 < n := by omega
  have halloc := alloc_eq junk s.heap (Nat.mul_pos hn h.size_pos) h.align_pos
  have howns : Owns (s.heap ++ [⟨fresh junk s.heap.length (n * size), true⟩]) s.heap.length _ := owns_alloc
  refine ⟨s.moved n _ _, fun fuel => ?_, holds_moved h howns (by simp) (by simp) (Nat.zero_le n) hn (by simp), ?_,
    by simp [St.moved]⟩
  · simp only [reserve, exact_add, if_neg hfull, hb, h.elemSize, h.elemAlign, exact_mul, halloc, bind, Except.bind, pure,
      Except.pure, St.moved]
  · simp only [St.moved]
    omega

/-- The elements are copied to the block allocated last, and the old one is freed. -/
theorem copy_spec {b : Nat} {data new bytes : List UInt8} (howns : Owns heap b data) (hle : bytes.length ≤ new.length) :
    ∃ heap1 heap2, store (heap ++ [⟨new, true⟩]) (heap.length, 0) bytes = .ok heap1 ∧ free heap1 b = .ok heap2 ∧
      Owns heap2 heap.length (splice new 0 bytes) ∧ heap.length + 1 = heap2.length := by
  have hnew : Owns (heap ++ [⟨new, true⟩]) heap.length new := owns_alloc
  have hne : heap.length ≠ b := Nat.ne_of_gt howns.lt
  have hroom : 0 + bytes.length ≤ new.length := by rwa [Nat.zero_add]
  have hold : Owns ((heap ++ [Block.mk new true]).set heap.length ⟨splice new 0 bytes, true⟩) b data :=
    howns.append.set_ne hne
  exact ⟨_, _, store_eq hnew hroom, free_eq hold, (owns_set hnew.lt).set_ne (Ne.symm hne), by simp⟩

theorem reserve_grow (junk : Nat → Nat → UInt8) (h : Holds size align s xs) {b : Nat} (hb : s.vec.buf = some b)
    (hfull : ¬s.vec.len + n ≤ s.vec.cap) :
    ∃ k s', (∀ fuel, k ≤ fuel → reserve .exact junk fuel s n = .ok s') ∧ Holds size align s' xs ∧
      n ≤ s'.vec.cap - s'.vec.len ∧ s'.vec.buf ≠ none := by
  obtain ⟨_, hpos, data, howns, _, _⟩ := h.storage b hb
  have hlen := h.len
  obtain ⟨k, cap', hgrow, hle, hroom⟩ := growCap_spec (n := n) hpos h.len_le
  have hcap : s.vec.len ≤ cap' := Nat.le_trans h.len_le hle
  have hbytes : xs.flatten.length ≤ cap' * size := by
    rw [h.sized.length_flatten, ← hlen]
    exact Nat.mul_le_mul_right size hcap
  have halloc := alloc_eq junk s.heap (Nat.mul_pos (Nat.lt_of_lt_of_le hpos hle) h.size_pos) h.align_pos
  have hnew : (fresh junk s.heap.length (cap' * size)).length = cap' * size := length_fresh
  generalize fresh junk s.heap.length (cap' * size) = new at halloc hnew
  have hload := h.load_all hb [⟨new, true⟩]
  obtain ⟨heap1, heap2, hstore, hfree, hcopied, hlast⟩ := copy_spec howns (hnew ▸ hbytes)
  have htake : (splice new 0 xs.flatten).take (xs.length * size) = xs.flatten := by
    have hend : (splice new 0 xs.flatten).take (0 + xs.flatten.length) = _ := take_splice_end (Nat.zero_le new.length)
    rwa [Nat.zero_add, h.sized.length_flatten, List.take_zero, List.nil_append] at hend
  have hlength : (splice new 0 xs.flatten).length = cap' * size := by
    rw [length_splice (by omega), hnew]
  refine ⟨k, s.moved cap' s.heap.length heap2, fun fuel hfuel => ?_, ?_, hroom, by simp [St.moved]⟩
  · simp only [reserve, exact_add, if_neg hfull, hb, h.elemSize, h.elemAlign, exact_mul, bind, Except.bind, hgrow fuel hfuel,
      halloc, hload, hstore, hfree, pure, Except.pure, St.moved]
  · exact holds_moved h hcopied hlast hlength (hlen ▸ hcap) (Nat.lt_of_lt_of_le hpos hle) htake

/-- `a3_vec_reserve` makes room, and keeps every element where it is. -/
theorem reserve_spec (junk : Nat → Nat → UInt8) (h : Holds size align s xs) (n : Nat) :
    ∃ k s', (∀ fuel, k ≤ fuel → reserve .exact junk fuel s n = .ok s') ∧ Holds size align s' xs ∧
      n ≤ s'.vec.cap - s'.vec.len ∧ (s'.vec.buf = none ↔ s.vec.buf = none ∧ n = 0) := by
  by_cases hfits : s.vec.len + n ≤ s.vec.cap
  · refine ⟨0, s, fun fuel _ => if_pos hfits, h, by omega, fun hb => ⟨hb, ?_⟩, And.left⟩
    have hcap := h.unset hb
    omega
  · have hn : n ≠ 0 := by
      rintro rfl
      exact hfits h.len_le
    cases hb : s.vec.buf with
    | none =>
      obtain ⟨s', hreserve, h', hroom, hset⟩ := reserve_unset junk h hb hfits
      exact ⟨0, s', fun fuel _ => hreserve fuel, h', hroom, by simp [hset, hn]⟩
    | some b =>
      obtain ⟨k, s', hreserve, h', hroom, hset⟩ := reserve_grow junk h hb hfits
      exact ⟨k, s', hreserve, h', hroom, by simp [hset]⟩

theorem push_spec (junk : Nat → Nat → UInt8) (h : Holds size align s xs) (helem : elem.length = size) :
    ∃ k s', (∀ fuel, k ≤ fuel → push .exact junk fuel s elem = .ok s') ∧ Holds size align s' (xs ++ [elem]) ∧
      s'.vec.buf ≠ none := by
  obtain ⟨k, s1, hreserve, h1, hroom, hbuf⟩ := reserve_spec junk h 1
  have hlen := h1.len
  cases hb : s1.vec.buf with
  | none => exact absurd (hbuf.1 hb).2 (by simp)
  | some b =>
    obtain ⟨hlast, hpos, data, howns, hdata, htake⟩ := h1.storage b hb
    have hle : xs.length * size ≤ data.length := h1.bytes_le hdata
    have hstore_le : xs.length * size + elem.length ≤ data.length := by
      rw [helem, hdata, ← Nat.succ_mul]
      exact Nat.mul_le_mul_right size (by omega)
    have hstore := store_eq (p := (b, xs.length * size)) howns hstore_le
    have hindex : index .exact s1.vec s1.vec.len = some (b, xs.length * size) := by
      rw [index, hb]
      simp only [h1.elemSize, exact_mul, hlen, ite_eq_right_iff]
      intro hgt
      omega
    refine ⟨k, ⟨{ s1.vec with len := s1.vec.len + 1 }, s1.heap.set b ⟨splice data (xs.length * size) elem, true⟩⟩,
      fun fuel hfuel => ?_, ?_, by simp [hb]⟩
    · have hfits : ¬elem.length < s1.vec.elemSize := by rw [helem, h1.elemSize]; exact Nat.lt_irrefl _
      have hall : elem.take s1.vec.elemSize = elem := by rw [h1.elemSize, ← helem, List.take_length]
      simp only [push, writePtr, hreserve fuel hfuel, bind, Except.bind, pure, Except.pure, hindex, if_neg hfits, hall,
        hstore, exact_add]
    · exact
        { size_pos := h.size_pos
          align_pos := h.align_pos
          elemSize := h1.elemSize
          elemAlign := h1.elemAlign
          len := by simp [hlen]
          sized := h.sized.append (.singleton helem)
          len_le := by simp only; omega
          unset := fun hb' => by simp [hb] at hb'
          storage := by
            intro b' hb'
            obtain rfl : b = b' := Option.some.inj (hb.symm.trans hb')
            refine ⟨by simpa using hlast, hpos, splice data (xs.length * size) elem, owns_set howns.lt, ?_, ?_⟩
            · rw [length_splice hstore_le, hdata]
            · exact take_push hle htake helem }

theorem pop_spec (h : Holds size align s (xs ++ [x])) :
    ∃ s', pop .exact size align s = .ok (s', x) ∧ Holds size align s' xs ∧ s'.vec.buf = s.vec.buf := by
  have hlen : s.vec.len = xs.length + 1 := by rw [h.len, List.length_append, List.length_singleton]
  have hlen_le := h.len_le
  obtain ⟨b, hb⟩ := h.buf_of_ne_nil (by simp)
  have hload := h.load_elem hb
  refine ⟨⟨{ s.vec with len := s.vec.len - 1 }, s.heap⟩, ?_, ?_, rfl⟩
  · have hasserts : ¬¬(size = s.vec.elemSize ∧ align = s.vec.elemAlign ∧ s.vec.len ≠ 0) :=
      fun hn => hn ⟨h.elemSize.symm, h.elemAlign.symm, by omega⟩
    have hptr : ¬(s.vec.buf = none ∨ s.vec.len = 0) := by simp [hb, hlen]
    have hindex : index .exact { s.vec with len := s.vec.len - 1 } (s.vec.len - 1) = some (b, xs.length * size) := by
      simp only [index, hb, h.elemSize, exact_mul, hlen, Nat.add_sub_cancel, ite_eq_right_iff]
      intro hgt
      omega
    simp only [pop, if_neg hasserts, popPtr, if_neg hptr, hindex, hload, bind, Except.bind, pure, Except.pure]
  · exact
      { size_pos := h.size_pos
        align_pos := h.align_pos
        elemSize := h.elemSize
        elemAlign := h.elemAlign
        len := by simp [hlen]
        sized := h.sized.of_append.1
        len_le := Nat.le_trans (Nat.sub_le _ _) hlen_le
        unset := h.unset
        storage := by
          intro b' hb'
          obtain ⟨hlast, hpos, data, howns, hdata, htake⟩ := h.storage b' hb'
          exact ⟨hlast, hpos, data, howns, hdata, take_chunks h.sized htake⟩ }

theorem pop_nil (h : Holds size align s []) : pop .exact size align s = .error .assertion := by
  have hlen : s.vec.len = 0 := h.len
  simp [pop, hlen, bind, Except.bind, throw, throwThe, MonadExceptOf.throw]

/-- What a call of `a3_vec_at` finds. -/
def Out.ofElem : Option (List UInt8) → Out
  | none => .null
  | some x => .elem x

theorem at_spec (h : Holds size align s xs) (i fuel : Nat) :
    exec .exact junk size align fuel s (.at' i) = .ok (s, .ofElem xs[i]?) := by
  have hlen := h.len
  by_cases hi : i < xs.length
  · have hxs : xs = xs.take i ++ xs[i] :: xs.drop (i + 1) := by simp
    have htake : (xs.take i).length = i := by simp; omega
    obtain ⟨b, hb⟩ := h.buf_of_ne_nil (List.ne_nil_of_length_pos (Nat.lt_of_le_of_lt (Nat.zero_le i) hi))
    rw [hxs] at h
    have hload := h.load_elem hb
    rw [htake] at hload
    have hat : ¬i ≥ s.vec.len := by omega
    simp only [exec, atPtr, if_neg hat, hb, h.elemSize, exact_mul, hload, bind, Except.bind, pure, Except.pure,
      List.getElem?_eq_getElem hi, Out.ofElem]
  · have hat : i ≥ s.vec.len := by omega
    simp only [exec, atPtr, if_pos hat, bind, Except.bind, pure, Except.pure, List.getElem?_eq_none (Nat.not_lt.1 hi),
      Out.ofElem]

end A3Vec
