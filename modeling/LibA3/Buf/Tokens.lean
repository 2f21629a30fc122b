import LibA3.Buf.Growable
import LibA3.Text.Runs

/-!
# Tokens

`a3_buf_token_next`, called again and again. A call overwrites only delimiters, with zeros, and only behind the token it
returns; so what is left is the rest of the contents, and the tokens it has returned stay what they were.

* `token_sequence` — the tokens are the maximal runs of bytes that are no delimiters, whatever the flags
-/

namespace A3Buf

open A3Str Fallible Mem Text

variable {env : Env} {b b' : A3Buffer} {delim : List UInt8}

/-- The calls in order, and the tokens they return. -/
def tokens (env : Env) (delim : List UInt8) : List Bool → A3Buffer → Except Fault (List (Nat × Nat) × A3Buffer)
  | [], b => pure ([], b)
  | preserveEnd :: flags, b => do
    let (tok, b) ← tokenNext env b delim preserveEnd
    let (toks, b) ← tokens env delim flags b
    pure (tok.toList ++ toks, b)

/-- The bytes a returned string addresses. -/
def slice (b : A3Buffer) (tok : Nat × Nat) : List UInt8 := window b.data.bytes tok.1 (tok.1 + tok.2)

/-! ## What is overwritten -/

/-- A byte that is not the same in both blocks is a delimiter in the first. -/
def Spared (delim xs ys : List UInt8) : Prop := ∀ i : Nat, ys[i]? = xs[i]? ∨ ∃ c ∈ delim, xs[i]? = some c

theorem Spared.refl (delim xs : List UInt8) : Spared delim xs xs := fun _ => Or.inl rfl

theorem Spared.trans {xs ys zs : List UInt8} (h : Spared delim xs ys) (h' : Spared delim ys zs) : Spared delim xs zs := by
  intro i
  rcases h i with heq | hdelim
  · have hi := h' i
    rwa [heq] at hi
  · exact Or.inr hdelim

/-- A range without delimiters stays what it is. -/
theorem Spared.window_eq {xs ys : List UInt8} {head tail : Nat} (h : Spared delim xs ys)
    (hnone : ∀ c ∈ window xs head tail, delim.contains c = false) : window ys head tail = window xs head tail := by
  apply List.ext_getElem?
  intro j
  rw [getElem?_window, getElem?_window]
  split
  · next hlt =>
    rcases h (head + j) with heq | ⟨c, hmem, hc⟩
    · exact heq
    · have hin : c ∈ window xs head tail := by
        refine List.mem_of_getElem? (i := j) ?_
        rw [getElem?_window, if_pos hlt, hc]
      have hno := hnone c hin
      rw [List.contains_iff_mem.2 hmem] at hno
      cases hno
  · rfl

/-! ## One call -/

/-- What a call of `a3_buf_token_next` does, besides what it leaves. -/
structure Tokenized (delim : List UInt8) (b : A3Buffer) (tok : Nat × Nat) (b' : A3Buffer) : Prop where
  sound : Sound b'
  store : SameStore b b'
  spared : Spared delim b.data.bytes b'.data.bytes
  slice_eq : slice b' tok = tokenOf delim (contents b)
  length_eq : tok.2 = (slice b' tok).length
  runs_eq : runs delim.contains (contents b') =
    runs delim.contains (((contents b).dropWhile delim.contains).dropWhile fun c => !delim.contains c)

theorem tokenOf_none {s : List UInt8} : ∀ c ∈ tokenOf delim s, delim.contains c = false := by
  intro c hc
  simpa using List.all_eq_true.1 List.all_takeWhile c hc

theorem tokenEnd_delim {preserveEnd : Bool} {s : List UInt8} : ∀ c ∈ tokenEnd delim preserveEnd s, c ∈ delim := by
  intro c hc
  unfold tokenEnd at hc
  split at hc
  · cases hc
  · exact List.contains_iff_mem.1 (List.all_eq_true.1 List.all_takeWhile c hc)

/-- The flag makes no difference to the tokens that are left. -/
theorem runs_tokenRest (preserveEnd : Bool) (s : List UInt8) : runs delim.contains (tokenRest delim preserveEnd s) =
    runs delim.contains ((s.dropWhile delim.contains).dropWhile fun c => !delim.contains c) := by
  cases preserveEnd with
  | true => rfl
  | false => exact runs_dropWhile

theorem tokenNext_tokenized (so : Sound b) (delim : List UInt8) (preserveEnd : Bool) :
    ∃ tok b', tokenNext env b delim preserveEnd = .ok (some tok, b') ∧ Tokenized delim b tok b' := by
  obtain ⟨b1, so1, hc1, hd1, _, htok⟩ : ∃ b1, Sound b1 ∧ _ := tokenNext_eq so delim preserveEnd
  obtain ⟨t, ht⟩ : ∃ t, t = tokenOf delim (contents b) := ⟨_, rfl⟩
  obtain ⟨e, he⟩ : ∃ e, e = tokenEnd delim preserveEnd (contents b) := ⟨_, rfl⟩
  rw [← ht, ← he] at hc1 htok
  obtain ⟨hle, so', hrest, hs'⟩ := so1.rest hc1 hd1
  have hsum : b1.head + size b1 = b1.tail := Nat.add_sub_cancel' so1.head_le
  have hblk : b1.tail ≤ b1.data.bytes.length := Nat.le_trans so1.tail_le so1.block
  have hfit : b1.head + t.length + (List.replicate e.length (0 : UInt8)).length ≤ b1.data.bytes.length := by
    rw [List.length_replicate]
    omega
  have hslice : slice (taken b1 t.length e.length) (b1.head, t.length) = t := by
    have hkeep : window (splice b1.data.bytes (b1.head + t.length) (List.replicate e.length 0)) b1.head
        (b1.head + t.length) = _ := window_splice_of_ge (Nat.le_refl _) (by omega)
    rw [slice, taken]
    simp only
    rw [hkeep, ← take_window (show b1.head + t.length ≤ b1.tail by omega), ← contents, hc1, List.take_left]
  refine ⟨_, _, htok, so', hs', ?_, hslice.trans ht, by rw [hslice], by rw [hrest, runs_tokenRest]⟩
  intro i
  rw [← hd1]
  by_cases hi : i < b1.head + t.length ∨ b1.head + t.length + (List.replicate e.length (0 : UInt8)).length ≤ i
  · exact Or.inl (getElem?_splice_of_not_mem hfit hi)
  · -- only delimiters are overwritten
    rw [List.length_replicate, not_or] at hi
    have hend : window b1.data.bytes (b1.head + t.length) (b1.head + t.length + e.length) = e := by
      rw [← take_window (show b1.head + t.length + e.length ≤ b1.tail by omega), ← drop_window, ← contents, hc1,
        List.drop_left, List.take_left]
    have hcell : (window b1.data.bytes (b1.head + t.length) (b1.head + t.length + e.length))[i - (b1.head + t.length)]? =
        e[i - (b1.head + t.length)]? := by rw [hend]
    rw [getElem?_window, if_pos (by omega), Nat.add_sub_cancel' (by omega)] at hcell
    have hlt : i - (b1.head + t.length) < e.length := by omega
    have hdelim : ∀ c ∈ e, c ∈ delim := by
      rw [he]
      exact tokenEnd_delim
    exact Or.inr ⟨e.get ⟨_, hlt⟩, hdelim _ (List.get_mem e _), hcell.trans (List.getElem?_eq_getElem hlt)⟩

/-! ## One call after the other -/

/-- The `i`-th token: the `i`-th run of the contents, and the empty token when there are no more. -/
def token (delim : List UInt8) (s : List UInt8) (i : Nat) : List UInt8 := (runs delim.contains s).getD i []

theorem Tokenized.token_zero {tok : Nat × Nat} (h : Tokenized delim b tok b') :
    token delim (contents b) 0 = slice b' tok := by
  rw [h.slice_eq]
  exact runs_first

theorem Tokenized.token_succ {tok : Nat × Nat} (h : Tokenized delim b tok b') (i : Nat) :
    token delim (contents b) (i + 1) = token delim (contents b') i := by
  rw [token, token, h.runs_eq]
  exact runs_rest i

theorem slice_spared {tok : Nat × Nat} (h : Spared delim b.data.bytes b'.data.bytes)
    (hnone : ∀ c ∈ slice b tok, delim.contains c = false) : slice b' tok = slice b tok :=
  h.window_eq hnone

/-- What any number of calls do. -/
structure Scanned (delim : List UInt8) (b : A3Buffer) (n : Nat) (toks : List (Nat × Nat)) (b' : A3Buffer) : Prop where
  sound : Sound b'
  store : SameStore b b'
  spared : Spared delim b.data.bytes b'.data.bytes
  slices_eq : toks.map (slice b') = (List.range n).map (token delim (contents b))
  lengths_eq : ∀ tok ∈ toks, tok.2 = (slice b' tok).length
  none_in : ∀ tok ∈ toks, ∀ c ∈ slice b' tok, delim.contains c = false

theorem tokens_scanned : ∀ (flags : List Bool) (b : A3Buffer), Sound b →
    ∃ toks b', tokens env delim flags b = .ok (toks, b') ∧ Scanned delim b flags.length toks b' := by
  intro flags
  induction flags with
  | nil =>
    intro b so
    exact ⟨[], b, rfl, so, SameStore.refl b, Spared.refl _ _, rfl, fun _ h => absurd h List.not_mem_nil,
      fun _ h => absurd h List.not_mem_nil⟩
  | cons preserveEnd flags ih =>
    intro b so
    obtain ⟨tok, b1, htok, h1⟩ : ∃ tok b1, tokenNext env b delim preserveEnd = .ok (some tok, b1) ∧ _ :=
      tokenNext_tokenized so delim preserveEnd
    obtain ⟨toks, b2, htoks, h2⟩ := ih b1 h1.sound
    have hnone : ∀ c ∈ slice b1 tok, delim.contains c = false := by
      rw [h1.slice_eq]
      exact tokenOf_none
    have hkept : slice b2 tok = slice b1 tok := slice_spared h2.spared hnone
    refine ⟨tok :: toks, b2, ?_, h2.sound, h1.store.trans h2.store, h1.spared.trans h2.spared, ?_, ?_, ?_⟩
    · rw [tokens, htok, ok_bind]
      simp only
      rw [htoks, ok_bind]
      rfl
    · rw [List.map_cons, h2.slices_eq, List.length_cons, List.range_succ_eq_map, List.map_cons, List.map_map,
        h1.token_zero, hkept]
      congr 1
      apply List.map_congr_left
      intro i _
      exact (h1.token_succ i).symm
    · intro t ht
      rcases List.mem_cons.1 ht with rfl | ht
      · rw [hkept]
        exact h1.length_eq
      · exact h2.lengths_eq t ht
    · intro t ht
      rcases List.mem_cons.1 ht with rfl | ht
      · rw [hkept]
        exact hnone
      · exact h2.none_in t ht

/-- **`a3_buf_token_next` again and again** (`buffer.c:135`). Whatever the flags, the calls return the maximal runs of bytes
that are no delimiters, in order, and then empty tokens; `head` stays within `tail`, only delimiters are overwritten,
and what was returned is still there after any further calls. -/
theorem token_sequence (so : Sound b) (delim : List UInt8) (flags later : List Bool) :
    ∃ toks b1 more b2, tokens env delim flags b = .ok (toks, b1) ∧ tokens env delim later b1 = .ok (more, b2) ∧
      toks.map (slice b1) = (List.range flags.length).map (token delim (contents b)) ∧
      (∀ tok ∈ toks, tok.2 = (slice b1 tok).length) ∧ toks.map (slice b2) = toks.map (slice b1) ∧
      b1.head ≤ b1.tail ∧ b1.data.ptr = b.data.ptr ∧
      ∀ i : Nat, b1.data.bytes[i]? ≠ b.data.bytes[i]? → ∃ c ∈ delim, b.data.bytes[i]? = some c := by
  obtain ⟨toks, b1, htoks, h1⟩ : ∃ toks b1, tokens env delim flags b = .ok (toks, b1) ∧ _ := tokens_scanned flags b so
  obtain ⟨more, b2, hmore, h2⟩ : ∃ more b2, tokens env delim later b1 = .ok (more, b2) ∧ _ :=
    tokens_scanned later b1 h1.sound
  refine ⟨toks, b1, more, b2, htoks, hmore, h1.slices_eq, h1.lengths_eq, ?_, h1.sound.head_le, h1.store.ptr,
    fun i hne => (h1.spared i).resolve_left hne⟩
  apply List.map_congr_left
  intro tok htok
  exact slice_spared h2.spared (h1.none_in tok htok)

/-- Two tokens among spaces, one taken with its space. -/
theorem token_sequence_two : ∃ toks b1 more b2,
    tokens demo [32] [false, true, true] ⟨⟨4096, 6, [32, 97, 32, 32, 98, 99, 0]⟩, 6, 0, 6⟩ = .ok (toks, b1) ∧
      tokens demo [32] [false] b1 = .ok (more, b2) ∧
      toks.map (slice b1) = (List.range 3).map (token [32] [32, 97, 32, 32, 98, 99]) ∧
      (∀ tok ∈ toks, tok.2 = (slice b1 tok).length) ∧ toks.map (slice b2) = toks.map (slice b1) ∧
      b1.head ≤ b1.tail ∧ b1.data.ptr = 4096 ∧
      ∀ i : Nat, b1.data.bytes[i]? ≠ [32, 97, 32, 32, 98, 99, 0][i]? →
        ∃ c ∈ ([32] : List UInt8), [32, 97, 32, 32, 98, 99, 0][i]? = some c :=
  token_sequence ⟨by decide, by decide, by decide, by decide, by decide, by decide⟩ [32] [false, true, true] [false]

example : (List.range 3).map (token [32] [32, 97, 32, 32, 98, 99]) = [[97], [98, 99], []] := by decide

end A3Buf
