import LibA3.Buf.Read

/-!
# With and without `memmem`

Where the C library has no `memmem`, an occurrence of the needle that is the first and ends at the last byte is not
found, and all that is built on it tells the two platforms apart by that (`same_iff`): `a3_buf_consume` only where the
needle is all there is (`consume_agrees`).
-/

namespace A3Buf

open A3Str Fallible Mem Text

variable {env : Env} {b : A3Buffer} {needle : A3CString} {haystack : List UInt8}

theorem stringMemmem_agrees {hay : A3String} {off n : Nat} (hp : hay.ptr ≠ 0) (hfit : off + n ≤ hay.bytes.length)
    (hne : needle.bytes ≠ []) :
    stringMemmem (fallback env) hay off n needle = stringMemmem (native env) hay off n needle ↔
      ¬OnlyAtEnd needle.bytes (window hay.bytes off (off + n)) := by
  rw [stringMemmem_eq hp hfit hne, stringMemmem_eq hp hfit hne, Except.ok.injEq]
  exact shimMemmem_agrees hne

theorem bufMemmem_agrees (so : Sound b) (hne : needle.bytes ≠ []) :
    bufMemmem (fallback env) b needle = bufMemmem (native env) b needle ↔ ¬OnlyAtEnd needle.bytes (contents b) := by
  have hinj : Function.Injective (Option.map (b.head + ·)) :=
    Option.map_injective fun _ _ h => Nat.add_left_cancel h
  rw [bufMemmem_eq so needle hne, bufMemmem_eq so needle hne, Except.ok.injEq, hinj.eq_iff]
  exact shimMemmem_agrees hne

/-! ## `a3_buf_consume` -/

theorem startsWith_native (hne : needle.bytes ≠ []) :
    startsWith (native env) haystack needle.bytes ↔ needle.bytes <+: haystack := by
  have hfound := memmem_found haystack hne
  constructor
  · rintro ⟨-, h⟩
    rw [shimMemmem_native] at h
    rw [h] at hfound
    exact occursAt_zero.1 hfound.1
  · intro h
    exact ⟨h.length_le, hfound.unique (Found.here h)⟩

theorem startsWith_fallback (hne : needle.bytes ≠ []) :
    startsWith (fallback env) haystack needle.bytes ↔ needle.bytes <+: haystack ∧ needle.bytes ≠ haystack := by
  have hfound := memmem_found haystack hne
  rw [startsWith, shimMemmem_fallback hne, Option.filter_eq_some_iff, decide_eq_true_iff, Nat.zero_add]
  constructor
  · rintro ⟨-, h, hlt⟩
    rw [h] at hfound
    refine ⟨occursAt_zero.1 hfound.1, ?_⟩
    rintro rfl
    exact absurd hlt (Nat.lt_irrefl _)
  · rintro ⟨h, hall⟩
    have hlt : needle.bytes.length < haystack.length :=
      Nat.lt_of_le_of_ne h.length_le fun heq => hall (h.eq_of_length heq)
    exact ⟨h.length_le, hfound.unique (Found.here h), hlt⟩

/-- `a3_buf_consume` looks at the front, and so misses a needle only where there is nothing behind it. -/
theorem consume_agrees (so : Sound b) (hne : needle.bytes ≠ []) :
    consume (fallback env) b needle = consume (native env) b needle ↔ needle.bytes ≠ contents b := by
  rw [consume_eq so needle hne, consume_eq so needle hne, Except.ok.injEq]
  simp only [startsWith_native hne, startsWith_fallback hne]
  by_cases hpre : needle.bytes <+: contents b
  · by_cases hall : needle.bytes = contents b
    · rw [if_neg fun h => h.2 hall, if_pos hpre]
      exact iff_of_false (fun h => by cases h) (not_not_intro hall)
    · rw [if_pos ⟨hpre, hall⟩, if_pos hpre]
      exact iff_of_true rfl hall
  · have hall : needle.bytes ≠ contents b := fun h => hpre (h ▸ List.prefix_rfl)
    rw [if_neg fun h => hpre h.1, if_neg hpre]
    exact iff_of_true rfl hall

/-! ## All together -/

/-- The fallback answers for `needle` in `haystack` as `memmem` does, with the first occurrence, and so do those that
are built on it wherever the bytes are. -/
structure Same (env : Env) (needle : A3CString) (haystack : List UInt8) : Prop where
  first : Found needle.bytes haystack (shimMemmem (fallback env) haystack needle.bytes)
  shim : shimMemmem (fallback env) haystack needle.bytes = shimMemmem (native env) haystack needle.bytes
  string : ∀ (hay : A3String) (off n : Nat), hay.ptr ≠ 0 → off + n ≤ hay.bytes.length →
    window hay.bytes off (off + n) = haystack →
    stringMemmem (fallback env) hay off n needle = stringMemmem (native env) hay off n needle
  buf : ∀ b, Sound b → contents b = haystack → bufMemmem (fallback env) b needle = bufMemmem (native env) b needle
  consume : ∀ b, Sound b → contents b = haystack → consume (fallback env) b needle = consume (native env) b needle

/-- **The fallback replaces `memmem` unless the first occurrence ends at the last byte.** -/
theorem same_iff (hne : needle.bytes ≠ []) : Same env needle haystack ↔ ¬OnlyAtEnd needle.bytes haystack := by
  constructor
  · exact fun h => (missing_found_iff hne).1 h.first
  · intro hend
    refine ⟨(missing_found_iff hne).2 hend, (shimMemmem_agrees hne).2 hend, ?_, ?_, ?_⟩
    · rintro hay off n hp hfit rfl
      exact (stringMemmem_agrees hp hfit hne).2 hend
    · rintro b so rfl
      exact (bufMemmem_agrees so hne).2 hend
    · rintro b so rfl
      have hall : needle.bytes ≠ contents b := by
        intro h
        have hhere : Found needle.bytes (contents b) (some 0) := Found.here (h ▸ List.prefix_rfl)
        exact hend ((onlyAtEnd_zero hhere).2 h)
      exact (consume_agrees so hne).2 hall

/-- `"ab"` in `"abab"`: the occurrence at the end is not the first. -/
theorem same_iff_abab : Same hosted (literal [97, 98]) [97, 98, 97, 98] := by
  refine (same_iff (List.cons_ne_nil _ _)).2 ?_
  rintro ⟨i, hi, hend⟩
  have hhere : Found [97, 98] ([97, 98, 97, 98] : List UInt8) (some 0) := Found.here ⟨[97, 98], rfl⟩
  cases hhere.unique hi
  exact absurd hend (by decide)

/-- `"ab"` in `"ab"` -/
theorem same_all_of_it : ¬∀ (env : Env) (needle : A3CString) (haystack : List UInt8), needle.bytes ≠ [] →
    Same env needle haystack := by
  intro h
  have hshim := (h hosted (literal [97, 98]) [97, 98] (List.cons_ne_nil _ _)).shim
  exact absurd hshim (by decide)

end A3Buf
