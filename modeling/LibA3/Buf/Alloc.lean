import LibA3.Buf.Spec

/-!
# Reallocations that fail

`a3_string_realloc` stores its NUL through what `realloc` answers before anybody looks at it. So where `realloc`
answers `NULL`, `a3_buf_ensure_cap` does not return (`ensureCap_null`), and where it returns after enlarging the
block the reallocation has succeeded (`ensureCap_fails`).
-/

namespace A3Buf

open A3Str Fallible

variable {env : Env} {b b' : A3Buffer} {n : Nat}

/-- `realloc` refuses what no object can be as large as. -/
def ReallocBounded (env : Env) : Prop := ∀ n, env.realloc n ≠ 0 → n ≤ ptrdiffMax

/-- A program whose allocations succeed up to `PTRDIFF_MAX` bytes. -/
def roomy : Env := ⟨true, fun _ => 4096, fun n => if n ≤ ptrdiffMax then 8192 else 0, fun _ => 0, true⟩

theorem roomy_bounded : ReallocBounded roomy := by
  intro n h
  by_contra hle
  exact h (if_neg hle)

/-- `a3_buf_ensure_cap(n)` comes to its reallocation, and that fails. -/
def ReallocFails (env : Env) (b : A3Buffer) (n : Nat) : Prop :=
  Grows b n ∧ ∃ newCap, growLoop 65 (max (max b.data.len 8) b.maxCap) (sz (b.data.len + n)) = .ok newCap ∧
    env.realloc (sz (min newCap b.maxCap + 1)) = 0

theorem stringRealloc_null {this : A3String} {newLen : Nat} (h : env.realloc (sz (newLen + 1)) = 0) :
    stringRealloc env this newLen = .error .nullDeref := by
  unfold stringRealloc A3String.store
  simp only
  rw [if_pos h]
  rfl

/-- **`a3_string_realloc` (`str.c:28`)** of a block that cannot be had -/
theorem ensureCap_null (so : Sound b) (h : ReallocFails env b n) : ensureCap env b n = .error .nullDeref := by
  obtain ⟨hg, newCap, hloop, hnull⟩ := h
  have hrealloc : stringRealloc env b.data (min newCap b.maxCap) = .error .nullDeref := stringRealloc_null hnull
  rw [ensureCap_grows so hg, growTo, settle_data, settle_maxCap, hloop, ok_bind, hrealloc]
  rfl

/-! ## What a reallocation that succeeds was asked for -/

theorem growLoop_le {needed : Nat} : ∀ {fuel newCap c : Nat}, growLoop fuel newCap needed = .ok c →
    needed ≤ c ∧ (needed ≤ newCap → c = newCap) := by
  intro fuel
  induction fuel with
  | zero =>
    intro newCap c h
    cases h
  | succ fuel ih =>
    intro newCap c h
    rw [growLoop] at h
    split at h
    · next hlt => exact ⟨(ih h).1, fun hle => absurd hlt (Nat.not_lt.2 hle)⟩
    · next hle =>
      cases h
      exact ⟨Nat.le_of_not_lt hle, fun _ => rfl⟩

theorem stringRealloc_fails {this : A3String} {newLen : Nat} (hre : ReallocBounded env) (hlt : newLen < 2 ^ 64)
    (hno : ¬(newLen + 1 ≤ ptrdiffMax ∧ env.realloc (newLen + 1) ≠ 0)) : ∃ f, stringRealloc env this newLen = .error f := by
  by_cases hnull : env.realloc (sz (newLen + 1)) = 0
  · exact ⟨_, stringRealloc_null hnull⟩
  · have hobj := hre _ hnull
    by_cases hwrap : newLen + 1 < 2 ^ 64
    · rw [sz_eq hwrap] at hobj hnull
      exact absurd ⟨hobj, hnull⟩ hno
    · -- the size wrapped to 0, and the NUL is stored outside the block
      have hzero : sz (newLen + 1) = 0 := by
        rw [show newLen + 1 = 2 ^ 64 by omega]
        rfl
      refine ⟨.outOfBounds, ?_⟩
      unfold stringRealloc A3String.store
      simp only
      rw [if_neg hnull, length_resize, hzero, if_neg (by omega)]
      rfl

/-- Where the block has to be enlarged and cannot be, `a3_buf_ensure_cap` does not return. -/
theorem ensureCap_fails (so : Sound b) (hre : ReallocBounded env) (hg : Grows b n) (hlt : b.data.len + n < 2 ^ 64)
    (hno : ¬CanGrow env b) : ∃ f, ensureCap env b n = .error f := by
  rw [ensureCap_grows so hg, growTo, settle_data, settle_maxCap, sz_eq hlt]
  cases hloop : growLoop 65 (max (max b.data.len 8) b.maxCap) (b.data.len + n) with
  | error f => exact ⟨f, rfl⟩
  | ok newCap =>
    -- the loop starts at `max_cap` at least, and only goes on below what is needed
    obtain ⟨hneeded, hstart⟩ := growLoop_le hloop
    have hmax : b.maxCap ≤ newCap := by
      by_cases hle : b.data.len + n ≤ max (max b.data.len 8) b.maxCap
      · rw [hstart hle]
        exact Nat.le_max_right _ _
      · omega
    obtain ⟨f, hf⟩ : ∃ f, stringRealloc env b.data b.maxCap = .error f := stringRealloc_fails hre so.max_lt hno
    refine ⟨f, ?_⟩
    rw [ok_bind, Nat.min_eq_right hmax, hf]
    rfl

end A3Buf
