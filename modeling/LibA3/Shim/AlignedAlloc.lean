import LibA3.Fallible
import LibA3.Mem.Owned
import LibA3.Pool.Align
import LibA3.Trans

/-!
# `aligned_alloc`, or `malloc` (`shim/aligned_alloc/aligned_alloc.c`)

Where `aligned_alloc` answers `NULL`, `a3_shim_aligned_alloc` asks `malloc` for a block that is larger by the alignment, and
rounds its address up. What `a3_shim_aligned_free` is given then is that of the object, which need not be the block's.

| here | there |
| --- | --- |
| `Env`         | what `aligned_alloc` and `malloc` answer, 0 for `NULL`, and what is in a new block |
| `alignedAlloc` | `a3_shim_aligned_alloc` (`aligned_alloc.c:17`) |
| `alignedFree` | `a3_shim_aligned_free` (`aligned_alloc.c:32`) |
| `Result`      | an object that was allocated and has not been freed |

* `aligned_inside` — objects are aligned and apart, each in a block of its own, and which of them can be freed
-/

namespace A3Shim

open A3Pool Fallible Mem Trans

inductive Fault where
  | assertion
  /-- `free` of what is the address of no block -/
  | invalidFree
deriving DecidableEq, Repr

structure Env where
  asserts : Bool
  alignedAlloc : Nat → Nat → Nat
  malloc : Nat → Nat
  junk : Nat → UInt8

abbrev Blocks := Nat → Option (List UInt8)

def check (env : Env) (c : Bool) : Except Fault Unit := if env.asserts && !c then .error .assertion else .ok ()

/-- The block of `n` bytes at `ptr`, unless that is `NULL`. -/
def allocated (env : Env) (blocks : Blocks) (ptr n : Nat) : Blocks :=
  if ptr = 0 then blocks else Function.update blocks ptr (some ((List.range n).map env.junk))

def alignedAlloc (env : Env) (blocks : Blocks) (size align : Nat) : Except Fault (Blocks × Nat) := do
  check env (size > 0)
  check env (align > 0)
  let ret := env.alignedAlloc align size
  if ret ≠ 0 then pure (allocated env blocks ret size, ret)
  else
    let ret := env.malloc (wrap (size + align))
    pure (allocated env blocks ret (wrap (size + align)), alignUp ret align)

def alignedFree (env : Env) (blocks : Blocks) (ptr : Nat) : Except Fault Blocks := do
  check env (ptr ≠ 0)
  match blocks ptr with
  | some _ => .ok (Function.update blocks ptr none)
  | none => if ptr = 0 then .ok blocks else .error .invalidFree

/-! ## Calls -/

inductive Call where
  | alloc (size align : Nat)
  | free (ptr : Nat)

def exec (env : Env) (blocks : Blocks) : Call → Except Fault (Blocks × Nat)
  | .alloc size align => alignedAlloc env blocks size align
  | .free ptr => do return (← alignedFree env blocks ptr, 0)

structure Result where
  ptr : Nat
  size : Nat
  align : Nat

structure World where
  blocks : Blocks
  results : List Result

def nextResults (v : World) : Call → Nat → List Result
  | .alloc size align, out => if out = 0 then v.results else ⟨out, size, align⟩ :: v.results
  | .free ptr, _ => v.results.filter fun r => r.ptr ≠ ptr

/-- Alignments are powers of two, and what is freed is an object. -/
def Legal (v : World) : Call → Prop
  | .alloc size align => 0 < size ∧ size + align < 2 ^ 64 ∧ ∃ k, align = 2 ^ k
  | .free ptr => ∃ r ∈ v.results, r.ptr = ptr

/-- The allocator answers `NULL`, or where there is room beside the allocated blocks, aligned if it is asked for that. -/
structure Answers (env : Env) (blocks : Blocks) : Prop where
  alignedAlloc : ∀ align size, env.alignedAlloc align size ≠ 0 →
    align ∣ env.alignedAlloc align size ∧ Room blocks (env.alignedAlloc align size) size
  malloc : ∀ n, env.malloc n ≠ 0 → env.malloc n + n ≤ 2 ^ 64 ∧ Room blocks (env.malloc n) n

def Step (v : World) (a : Call × Nat) (v' : World) : Prop :=
  ∃ env, Answers env v.blocks ∧ Legal v a.1 ∧ exec env v.blocks a.1 = .ok (v'.blocks, a.2) ∧
    v'.results = nextResults v a.1 a.2

/-! ## Objects in their blocks -/

variable {env : Env} {v v' : World} {blocks : Blocks} {holds : Nat → Option (Nat × List UInt8)} {p size align k : Nat}
  {bs : List UInt8} {r : Result}

/-- The object is aligned, and inside of the block at `p`, whose address it is if that is aligned. -/
structure Placed (r : Result) (p : Nat) (bs : List UInt8) : Prop where
  nonnull : r.ptr ≠ 0
  nonempty : 0 < r.size
  rounded : r.ptr = roundUp p r.align
  aligned : r.align ∣ r.ptr
  from_block : p ≤ r.ptr
  to_block : r.ptr + r.size ≤ p + bs.length

/-- Each object has a block to itself, and there are no other blocks. -/
structure Inv (v : World) (holds : Nat → Option (Nat × List UInt8)) : Prop where
  owned : Owned v.blocks holds
  placed : ∀ r ∈ v.results, ∃ p bs, holds r.ptr = some (p, bs) ∧ Placed r p bs
  object : ∀ ptr block, holds ptr = some block → ∃ r ∈ v.results, r.ptr = ptr
  apart : v.results.Pairwise fun r r' => r.ptr ≠ r'.ptr

theorem check_true {c : Bool} (h : c = true) : check env c = .ok () := by
  rw [check, h, Bool.not_true, Bool.and_false]
  rfl

/-- What `a3_shim_aligned_alloc` returns: `NULL`, or an object in a block that the allocator has made. -/
theorem alloc_placed (hans : Answers env blocks) (hsize : 0 < size) (hfit : size + 2 ^ k < 2 ^ 64) :
    ∃ p n ret, alignedAlloc env blocks size (2 ^ k) = .ok (allocated env blocks p n, ret) ∧
      (p = 0 ∧ ret = 0 ∨ p ≠ 0 ∧ Room blocks p n ∧ Placed ⟨ret, size, 2 ^ k⟩ p ((List.range n).map env.junk)) := by
  have hpos : 0 < 2 ^ k := Nat.two_pow_pos k
  rw [alignedAlloc, check_true (decide_eq_true hsize), ok_bind, check_true (decide_eq_true hpos), ok_bind]
  by_cases hret : env.alignedAlloc (2 ^ k) size = 0
  · rw [if_neg (not_not_intro hret), wrap_eq hfit]
    refine ⟨_, _, _, rfl, ?_⟩
    by_cases hp : env.malloc (size + 2 ^ k) = 0
    · refine Or.inl ⟨hp, ?_⟩
      rw [hp, alignUp_eq_roundUp (by omega), roundUp_eq hpos (Nat.dvd_zero _)]
    · obtain ⟨hspace, hroom⟩ := hans.malloc _ hp
      have hround : alignUp (env.malloc (size + 2 ^ k)) (2 ^ k) = roundUp (env.malloc (size + 2 ^ k)) (2 ^ k) :=
        alignUp_eq_roundUp (by omega)
      have hle := le_roundUp hpos (env.malloc (size + 2 ^ k))
      have hlt : roundUp (env.malloc (size + 2 ^ k)) (2 ^ k) ≤ env.malloc (size + 2 ^ k) + 2 ^ k := by
        have hmask := sub_mask_eq_roundUp (env.malloc (size + 2 ^ k)) k
        omega
      refine Or.inr ⟨hp, hroom, ?_⟩
      exact {
        nonnull := by simp only [hround]; omega
        nonempty := hsize
        rounded := hround
        aligned := by simp only [hround]; exact dvd_roundUp _ _
        from_block := by simp only [hround]; exact hle
        to_block := by
          simp only [hround, List.length_map, List.length_range]
          omega }
  · obtain ⟨hdvd, hroom⟩ := hans.alignedAlloc _ _ hret
    rw [if_pos hret]
    refine ⟨_, _, _, rfl, Or.inr ⟨hret, hroom, ?_⟩⟩
    exact {
      nonnull := hret
      nonempty := hsize
      rounded := (roundUp_eq hpos hdvd).symm
      aligned := hdvd
      from_block := Nat.le_refl _
      to_block := by simp }

/-- Two objects in blocks that are apart. -/
theorem Placed.apart {r' : Result} {p' : Nat} {bs' : List UInt8} (h : Placed r p bs) (h' : Placed r' p' bs')
    (hapart : p + bs.length ≤ p' ∨ p' + bs'.length ≤ p) : r.ptr + r.size ≤ r'.ptr ∨ r'.ptr + r'.size ≤ r.ptr := by
  have h1 := h.from_block
  have h2 := h.to_block
  have h3 := h'.from_block
  have h4 := h'.to_block
  omega

theorem Inv.alloc {ret n : Nat} (h : Inv v holds) (hp : p ≠ 0) (hroom : Room v.blocks p n)
    (hplaced : Placed ⟨ret, size, align⟩ p ((List.range n).map env.junk)) :
    Inv ⟨allocated env v.blocks p n, ⟨ret, size, align⟩ :: v.results⟩
      (Function.update holds ret (some (p, (List.range n).map env.junk))) := by
  have hlen : ((List.range n).map env.junk).length = n := by simp
  have hpos := hplaced.nonempty
  have hto := hplaced.to_block
  have hfrom := hplaced.from_block
  have hbs : (List.range n).map env.junk ≠ [] := by
    rw [← List.length_pos_iff]
    simp only at hto hpos hfrom
    omega
  -- an object at the same address would be in a block that overlaps the new one
  have hother : ∀ r ∈ v.results, r.ptr ≠ ret := by
    intro r hr heq
    obtain ⟨q, cs, hq, hin⟩ := h.placed r hr
    have hbetween := hroom q cs (h.owned.found _ _ _ hq)
    have hapart := hplaced.apart hin (by rw [hlen]; exact hbetween)
    have hsize := hin.nonempty
    simp only at hapart hpos
    omega
  have hfresh : holds ret = none := by
    cases hret : holds ret with
    | none => rfl
    | some block =>
      obtain ⟨r, hr, hptr⟩ := h.object ret block hret
      exact (hother r hr hptr).elim
  exact {
    owned := by
      rw [allocated, if_neg hp]
      exact h.owned.place hfresh (by rw [hlen]; exact hroom) hbs
    placed := fun r hr => by
      rcases List.mem_cons.1 hr with rfl | hr
      · exact ⟨_, _, Function.update_self _ _ _, hplaced⟩
      · obtain ⟨q, cs, hq, hin⟩ := h.placed r hr
        exact ⟨q, cs, by rw [Function.update_of_ne (hother r hr), hq], hin⟩
    object := fun ptr block hptr => by
      by_cases heq : ptr = ret
      · exact ⟨_, List.mem_cons_self, heq.symm⟩
      · rw [Function.update_of_ne heq] at hptr
        obtain ⟨r, hr, hrp⟩ := h.object ptr block hptr
        exact ⟨r, List.mem_cons_of_mem _ hr, hrp⟩
    apart := List.pairwise_cons.2 ⟨fun r hr => (hother r hr).symm, h.apart⟩ }

/-- An object whose block is not at its address is at the address of no block. -/
theorem Inv.block_at (h : Inv v holds) (hholds : holds r.ptr = some (p, bs)) (hplaced : Placed r p bs) :
    v.blocks r.ptr = if p = r.ptr then some bs else none := by
  have hfound := h.owned.found _ _ _ hholds
  by_cases hp : p = r.ptr
  · rw [if_pos hp, ← hp, hfound]
  · rw [if_neg hp]
    cases hat : v.blocks r.ptr with
    | none => rfl
    | some cs =>
      have hapart := h.owned.apart _ _ _ _ hp hfound hat
      have hcs : 0 < cs.length := List.length_pos_iff.2 (h.owned.nonempty _ _ hat)
      have h1 := hplaced.from_block
      have h2 := hplaced.to_block
      have h3 := hplaced.nonempty
      omega

theorem Placed.at_block_iff (h : Placed r p bs) : p = r.ptr ↔ r.align ∣ p := by
  have halign : 0 < r.align := Nat.pos_of_dvd_of_pos h.aligned (Nat.pos_of_ne_zero h.nonnull)
  constructor
  · intro hp
    rw [hp]
    exact h.aligned
  · intro hdvd
    rw [h.rounded, roundUp_eq halign hdvd]

theorem Inv.free_iff (h : Inv v holds) (hholds : holds r.ptr = some (p, bs)) (hplaced : Placed r p bs) :
    (∃ blocks, alignedFree env v.blocks r.ptr = .ok blocks) ↔ p = r.ptr := by
  rw [alignedFree, check_true (decide_eq_true hplaced.nonnull), ok_bind, h.block_at hholds hplaced]
  by_cases hp : p = r.ptr
  · simp [hp]
  · simp [hp, hplaced.nonnull]

theorem Inv.free (h : Inv v holds) (hr : r ∈ v.results) (hfree : alignedFree env v.blocks r.ptr = .ok blocks) :
    Inv ⟨blocks, v.results.filter fun r' => r'.ptr ≠ r.ptr⟩ (Function.update holds r.ptr none) := by
  obtain ⟨p, bs, hholds, hplaced⟩ := h.placed r hr
  have hp : p = r.ptr := (h.free_iff hholds hplaced).1 ⟨_, hfree⟩
  rw [alignedFree, check_true (decide_eq_true hplaced.nonnull), ok_bind, h.block_at hholds hplaced, if_pos hp] at hfree
  cases hfree
  exact {
    owned := by
      have hdrop := h.owned.drop hholds
      rwa [hp] at hdrop
    placed := fun r' hr' => by
      obtain ⟨hmem, hne⟩ := List.mem_filter.1 hr'
      obtain ⟨q, cs, hq, hin⟩ := h.placed r' hmem
      exact ⟨q, cs, by rw [Function.update_of_ne (by simpa using hne), hq], hin⟩
    object := fun ptr block hptr => by
      have hne : ptr ≠ r.ptr := by
        rintro rfl
        simp at hptr
      rw [Function.update_of_ne hne] at hptr
      obtain ⟨r', hr', heq⟩ := h.object ptr block hptr
      exact ⟨r', List.mem_filter.2 ⟨hr', by simpa [heq] using hne⟩, heq⟩
    apart := h.apart.filter _ }

/-! ## Runs -/

theorem Inv.step {a : Call × Nat} (h : Inv v holds) (hstep : Step v a v') : ∃ holds', Inv v' holds' := by
  obtain ⟨env, hans, hlegal, hexec, hresults⟩ := hstep
  obtain ⟨call, out⟩ := a
  obtain ⟨blocks', results'⟩ := v'
  simp only at hexec hresults
  subst hresults
  cases call with
  | alloc size align =>
    obtain ⟨hsize, hfit, k, rfl⟩ := hlegal
    obtain ⟨p, n, ret, halloc, hcases⟩ := alloc_placed hans hsize hfit
    obtain ⟨rfl, rfl⟩ := Prod.mk.inj (Except.ok.inj (halloc.symm.trans hexec))
    rcases hcases with ⟨rfl, rfl⟩ | ⟨hp, hroom, hplaced⟩
    · exact ⟨holds, h⟩
    · have hnext : nextResults v (.alloc size (2 ^ k)) ret = ⟨ret, size, 2 ^ k⟩ :: v.results := if_neg hplaced.nonnull
      rw [hnext]
      exact ⟨_, h.alloc hp hroom hplaced⟩
  | free ptr =>
    obtain ⟨r, hr, rfl⟩ := hlegal
    obtain ⟨blocks', hfree, hret⟩ := bind_ok hexec
    cases hret
    exact ⟨_, h.free hr hfree⟩

def start : World := ⟨fun _ => none, []⟩

theorem inv_start : Inv start fun _ => none := ⟨Owned.empty, nofun, nofun, .nil⟩

/-- **Objects are aligned, and inside of their blocks.** Whatever the calls: each object that has been allocated and not freed has
a block to itself, objects have no byte in common, and there are no blocks without one; an object lies at the address of
its block rounded up to its alignment. `a3_shim_aligned_free` can free it exactly if the block is aligned. -/
theorem aligned_inside {calls : List (Call × Nat)} (hrun : Run Step start calls v) :
    ∃ holds, Inv v holds ∧ (v.results.Pairwise fun r r' => r.ptr + r.size ≤ r'.ptr ∨ r'.ptr + r'.size ≤ r.ptr) ∧
      ∀ r ∈ v.results, ∃ p bs, holds r.ptr = some (p, bs) ∧
        ∀ env, (∃ blocks, alignedFree env v.blocks r.ptr = .ok blocks) ↔ r.align ∣ p := by
  obtain ⟨holds, h⟩ := hrun.invariant (P := fun v => ∃ holds, Inv v holds) (fun _ _ _ ⟨_, h⟩ hs => h.step hs) ⟨_, inv_start⟩
  refine ⟨holds, h, ?_, fun r hr => ?_⟩
  · refine h.apart.imp_of_mem fun {r r'} hr hr' hne => ?_
    obtain ⟨p, bs, hholds, hplaced⟩ := h.placed r hr
    obtain ⟨p', bs', hholds', hplaced'⟩ := h.placed r' hr'
    exact hplaced.apart hplaced' (h.owned.apart _ _ _ _ (h.owned.other hholds' hholds hne)
      (h.owned.found _ _ _ hholds) (h.owned.found _ _ _ hholds'))
  · obtain ⟨p, bs, hholds, hplaced⟩ := h.placed r hr
    exact ⟨p, bs, hholds, fun env => (h.free_iff hholds hplaced).trans hplaced.at_block_iff⟩

/-- `malloc` answers 4100. -/
def oddly : Env := ⟨true, fun _ _ => 0, fun n => if n ≤ 4096 then 4100 else 0, fun _ => 0⟩

/-- Eight bytes, aligned to 16, behind the address that `malloc` has answered -/
theorem aligned_inside_eight : ∃ v holds, v.results = [⟨4112, 8, 16⟩] ∧ Inv v holds ∧
    (v.results.Pairwise fun r r' => r.ptr + r.size ≤ r'.ptr ∨ r'.ptr + r'.size ≤ r.ptr) ∧
      ∀ r ∈ v.results, ∃ p bs, holds r.ptr = some (p, bs) ∧
        ∀ env, (∃ blocks, alignedFree env v.blocks r.ptr = .ok blocks) ↔ r.align ∣ p := by
  have hans : Answers oddly start.blocks := by
    refine ⟨fun _ _ h => absurd rfl h, fun n hn => ?_⟩
    have hle : n ≤ 4096 := by
      by_contra hgt
      exact hn (if_neg hgt)
    have hmalloc : oddly.malloc n = 4100 := if_pos hle
    refine ⟨by rw [hmalloc]; omega, fun q bs hq => ?_⟩
    simp [start] at hq
  have hstep : Step start (.alloc 8 16, 4112) ⟨allocated oddly start.blocks 4100 24, [⟨4112, 8, 16⟩]⟩ :=
    ⟨oddly, hans, ⟨by decide, by decide, 4, rfl⟩, rfl, rfl⟩
  obtain ⟨holds, h⟩ := aligned_inside (.single hstep)
  exact ⟨_, holds, rfl, h⟩

end A3Shim
