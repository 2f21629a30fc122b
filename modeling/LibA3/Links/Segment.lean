import Mathlib.Data.List.Nodup
import Mathlib.Logic.Function.Basic

/-!
# Linked segments

Nodes linked through cells: each node has a cell of its own (`cell`), and a cell holds what `read` says, the target
`node x` for a link to `x`. `Seg` follows the links forwards, `Back` says that each target knows the cell that links
to it. Inserting a node writes its own cell and the cell before it, removing one writes the cell before it;
everything else about a segment is unchanged.

Cells, nodes and targets are any types: a target may be a null pointer, a sentinel or a node, a cell a variable or
a field of a node.
-/

namespace Links

section Segments
variable {C N T : Type} (cell : N → C) (node : N → T)

/-- From cell `c` on the nodes `xs` are linked, and the last cell holds `t`. -/
def Seg (read : C → T) : C → List N → T → Prop
  | c, [], t => read c = t
  | c, x :: xs, t => read c = node x ∧ Seg read (cell x) xs t

/-- The targets from cell `c` on, `t` being the last, know the cell that links to them. -/
def Back (prev : T → C) : C → List N → T → Prop
  | c, [], t => prev t = c
  | c, x :: xs, t => prev (node x) = c ∧ Back prev (cell x) xs t

/-- The cell behind the last of `xs`. -/
def lastCell : C → List N → C
  | c, [] => c
  | _, x :: xs => lastCell (cell x) xs

/-- The target in front of `xs`. -/
def first : List N → T → T
  | [], t => t
  | x :: _, _ => node x

/-- The cells of a segment. -/
def cells (c : C) (xs : List N) : List C := c :: xs.map cell

/-- The targets of a segment. -/
def targets (xs : List N) (t : T) : List T := xs.map node ++ [t]

end Segments

variable {C N T : Type} {cell : N → C} {node : N → T} {read read' : C → T} {prev prev' : T → C} {c c' w : C} {t : T}
  {xs ys : List N} {n y : N}

/-! ## Positions -/

@[simp] theorem lastCell_nil : lastCell cell c [] = c := rfl

@[simp] theorem first_nil : first node [] t = t := rfl

@[simp] theorem first_cons : first node (y :: ys) t = node y := rfl

@[simp] theorem lastCell_append : lastCell cell c (xs ++ ys) = lastCell cell (lastCell cell c xs) ys := by
  induction xs generalizing c with
  | nil => rfl
  | cons _ _ ih => exact ih

theorem lastCell_concat : lastCell cell c (xs ++ [n]) = cell n := by
  rw [lastCell_append]
  rfl

theorem lastCell_mem : lastCell cell c xs ∈ cells cell c xs := by
  induction xs generalizing c with
  | nil => simp [cells]
  | cons x xs ih =>
    have := ih (c := cell x)
    simp only [lastCell, cells, List.map_cons] at this ⊢
    exact List.mem_cons_of_mem _ this

/-- Each cell of a segment is behind some part of it. -/
theorem mem_cells_split (h : w ∈ cells cell c xs) : ∃ as bs, xs = as ++ bs ∧ lastCell cell c as = w := by
  rcases List.mem_cons.1 h with rfl | h
  · exact ⟨[], xs, rfl, rfl⟩
  · obtain ⟨x, hx, rfl⟩ := List.mem_map.1 h
    obtain ⟨as, bs, rfl⟩ := List.append_of_mem hx
    exact ⟨as ++ [x], bs, by simp, lastCell_concat⟩

/-- The cell behind a node is another one than the cell in front of it. -/
theorem cells_nodup (hinj : Function.Injective cell) (hc : ∀ x, cell x ≠ c) (h : xs.Nodup) :
    (cells cell c xs).Nodup := by
  refine List.nodup_cons.2 ⟨?_, h.map hinj⟩
  intro hmem
  obtain ⟨x, _, hx⟩ := List.mem_map.1 hmem
  exact hc x hx

theorem targets_nodup (hinj : Function.Injective node) (ht : ∀ x, node x ≠ t) (h : xs.Nodup) :
    (targets node xs t).Nodup := by
  refine List.Nodup.append (h.map hinj) (List.nodup_singleton t) ?_
  intro a ha ht'
  obtain ⟨x, _, hx⟩ := List.mem_map.1 ha
  rw [List.mem_singleton.1 ht'] at hx
  exact ht x hx

theorem mem_cells_append (h : w ∈ cells cell c xs) : w ∈ cells cell c (xs ++ ys) := by
  simp only [cells, List.map_append, List.mem_cons, List.mem_append] at h ⊢
  tauto

/-! ## Forwards -/

theorem seg_append : Seg cell node read c (xs ++ y :: ys) t ↔
    Seg cell node read c xs (node y) ∧ Seg cell node read (cell y) ys t := by
  induction xs generalizing c with
  | nil => simp [Seg]
  | cons x xs ih => simp [Seg, ih, and_assoc]

theorem Seg.suffix (h : Seg cell node read c (xs ++ ys) t) : Seg cell node read (lastCell cell c xs) ys t := by
  induction xs generalizing c with
  | nil => exact h
  | cons x xs ih => exact ih h.2

theorem Seg.read_first (h : Seg cell node read c xs t) : read c = first node xs t := by
  cases xs with
  | nil => exact h
  | cons x xs => exact h.1

theorem Seg.read_at (h : Seg cell node read c (xs ++ ys) t) : read (lastCell cell c xs) = first node ys t :=
  h.suffix.read_first

theorem Seg.read_last (h : Seg cell node read c xs t) : read (lastCell cell c xs) = t := by
  have : Seg cell node read c (xs ++ []) t := by rw [List.append_nil]; exact h
  exact this.read_at

/-- The nodes of a segment, reached from another cell in another memory. -/
theorem Seg.moved (h : Seg cell node read c xs t) (hc : read' c' = read c)
    (hxs : ∀ x ∈ xs, read' (cell x) = read (cell x)) : Seg cell node read' c' xs t := by
  induction xs generalizing c c' with
  | nil => exact hc.trans h
  | cons x xs ih =>
    refine ⟨hc.trans h.1, ih h.2 (hxs x List.mem_cons_self) ?_⟩
    exact fun y hy => hxs y (List.mem_cons_of_mem x hy)

theorem Seg.congr (h : Seg cell node read c xs t) (heq : ∀ d ∈ cells cell c xs, read' d = read d) :
    Seg cell node read' c xs t :=
  h.moved (heq c List.mem_cons_self) fun _ hx => heq _ (List.mem_cons_of_mem c (List.mem_map_of_mem hx))

/-- Two segments from one cell to a target that is no node are the same. -/
theorem Seg.unique (hinj : Function.Injective node) (ht : ∀ x, node x ≠ t) (h : Seg cell node read c xs t)
    (h' : Seg cell node read c ys t) : xs = ys := by
  induction xs generalizing c ys with
  | nil =>
    cases ys with
    | nil => rfl
    | cons y ys => exact absurd (h'.1.symm.trans h) (ht y)
  | cons x xs ih =>
    cases ys with
    | nil => exact absurd (h.1.symm.trans h') (ht x)
    | cons y ys =>
      obtain rfl := hinj (h.1.symm.trans h'.1)
      rw [ih h.2 h'.2]

/-- A segment that ends in no node is no cycle. -/
theorem Seg.nodup (hinj : Function.Injective node) (ht : ∀ x, node x ≠ t) (h : Seg cell node read c xs t) :
    xs.Nodup := by
  induction xs generalizing c with
  | nil => exact List.nodup_nil
  | cons x xs ih =>
    refine List.nodup_cons.2 ⟨fun hx => ?_, ih h.2⟩
    -- what follows the second occurrence would be all that follows the first
    obtain ⟨as, bs, rfl⟩ := List.append_of_mem hx
    have heq := congrArg List.length (h.2.unique hinj ht (seg_append.1 h.2).2)
    simp at heq
    omega

/-- Numbered nodes, each linked to the next one. -/
theorem seg_range' {cell : Nat → C} {node : Nat → T} {m : Nat} : ∀ {k : Nat} {c : C}, read c = node m →
    (∀ i, m ≤ i → i < m + k → read (cell i) = node (i + 1)) → read (cell (m + k)) = t →
    Seg cell node read c (List.range' m (k + 1)) t := by
  intro k
  induction k generalizing m with
  | zero => exact fun hc _ ht => ⟨hc, ht⟩
  | succ k ih =>
    intro c hc hlink ht
    rw [List.range'_succ]
    refine ⟨hc, ih (hlink m (Nat.le_refl m) (by omega)) (fun i hi hlt => hlink i (by omega) (by omega)) ?_⟩
    rwa [Nat.add_assoc, Nat.add_comm 1 k]

section Update
variable [DecidableEq C]

theorem Seg.update (h : Seg cell node read c xs t) (hw : w ∉ cells cell c xs) (v : T) :
    Seg cell node (Function.update read w v) c xs t :=
  h.congr fun _ hd => Function.update_of_ne (ne_of_mem_of_not_mem hd hw) v read

/-- Write what the cell behind `xs` holds into the cell of `n`, and then a link to `n` into that cell. -/
theorem Seg.insert (h : Seg cell node read c (xs ++ ys) t) (hnd : (cells cell c (xs ++ ys)).Nodup)
    (hn : cell n ∉ cells cell c (xs ++ ys)) (hw : lastCell cell c xs = w) :
    Seg cell node (Function.update (Function.update read (cell n) (read w)) w (node n)) c (xs ++ n :: ys) t := by
  induction xs generalizing c with
  | nil =>
    have hw' : c = w := hw
    subst hw'
    obtain ⟨hne, hnys⟩ := not_or.1 (mt List.mem_cons.2 hn)
    refine ⟨Function.update_self .., Seg.moved h ?_ fun y hy => ?_⟩
    · simp [Function.update_of_ne hne]
    · have hyc : cell y ≠ c := fun heq => (List.nodup_cons.1 hnd).1 (heq ▸ List.mem_map_of_mem hy)
      have hyn : cell y ≠ cell n := fun heq => hnys (heq ▸ List.mem_map_of_mem hy)
      rw [Function.update_of_ne hyc, Function.update_of_ne hyn]
  | cons x xs ih =>
    obtain ⟨hc, hnd'⟩ := List.nodup_cons.1 hnd
    obtain ⟨hne, hn'⟩ := not_or.1 (mt List.mem_cons.2 hn)
    have hcw : c ≠ w := by
      rintro rfl
      exact hc (hw ▸ mem_cells_append lastCell_mem)
    refine ⟨?_, ih h.2 hnd' hn' hw⟩
    rw [Function.update_of_ne hcw, Function.update_of_ne (Ne.symm hne)]
    exact h.1

/-- Write what the cell of `n` holds into the cell before it. -/
theorem Seg.remove (h : Seg cell node read c (xs ++ n :: ys) t) (hnd : (cells cell c (xs ++ n :: ys)).Nodup)
    (hw : lastCell cell c xs = w) :
    Seg cell node (Function.update read w (read (cell n))) c (xs ++ ys) t := by
  induction xs generalizing c with
  | nil =>
    have hw' : c = w := hw
    subst hw'
    refine Seg.moved h.2 (Function.update_self ..) fun y hy => Function.update_of_ne ?_ _ _
    intro heq
    exact (List.nodup_cons.1 hnd).1 (heq ▸ List.mem_cons_of_mem _ (List.mem_map_of_mem hy))
  | cons x xs ih =>
    obtain ⟨hc, hnd'⟩ := List.nodup_cons.1 hnd
    have hcw : c ≠ w := by
      rintro rfl
      exact hc (hw ▸ mem_cells_append lastCell_mem)
    refine ⟨?_, ih h.2 hnd' hw⟩
    rw [Function.update_of_ne hcw]
    exact h.1

end Update

/-! ## Backwards -/

theorem back_append : Back cell node prev c (xs ++ y :: ys) t ↔
    Back cell node prev c xs (node y) ∧ Back cell node prev (cell y) ys t := by
  induction xs generalizing c with
  | nil => simp [Back]
  | cons x xs ih => simp [Back, ih, and_assoc]

theorem Back.suffix (h : Back cell node prev c (xs ++ ys) t) : Back cell node prev (lastCell cell c xs) ys t := by
  induction xs generalizing c with
  | nil => exact h
  | cons x xs ih => exact ih h.2

theorem Back.prev_first (h : Back cell node prev c xs t) : prev (first node xs t) = c := by
  cases xs with
  | nil => exact h
  | cons x xs => exact h.1

theorem Back.prev_at (h : Back cell node prev c (xs ++ ys) t) : prev (first node ys t) = lastCell cell c xs :=
  h.suffix.prev_first

theorem Back.prev_last (h : Back cell node prev c xs t) : prev t = lastCell cell c xs := by
  have : Back cell node prev c (xs ++ []) t := by rw [List.append_nil]; exact h
  exact this.prev_at

theorem Back.congr (h : Back cell node prev c xs t) (heq : ∀ a ∈ targets node xs t, prev' a = prev a) :
    Back cell node prev' c xs t := by
  induction xs generalizing c with
  | nil => exact (heq t (by simp [targets])).trans h
  | cons x xs ih =>
    refine ⟨(heq _ (by simp [targets])).trans h.1, ih h.2 fun a ha => heq a ?_⟩
    exact List.mem_cons_of_mem _ ha

theorem first_mem : first node xs t ∈ targets node xs t := by
  cases xs <;> simp [first, targets]

section UpdateBack
variable [DecidableEq T]

theorem Back.update {a : T} (h : Back cell node prev c xs t) (ha : a ∉ targets node xs t) (v : C) :
    Back cell node (Function.update prev a v) c xs t :=
  h.congr fun _ hb => Function.update_of_ne (ne_of_mem_of_not_mem hb ha) v prev

/-- The target behind the new node is told its cell, and the node the cell in front of it. -/
theorem Back.insert {a : T} (h : Back cell node prev c (xs ++ ys) t) (hnd : (targets node (xs ++ ys) t).Nodup)
    (hn : node n ∉ targets node (xs ++ ys) t) (ha : first node ys t = a) :
    Back cell node (Function.update (Function.update prev (node n) (lastCell cell c xs)) a (cell n)) c
      (xs ++ n :: ys) t := by
  subst ha
  induction xs generalizing c with
  | nil =>
    have hne : node n ≠ first node ys t := fun heq => hn (heq ▸ first_mem)
    refine ⟨by simp [Function.update_of_ne hne], ?_⟩
    cases ys with
    | nil => simp [Back]
    | cons y ys =>
      obtain ⟨hy, hnd'⟩ := List.nodup_cons.1 hnd
      refine ⟨by simp, Back.congr h.2 fun b hb => ?_⟩
      have hb1 : b ≠ node y := fun heq => hy (heq ▸ hb)
      have hb2 : b ≠ node n := fun heq => hn (heq ▸ List.mem_cons_of_mem _ hb)
      simp only [first]
      rw [Function.update_of_ne hb1, Function.update_of_ne hb2]
  | cons x xs ih =>
    obtain ⟨hx, hnd'⟩ := List.nodup_cons.1 hnd
    obtain ⟨hne, hn'⟩ := not_or.1 (mt List.mem_cons.2 hn)
    refine ⟨?_, ih h.2 hnd' hn'⟩
    have hfirst : node x ≠ first node ys t := by
      intro heq
      refine hx (heq ▸ ?_)
      cases ys <;> simp [first]
    rw [Function.update_of_ne hfirst, Function.update_of_ne (Ne.symm hne)]
    exact h.1

/-- The target behind the removed node is told the cell that was in front of it. -/
theorem Back.remove {a : T} (h : Back cell node prev c (xs ++ n :: ys) t)
    (hnd : (targets node (xs ++ n :: ys) t).Nodup) (ha : first node ys t = a) :
    Back cell node (Function.update prev a (lastCell cell c xs)) c (xs ++ ys) t := by
  subst ha
  induction xs generalizing c with
  | nil =>
    obtain ⟨hn, hnd'⟩ := List.nodup_cons.1 hnd
    cases ys with
    | nil => simp [Back, first]
    | cons y ys =>
      obtain ⟨hy, _⟩ := List.nodup_cons.1 hnd'
      refine ⟨by simp [first], Back.congr h.2.2 fun b hb => ?_⟩
      exact Function.update_of_ne (ne_of_mem_of_not_mem hb hy) _ _
  | cons x xs ih =>
    obtain ⟨hx, hnd'⟩ := List.nodup_cons.1 hnd
    refine ⟨?_, ih h.2 hnd'⟩
    have hfirst : node x ≠ first node ys t := by
      intro heq
      refine hx (heq ▸ ?_)
      cases ys <;> simp [first]
    rw [Function.update_of_ne hfirst]
    exact h.1

end UpdateBack

end Links
