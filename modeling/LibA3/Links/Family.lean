import LibA3.Links.Segment
import Mathlib.Data.Fintype.Defs
import Mathlib.Data.Option.Basic

/-!
# Families of lists

Any number of linked lists over one pool of nodes, each a segment from a cell of its own to a target that is no node.
The abstract side is a sequence for each list that exists, no node being in two of them; a list that does not exist
has no sequence. `Linked` and `BackLinked` tie the two: a node linked in or out, or a list made empty, changes one
sequence, and the other lists are as they were.
-/

namespace Links

/-- The sequence of each list, none for a list that does not exist. -/
abbrev Lists (L N : Type) := L → Option (List N)

section Lists
variable {L N : Type} {A : Lists L N} {l : L} {ys : List N} {n : N}

/-- The node is in no list. -/
def Free (A : Lists L N) (n : N) : Prop := ∀ l xs, A l = some xs → n ∉ xs

instance [Fintype L] [DecidableEq N] (A : Lists L N) (n : N) : Decidable (Free A n) :=
  decidable_of_iff (∀ l, ∀ xs ∈ A l, n ∉ xs) Iff.rfl

/-- Each list is as `P` says. -/
def Each (P : L → List N → Prop) (A : Lists L N) : Prop := ∀ l xs, A l = some xs → P l xs

variable [DecidableEq L] {P Q : L → List N → Prop}

/-- What becomes of one list; the others are as they were. -/
theorem Each.update (h : Each P A) (hl : Q l ys)
    (hother : ∀ l' xs', A l' = some xs' → l' ≠ l → P l' xs' → Q l' xs') :
    Each Q (Function.update A l (some ys)) := by
  intro l' xs' h'
  by_cases heq : l' = l
  · subst heq
    rw [Function.update_self] at h'
    rw [← Option.some.inj h']
    exact hl
  · rw [Function.update_of_ne heq] at h'
    exact hother l' xs' h' heq (h l' xs' h')

theorem Each.of_update (h : Each P (Function.update A l (some ys))) : P l ys := h l ys (Function.update_self ..)

end Lists

/-- Where the nodes and the lists are: a node's own cell, the target that is a link to it, a list's first cell and its
last target. -/
structure Shape (L N C T : Type) where
  cell : N → C
  node : N → T
  head : L → C
  last : L → T
  cell_injective : Function.Injective cell
  node_injective : Function.Injective node
  head_injective : Function.Injective head
  cell_ne_head : ∀ n l, cell n ≠ head l
  node_ne_last : ∀ n l, node n ≠ last l

section Family
variable {L N C T : Type} (S : Shape L N C T)

/-- The links of one list. -/
abbrev Runs (read : C → T) (l : L) (xs : List N) : Prop := Seg S.cell S.node read (S.head l) xs (S.last l)

/-- The cells of one list. -/
abbrev Shape.cellsOf (l : L) (xs : List N) : List C := cells S.cell (S.head l) xs

/-- The cell behind the last node of a list. -/
abbrev Shape.tail (l : L) (xs : List N) : C := lastCell S.cell (S.head l) xs

structure Linked (read : C → T) (A : Lists L N) : Prop where
  runs : Each (Runs S read) A
  disjoint : ∀ l l' xs xs', A l = some xs → A l' = some xs' → l ≠ l' → xs.Disjoint xs'

/-- Each list can be followed backwards. -/
def BackLinked (prev : T → C) (A : Lists L N) : Prop :=
  Each (fun l xs => Back S.cell S.node prev (S.head l) xs (S.last l)) A

variable {S} {read : C → T} {prev : T → C} {A : Lists L N} {l l' : L} {xs xs' as bs : List N} {n : N} {c w : C} {t : T}

theorem tail_append : S.tail l (xs ++ xs') = lastCell S.cell (S.tail l xs) xs' := lastCell_append

theorem tail_concat : S.tail l (xs ++ [n]) = S.cell n := lastCell_concat

theorem tail_mem : S.tail l xs ∈ S.cellsOf l xs := lastCell_mem

theorem mem_cellsOf_split (h : c ∈ S.cellsOf l xs) : ∃ as bs, xs = as ++ bs ∧ S.tail l as = c := mem_cells_split h

theorem mem_cellsOf : c ∈ S.cellsOf l xs ↔ c = S.head l ∨ ∃ x ∈ xs, c = S.cell x := by
  simp only [Shape.cellsOf, cells, List.mem_cons, List.mem_map, eq_comm]

theorem cellsOf_mono (hsub : xs ⊆ xs') (h : c ∈ S.cellsOf l xs) : c ∈ S.cellsOf l xs' := by
  rcases mem_cellsOf.1 h with heq | ⟨x, hx, heq⟩
  · exact mem_cellsOf.2 (Or.inl heq)
  · exact mem_cellsOf.2 (Or.inr ⟨x, hsub hx, heq⟩)

theorem mem_targets : t ∈ targets S.node xs (S.last l) ↔ t = S.last l ∨ ∃ x ∈ xs, t = S.node x := by
  simp only [targets, List.mem_append, List.mem_map, List.mem_singleton, eq_comm]
  exact or_comm

theorem Runs.nodup (h : Runs S read l xs) : xs.Nodup :=
  Seg.nodup S.node_injective (fun x => S.node_ne_last x l) h

theorem Runs.suffix (h : Runs S read l (as ++ bs)) : Seg S.cell S.node read (S.tail l as) bs (S.last l) := Seg.suffix h

theorem Runs.cells_nodup (h : Runs S read l xs) : (S.cellsOf l xs).Nodup :=
  Links.cells_nodup S.cell_injective (fun x => S.cell_ne_head x l) (Runs.nodup h)

theorem Runs.targets_nodup (h : Runs S read l xs) : (targets S.node xs (S.last l)).Nodup :=
  Links.targets_nodup S.node_injective (fun x => S.node_ne_last x l) (Runs.nodup h)

/-- The cell of a node that is in no list is no cell of a list. -/
theorem Free.not_mem_cells (hfree : Free A n) (hA : A l = some xs) : S.cell n ∉ S.cellsOf l xs := by
  intro hmem
  rcases mem_cellsOf.1 hmem with heq | ⟨x, hx, heq⟩
  · exact S.cell_ne_head n l heq
  · rw [S.cell_injective heq] at hfree
    exact hfree l xs hA hx

theorem Free.not_mem_targets (hfree : Free A n) (hA : A l = some xs) : S.node n ∉ targets S.node xs (S.last l) := by
  intro hmem
  rcases mem_targets.1 hmem with heq | ⟨x, hx, heq⟩
  · exact S.node_ne_last n l heq
  · rw [S.node_injective heq] at hfree
    exact hfree l xs hA hx

theorem linked_none : Linked S read (fun _ => none) :=
  { runs := fun _ _ h => nomatch h
    disjoint := fun _ _ _ _ h => nomatch h }

namespace Linked

/-- A cell of one list is no cell of another. -/
theorem not_mem_cells (h : Linked S read A) (hA : A l = some xs) (hA' : A l' = some xs') (hne : l' ≠ l)
    (hc : c ∈ S.cellsOf l xs) : c ∉ S.cellsOf l' xs' := by
  intro hc'
  rcases mem_cellsOf.1 hc with rfl | ⟨x, hx, rfl⟩
  · rcases mem_cellsOf.1 hc' with heq | ⟨x, _, heq⟩
    · exact hne (S.head_injective heq).symm
    · exact S.cell_ne_head x l heq.symm
  · rcases mem_cellsOf.1 hc' with heq | ⟨x', hx', heq⟩
    · exact S.cell_ne_head x l' heq
    · rw [S.cell_injective heq] at hx
      exact h.disjoint l l' xs xs' hA hA' (Ne.symm hne) hx hx'

/-- A target of one list is no target of another, if their last targets are different. -/
theorem not_mem_targets (h : Linked S read A) (hlast : Function.Injective S.last) (hA : A l = some xs)
    (hA' : A l' = some xs') (hne : l' ≠ l) (ht : t ∈ targets S.node xs (S.last l)) :
    t ∉ targets S.node xs' (S.last l') := by
  intro ht'
  rcases mem_targets.1 ht with rfl | ⟨x, hx, rfl⟩
  · rcases mem_targets.1 ht' with heq | ⟨x, _, heq⟩
    · exact hne (hlast heq).symm
    · exact S.node_ne_last x l heq.symm
  · rcases mem_targets.1 ht' with heq | ⟨x', hx', heq⟩
    · exact S.node_ne_last x l' heq
    · rw [S.node_injective heq] at hx
      exact h.disjoint l l' xs xs' hA hA' (Ne.symm hne) hx hx'

variable [DecidableEq L]

/-- One list changed to nodes that are in no other list. -/
theorem update {read' : C → T} {ys : List N} (h : Linked S read A) (hl : Runs S read' l ys)
    (hother : ∀ l' xs', A l' = some xs' → l' ≠ l → Runs S read' l' xs')
    (hdisj : ∀ l' xs', A l' = some xs' → l' ≠ l → ys.Disjoint xs') :
    Linked S read' (Function.update A l (some ys)) := by
  refine ⟨h.runs.update hl fun l' xs' hA' hne _ => hother l' xs' hA' hne, ?_⟩
  intro l1 l2 xs1 xs2 h1 h2 hne
  by_cases heq1 : l1 = l
  · subst heq1
    rw [Function.update_self] at h1
    rw [Function.update_of_ne (Ne.symm hne)] at h2
    rw [← Option.some.inj h1]
    exact hdisj l2 xs2 h2 (Ne.symm hne)
  · rw [Function.update_of_ne heq1] at h1
    by_cases heq2 : l2 = l
    · subst heq2
      rw [Function.update_self] at h2
      rw [← Option.some.inj h2]
      exact fun x hx hx' => hdisj l1 xs1 h1 heq1 hx' hx
    · rw [Function.update_of_ne heq2] at h2
      exact h.disjoint l1 l2 xs1 xs2 h1 h2 hne

/-- A node that has been taken out of its list is in no other. -/
theorem free_removed (h : Linked S read A) (hA : A l = some (as ++ n :: bs)) :
    Free (Function.update A l (some (as ++ bs))) n := by
  intro l' xs' hA' hmem
  by_cases heq : l' = l
  · subst heq
    rw [Function.update_self] at hA'
    have hnd := Runs.nodup (h.runs l' _ hA)
    rw [← Option.some.inj hA'] at hmem
    exact (List.nodup_middle.1 hnd).notMem hmem
  · rw [Function.update_of_ne heq] at hA'
    exact h.disjoint l l' _ _ hA hA' (Ne.symm heq) (List.mem_append_right as List.mem_cons_self) hmem

variable [DecidableEq C]

/-- A node linked in behind `as`. -/
theorem insertAt (h : Linked S read A) (hA : A l = some (as ++ bs)) (hfree : Free A n) (hw : S.tail l as = w) :
    Linked S (Function.update (Function.update read (S.cell n) (read w)) w (S.node n))
      (Function.update A l (some (as ++ n :: bs))) := by
  have hr := h.runs l _ hA
  have hwl : w ∈ S.cellsOf l (as ++ bs) := hw ▸ mem_cells_append lastCell_mem
  refine h.update (hr.insert (Runs.cells_nodup hr) (hfree.not_mem_cells hA) hw) ?_ ?_
  · intro l' xs' hA' hne
    have hr' := (h.runs l' xs' hA').update (hfree.not_mem_cells hA') (read w)
    exact hr'.update (h.not_mem_cells hA hA' hne hwl) _
  · intro l' xs' hA' hne x hx hx'
    rcases List.mem_append.1 hx with hx | hx
    · exact h.disjoint l l' _ xs' hA hA' (Ne.symm hne) (List.mem_append_left bs hx) hx'
    · rcases List.mem_cons.1 hx with rfl | hx
      · exact hfree l' xs' hA' hx'
      · exact h.disjoint l l' _ xs' hA hA' (Ne.symm hne) (List.mem_append_right as hx) hx'

/-- A node linked out. -/
theorem removeAt (h : Linked S read A) (hA : A l = some (as ++ n :: bs)) (hw : S.tail l as = w) :
    Linked S (Function.update read w (read (S.cell n))) (Function.update A l (some (as ++ bs))) := by
  have hr := h.runs l _ hA
  have hwl : w ∈ S.cellsOf l (as ++ n :: bs) := hw ▸ mem_cells_append lastCell_mem
  refine h.update (hr.remove (Runs.cells_nodup hr) hw) ?_ ?_
  · intro l' xs' hA' hne
    exact (h.runs l' xs' hA').update (h.not_mem_cells hA hA' hne hwl) _
  · intro l' xs' hA' hne x hx
    refine h.disjoint l l' _ xs' hA hA' (Ne.symm hne) ?_
    rcases List.mem_append.1 hx with hx | hx
    · exact List.mem_append_left _ hx
    · exact List.mem_append_right _ (List.mem_cons_of_mem _ hx)

/-- A list made empty, whatever it was. -/
theorem initAt (h : Linked S read A) (l : L) :
    Linked S (Function.update read (S.head l) (S.last l)) (Function.update A l (some [])) := by
  refine h.update (Function.update_self ..) ?_ fun l' xs' _ _ => List.disjoint_nil_left xs'
  intro l' xs' hA' hne
  refine (h.runs l' xs' hA').update (fun hmem => ?_) _
  rcases mem_cellsOf.1 hmem with heq | ⟨x, _, heq⟩
  · exact hne (S.head_injective heq).symm
  · exact S.cell_ne_head x l heq.symm

end Linked

namespace BackLinked

variable [DecidableEq L] [DecidableEq T]

theorem insertAt (h : BackLinked S prev A) (hlinked : Linked S read A) (hlast : Function.Injective S.last)
    (hA : A l = some (as ++ bs)) (hfree : Free A n) (hw : S.tail l as = w) (ht : first S.node bs (S.last l) = t) :
    BackLinked S (Function.update (Function.update prev (S.node n) w) t (S.cell n))
      (Function.update A l (some (as ++ n :: bs))) := by
  subst hw
  have hb := h l _ hA
  have htl : t ∈ targets S.node (as ++ bs) (S.last l) := by
    rw [← ht, targets, List.map_append, List.append_assoc]
    exact List.mem_append_right _ first_mem
  refine h.update (hb.insert (Runs.targets_nodup (hlinked.runs l _ hA)) (hfree.not_mem_targets hA) ht) ?_
  intro l' xs' hA' hne hb'
  exact (hb'.update (hfree.not_mem_targets hA') _).update (hlinked.not_mem_targets hlast hA hA' hne htl) _

theorem removeAt (h : BackLinked S prev A) (hlinked : Linked S read A) (hlast : Function.Injective S.last)
    (hA : A l = some (as ++ n :: bs)) (hw : S.tail l as = w) (ht : first S.node bs (S.last l) = t) :
    BackLinked S (Function.update prev t w) (Function.update A l (some (as ++ bs))) := by
  subst hw
  have hb := h l _ hA
  have htl : t ∈ targets S.node (as ++ n :: bs) (S.last l) := by
    rw [← ht, targets, List.map_append, List.map_cons, List.append_assoc]
    exact List.mem_append_right _ (List.mem_cons_of_mem _ first_mem)
  refine h.update (hb.remove (Runs.targets_nodup (hlinked.runs l _ hA)) ht) ?_
  intro l' xs' hA' hne hb'
  exact hb'.update (hlinked.not_mem_targets hlast hA hA' hne htl) _

theorem initAt (h : BackLinked S prev A) (hlast : Function.Injective S.last) (l : L) :
    BackLinked S (Function.update prev (S.last l) (S.head l)) (Function.update A l (some [])) := by
  refine h.update (Function.update_self ..) ?_
  intro l' xs' hA' hne hb'
  refine hb'.update (fun hmem => ?_) _
  rcases mem_targets.1 hmem with heq | ⟨x, _, heq⟩
  · exact hne (hlast heq).symm
  · exact S.node_ne_last x l heq.symm

end BackLinked

end Family

end Links
