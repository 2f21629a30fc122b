import LibA3.Ll.Basic

/-!
# What each call changes

`links` reads a list's empty head as a link to the list's `end`, whichever of the two encodings of emptiness is in
force. Seen so, every insertion is one change to the links (`Inserted`): the new node between the cell `w` and the
target `t` that `w` held; and every removal is the opposite one (`Removed`). `Inv` is what both keep.
-/

namespace A3Ll

open Links

variable {L N : Type} {m m' : Mem L N} {A : Lists L N} {l : L}
  {xs as bs : List N} {n x : N} {w : Cell L N} {t : Ptr L N}

theorem next_injective : Function.Injective (.next : N → Cell L N) := fun _ _ h => Cell.next.inj h

theorem node_injective : Function.Injective (.node : N → Ptr L N) := fun _ _ h => Ptr.node.inj h

theorem head_injective : Function.Injective (.head : L → Cell L N) := fun _ _ h => Cell.head.inj h

theorem next_ne_head (n : N) (l : L) : (.next n : Cell L N) ≠ .head l := by
  rintro ⟨⟩

theorem node_ne_sentinel (n : N) (l : L) : (.node n : Ptr L N) ≠ .sentinel l := by
  rintro ⟨⟩

/-- Every list ends in its own `end`. -/
abbrev shape : Shape L N (Cell L N) (Ptr L N) where
  cell := .next
  node := .node
  head := .head
  last := .sentinel
  cell_injective := next_injective
  node_injective := node_injective
  head_injective := head_injective
  cell_ne_head := next_ne_head
  node_ne_last := node_ne_sentinel

theorem last_injective : Function.Injective (shape : Shape L N (Cell L N) (Ptr L N)).last := by
  intro a b h
  cases h
  rfl

variable [DecidableEq L] [DecidableEq N]

/-- The target of each link, `end` being the target of an empty head. -/
def Mem.links (m : Mem L N) : Cell L N → Ptr L N
  | .null => .null
  | .head l => if m.head l = .null then .sentinel l else m.head l
  | .next n => m.next (.node n)

/-- The fields of a list that no call but `A3_LL_INIT` writes. -/
def Marked (m : Mem L N) (l : L) : Prop := m.next (.sentinel l) = .null ∧ m.dummy l = .null

structure Inv (m : Mem L N) (A : Lists L N) : Prop where
  linked : Linked shape m.links A
  back : BackLinked shape m.prev A
  marked : Each (fun l _ => Marked m l) A

/-! ## Changes -/

/-- `n` has been linked in at `w`, which held `t`. -/
structure Inserted (m : Mem L N) (n : N) (w : Cell L N) (t : Ptr L N) (m' : Mem L N) : Prop where
  links : m'.links = Function.update (Function.update m.links (.next n) t) w (.node n)
  prev : m'.prev = Function.update (Function.update m.prev (.node n) w) t (.next n)
  marked : ∀ l, Marked m' l ↔ Marked m l

/-- The node between `w` and `t` has been linked out. -/
structure Removed (m : Mem L N) (w : Cell L N) (t : Ptr L N) (m' : Mem L N) : Prop where
  links : m'.links = Function.update m.links w t
  prev : m'.prev = Function.update m.prev t w
  marked : ∀ l, Marked m' l ↔ Marked m l

namespace Inv

theorem insert (h : Inv m A) (hA : A l = some (as ++ bs)) (hfree : Free A n)
    (hins : Inserted m n (shape.tail l as) (first .node bs (.sentinel l)) m') :
    Inv m' (Function.update A l (some (as ++ n :: bs))) := by
  have hlinks : m.links (shape.tail l as) = first .node bs (.sentinel l) := (h.linked.runs l _ hA).suffix.read_first
  refine ⟨?_, ?_, h.marked.update ((hins.marked l).2 (h.marked l _ hA)) fun l' _ _ _ => (hins.marked l').2⟩
  · rw [hins.links, ← hlinks]
    exact h.linked.insertAt hA hfree rfl
  · rw [hins.prev]
    exact h.back.insertAt h.linked last_injective hA hfree rfl rfl

theorem remove (h : Inv m A) (hA : A l = some (as ++ n :: bs))
    (hrem : Removed m (shape.tail l as) (first .node bs (.sentinel l)) m') :
    Inv m' (Function.update A l (some (as ++ bs))) := by
  have hlinks : m.links (.next n) = first .node bs (.sentinel l) :=
    (seg_append.1 (h.linked.runs l _ hA)).2.read_first
  refine ⟨?_, ?_, h.marked.update ((hrem.marked l).2 (h.marked l _ hA)) fun l' _ _ _ => (hrem.marked l').2⟩
  · rw [hrem.links, ← hlinks]
    exact h.linked.removeAt hA rfl
  · rw [hrem.prev]
    exact h.back.removeAt h.linked last_injective hA rfl rfl

/-! ## Readings of the fields -/

theorem next_node (h : Inv m A) (hA : A l = some (as ++ x :: bs)) :
    m.next (.node x) = first .node bs (.sentinel l) :=
  (seg_append.1 (h.linked.runs l _ hA)).2.read_first

theorem prev_node (h : Inv m A) (hA : A l = some (as ++ x :: bs)) : m.prev (.node x) = shape.tail l as :=
  (back_append.1 (h.back l _ hA)).1.prev_last

theorem prev_sentinel (h : Inv m A) (hA : A l = some xs) : m.prev (.sentinel l) = shape.tail l xs :=
  (h.back l xs hA).prev_last

theorem head_nil (h : Inv m A) (hA : A l = some []) : m.head l = .null ∨ m.head l = .sentinel l := by
  have hlink : m.links (.head l) = .sentinel l := (h.linked.runs l _ hA).read_first
  rw [Mem.links] at hlink
  split at hlink
  · exact Or.inl ‹_›
  · exact Or.inr hlink

theorem head_cons (h : Inv m A) (hA : A l = some (x :: xs)) : m.head l = .node x := by
  have hlink : m.links (.head l) = .node x := (h.linked.runs l _ hA).read_first
  rw [Mem.links] at hlink
  split at hlink
  · cases hlink
  · exact hlink

end Inv

end A3Ll
