import LibA3.Buf.Tokens
import LibA3.Str.Numeral

/-!
# Records through a buffer

Strings and numbers are written with a delimiter behind each, and `a3_buf_token_next` takes them out again, in any order of
the two, with `a3_buf_ensure_cap`, `a3_buf_compact` and the like in between.

| here | there |
| --- | --- |
| `Item.op`        | `a3_buf_write_str` (`buffer.h:222`) or `a3_buf_write_num` (`buffer.c:109`) |
| `.writeByte d`   | `a3_buf_write_byte`; a string and then `'\n'` is also `a3_buf_write_line` |
| `RecordStep.get` | `a3_buf_token_next` (`buffer.c:135`) with one delimiter, and the bytes of the string it returns |

* `records_fifo` — what comes out is what went in, whole, in order, once
-/

namespace A3Buf

open A3Str Fallible Text Trans

variable {env : Env} {d : UInt8} {b b' : A3Buffer} {q q' : BoundedQueue UInt8}

/-! ## Records -/

inductive Item where
  | text (str : A3CString)
  | number (num : UInt64)

def Item.bytes : Item → List UInt8
  | .text str => str.bytes
  | .number num => decimal num.toNat

def Item.op : Item → Op
  | .text str => .writeStr str
  | .number num => .writeNum num

/-- It can be told from what is around it. -/
def Item.Clean (d : UInt8) (x : Item) : Prop := x.bytes ≠ [] ∧ d ∉ x.bytes

/-- What is read is the string that was written, or the numeral of the number. -/
def Item.ReadAs : Item → List UInt8 → Prop
  | .text str, bytes => bytes = str.bytes
  | .number num, bytes => Canonical bytes num.toNat

theorem Item.readAs_bytes (x : Item) : x.ReadAs x.bytes := by
  cases x with
  | text str => rfl
  | number num => exact canonical_decimal num.toNat

/-! ## Calls -/

/-- The functions that leave the contents as they are. -/
def Op.Tidy : Op → Prop
  | .ensureCap _ | .ensureMaxCap | .compact | .resetIfEmpty => True
  | _ => False

inductive RecordCall where
  | put (x : Item)
  | refused (x : Item)
  | get (preserveEnd : Bool) (bytes : List UInt8)
  | tidy (op : Op)

inductive RecordStep (env : Env) (d : UInt8) : A3Buffer → RecordCall → A3Buffer → Prop
  | put {b b1 b' : A3Buffer} (x : Item) : x.Clean d → Step env b (x.op, true) b1 → Step env b1 (.writeByte d, true) b' →
      RecordStep env d b (.put x) b'
  | refused {b b' : A3Buffer} (x : Item) : Step env b (x.op, false) b' → RecordStep env d b (.refused x) b'
  | get {b b' : A3Buffer} (preserveEnd : Bool) (tok : Nat × Nat) : tokenNext env b [d] preserveEnd = .ok (some tok, b') →
      RecordStep env d b (.get preserveEnd (slice b' tok)) b'
  | tidy {b b' : A3Buffer} (op : Op) (ok : Bool) : op.Tidy → Step env b (op, ok) b' → RecordStep env d b (.tidy op) b'

/-- A queue of records. -/
inductive FifoStep : List Item → RecordCall → List Item → Prop
  | put (xs : List Item) (x : Item) : FifoStep xs (.put x) (xs ++ [x])
  | refused (xs : List Item) (x : Item) : FifoStep xs (.refused x) xs
  | get (xs : List Item) (x : Item) (preserveEnd : Bool) (bytes : List UInt8) : x.ReadAs bytes → bytes ≠ [] →
      FifoStep (x :: xs) (.get preserveEnd bytes) xs
  | miss (preserveEnd : Bool) : FifoStep [] (.get preserveEnd []) []
  | tidy (xs : List Item) (op : Op) : FifoStep xs (.tidy op) xs

/-! ## The buffer holds the records -/

/-- The runs of the contents are the records, each with a delimiter behind it. -/
structure HoldsRecords (d : UInt8) (b : A3Buffer) (q : BoundedQueue UInt8) (xs : List Item) : Prop where
  rep : Rep b q
  runs_eq : runs [d].contains q.items = xs.map Item.bytes
  closed : Closed [d].contains q.items
  nonempty : ∀ x ∈ xs, x.bytes ≠ []

theorem write_true {bytes : List UInt8} (h : (true, q') = q.write bytes) : q'.items = q.items ++ bytes := by
  by_cases hle : q.items.length + bytes.length ≤ q.cap
  · rw [BoundedQueue.write, dif_pos hle] at h
    cases h
    rfl
  · rw [BoundedQueue.write_full (Nat.lt_of_not_le hle)] at h
    cases h

theorem write_false {bytes : List UInt8} (h : (false, q') = q.write bytes) : q' = q := by
  by_cases hle : q.items.length + bytes.length ≤ q.cap
  · rw [BoundedQueue.write, dif_pos hle] at h
    cases h
  · rw [BoundedQueue.write_full (Nat.lt_of_not_le hle)] at h
    cases h
    rfl

theorem Item.spec_op {x : Item} {ok : Bool} (h : x.op.Spec env q ok q') : (ok, q') = q.write x.bytes := by
  cases x with
  | text str => exact h
  | number num => exact h

theorem Op.Tidy.spec {op : Op} {ok : Bool} (ht : op.Tidy) (h : op.Spec env q ok q') : q' = q := by
  cases op with
  | ensureCap _ => exact h
  | ensureMaxCap => exact h
  | compact => exact h
  | resetIfEmpty => exact h
  | _ => exact ht.elim

theorem tokenRest_suffix (delim : List UInt8) (preserveEnd : Bool) (s : List UInt8) :
    tokenRest delim preserveEnd s <:+ s := by
  have hrest : ((s.dropWhile delim.contains).dropWhile fun c => !delim.contains c) <:+ s :=
    (List.dropWhile_suffix _).trans (List.dropWhile_suffix _)
  cases preserveEnd with
  | true => exact hrest
  | false => exact (List.dropWhile_suffix _).trans hrest

variable {xs : List Item} {x : Item}

theorem HoldsRecords.put (h : HoldsRecords d b q xs) {b1 : A3Buffer} (hclean : x.Clean d) (hx : Step env b (x.op, true) b1)
    (hd : Step env b1 (.writeByte d, true) b') : ∃ q', HoldsRecords d b' q' (xs ++ [x]) := by
  obtain ⟨q1, hspec, r1⟩ := step_sim h.rep hx
  obtain ⟨q', hbyte, r'⟩ := step_sim r1 hd
  have hitems : q'.items = q.items ++ (x.bytes ++ [d]) := by
    rw [write_true hbyte, write_true (Item.spec_op hspec), List.append_assoc]
  have hd : [d].contains d = true := by simp
  have hnone : ∀ c ∈ x.bytes, [d].contains c = false := by
    intro c hc
    have hne : c ≠ d := fun heq => hclean.2 (heq ▸ hc)
    simpa using hne
  refine ⟨q', r', ?_, ?_, ?_⟩
  · rw [hitems, runs_concat h.closed hclean.1 hnone hd, h.runs_eq, List.map_append, List.map_singleton]
  · rw [hitems, ← List.append_assoc]
    exact closed_concat hd
  · intro y hy
    rcases List.mem_append.1 hy with hy | hy
    · exact h.nonempty y hy
    · rw [List.mem_singleton.1 hy]
      exact hclean.1

/-- What `a3_buf_token_next` finds, and what it leaves. -/
theorem HoldsRecords.get (h : HoldsRecords d b q xs) (preserveEnd : Bool) :
    ∃ tok b' q', tokenNext env b [d] preserveEnd = .ok (some tok, b') ∧ slice b' tok = (xs.map Item.bytes).headD [] ∧
      HoldsRecords d b' q' xs.tail := by
  obtain ⟨tok, b', htok, ht⟩ : ∃ tok b', tokenNext env b [d] preserveEnd = .ok (some tok, b') ∧ _ :=
    tokenNext_tokenized h.rep.inv.sound [d] preserveEnd
  have hallowed : (Op.tokenNext [d] preserveEnd).Allowed env b :=
    ⟨trivial, fun hg => absurd hg.1 (Nat.not_lt.2 h.rep.inv.sound.size_le)⟩
  obtain ⟨ok, b1, q', hexec, ⟨_, hitems⟩, r', _⟩ := exec_spec h.rep (.tokenNext [d] preserveEnd) hallowed trivial
  rw [exec, htok] at hexec
  cases hexec
  have hfirst := ht.token_zero
  have hrest : runs [d].contains q'.items = (xs.map Item.bytes).tail := by
    rw [r'.items, ht.runs_eq, runs_tail, ← h.rep.items, h.runs_eq]
  refine ⟨tok, b', q', htok, ?_, r', ?_, ?_, fun x hx => h.nonempty x (List.mem_of_mem_tail hx)⟩
  · rw [← hfirst, token, ← h.rep.items, h.runs_eq]
    cases xs <;> rfl
  · rw [hrest, List.map_tail]
  · rw [hitems]
    exact h.closed.suffix (tokenRest_suffix _ _ _)

/-! ## Runs -/

/-- **Step lemma.** -/
theorem HoldsRecords.step (h : HoldsRecords d b q xs) {a : RecordCall} (hs : RecordStep env d b a b') :
    ∃ xs', FifoStep xs a xs' ∧ ∃ q', HoldsRecords d b' q' xs' := by
  cases hs with
  | put x hclean hx hd => exact ⟨_, .put xs x, h.put hclean hx hd⟩
  | refused x hx =>
    obtain ⟨q', hspec, r'⟩ := step_sim h.rep hx
    obtain rfl := write_false (Item.spec_op hspec)
    exact ⟨_, .refused xs x, q', r', h.runs_eq, h.closed, h.nonempty⟩
  | get preserveEnd tok htok =>
    obtain ⟨tok', b1, q', htok', hslice, h'⟩ : ∃ tok b' q', tokenNext env b [d] preserveEnd = .ok (some tok, b') ∧ _ :=
      h.get preserveEnd
    rw [htok] at htok'
    cases htok'
    refine ⟨xs.tail, ?_, q', h'⟩
    rw [hslice]
    cases xs with
    | nil => exact .miss preserveEnd
    | cons x xs => exact .get xs x preserveEnd x.bytes x.readAs_bytes (h.nonempty x List.mem_cons_self)
  | tidy op ok ht hop =>
    obtain ⟨q', hspec, r'⟩ := step_sim h.rep hop
    obtain rfl := ht.spec hspec
    exact ⟨_, .tidy xs op, q', r', h.runs_eq, h.closed, h.nonempty⟩

/-- **The buffer is a queue of records.** From `a3_buf_init` on, whatever the order of the calls, what `a3_buf_token_next` returns
is what a queue of records returns: each record once, in the order they were written, numbers as their numerals; and an empty
string exactly when no record is left. -/
theorem records_fifo {cap maxCap : Nat} (hle : cap ≤ maxCap) (hmax : maxCap < 2 ^ 64) (hobj : cap + 1 ≤ ptrdiffMax)
    {b0 : A3Buffer} (hinit : init env zeroed cap maxCap = (true, b0)) {l : List RecordCall}
    (hrun : Run (RecordStep env d) b0 l b) :
    ∃ xs, Run FifoStep [] l xs ∧ ∀ preserveEnd, ∃ bytes b',
      RecordStep env d b (.get preserveEnd bytes) b' ∧ (bytes = [] ↔ xs = []) := by
  have hsim : ∀ (b : A3Buffer) (xs : List Item) (a : RecordCall) (b' : A3Buffer), (∃ q, HoldsRecords d b q xs) →
      RecordStep env d b a b' → ∃ xs', FifoStep xs a xs' ∧ ∃ q', HoldsRecords d b' q' xs' :=
    fun _ _ _ _ h hs => h.elim fun _ h => h.step hs
  have h0 : HoldsRecords d b0 (BoundedQueue.empty UInt8 maxCap) [] :=
    ⟨init_rep hle hmax hobj hinit, rfl, closed_nil, fun _ h => absurd h List.not_mem_nil⟩
  obtain ⟨xs, hfifo, q, h⟩ := hrun.simulate hsim ⟨_, h0⟩
  refine ⟨xs, hfifo, fun preserveEnd => ?_⟩
  obtain ⟨tok, b', _, htok, hslice, _⟩ : ∃ tok b' q', tokenNext env b [d] preserveEnd = .ok (some tok, b') ∧ _ :=
    h.get preserveEnd
  refine ⟨slice b' tok, b', .get preserveEnd tok htok, ?_⟩
  rw [hslice]
  cases xs with
  | nil => exact iff_of_true rfl rfl
  | cons x xs => exact iff_of_false (h.nonempty x List.mem_cons_self) (List.cons_ne_nil _ _)

/-- One record of one byte, between spaces. -/
def oneRecord : A3Buffer := ⟨⟨4096, 4, [97, 32, 0, 0, 0]⟩, 2, 0, 8⟩

theorem records_fifo_one : ∃ xs, Run FifoStep [] [.put (.text (onStack [97]))] xs ∧ ∀ preserveEnd, ∃ bytes b',
    RecordStep demo 32 oneRecord (.get preserveEnd bytes) b' ∧ (bytes = [] ↔ xs = []) := by
  have hgrow : ∀ n, Grows (init demo zeroed 4 8).2 n → CanGrow demo (init demo zeroed 4 8).2 := fun _ _ => ⟨by decide, by decide⟩
  have hstr : Step demo (init demo zeroed 4 8).2 (.writeStr (onStack [97]), true) ⟨⟨4096, 4, [97, 0, 0, 0, 0]⟩, 1, 0, 8⟩ :=
    ⟨⟨show 1 ≤ ptrdiffMax by decide, hgrow _⟩, fun _ => by decide, by decide +kernel⟩
  have hdelim : Step demo ⟨⟨4096, 4, [97, 0, 0, 0, 0]⟩, 1, 0, 8⟩ (.writeByte 32, true) oneRecord :=
    ⟨⟨trivial, fun _ => ⟨by decide, by decide⟩⟩, trivial, by decide +kernel⟩
  have hclean : (Item.text (onStack [97])).Clean 32 := ⟨by decide, by decide⟩
  exact records_fifo (by decide) (by decide) (by decide) rfl (.single (.put _ hclean hstr hdelim))

end A3Buf
