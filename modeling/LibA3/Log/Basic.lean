import LibA3.Str.Lifetime

/-!
# Logging (`log.c`, `log.h`, `log_internal.h`)

| here | there |
| --- | --- |
| `Config`        | `LOG_OUTPUT` and `A3_PRIV_LOG_LEVEL` (`log.c:19-20`), as they are set |
| `St.written`    | the lines that went to a stream, with its address, in order |
| `levelNames`    | the names that `A3_LOG_LEVEL` of the environment is compared with (`log.c:26-36`), in that order |
| `Call.init`     | `a3_log_init` (`log.c:22`), with what `getenv` answers |
| `Call.log`      | `a3_log` (`log_internal.h:41`), with what `getenv` would answer |
| `Call.message`  | `A3_TRACE_F` to `A3_ERROR_F` (`log.h:71-101`) in a file compiled with that `A3_LOG_LEVEL` |

A `FILE*` is its address; a `Formatted` is a format with its arguments.
-/

namespace A3Log

open A3Str Fallible Text

/-! ## Levels -/

/-- `A3_LOG_INVALID`, which is `~0` -/
def invalid : Int := -1

def ascii (chars : List Char) : List UInt8 := chars.map fun c => UInt8.ofNat c.toNat

def levelNames : List (A3CString × Int) :=
  [(literal (ascii ['t', 'r', 'a', 'c', 'e']), 0), (literal (ascii ['d', 'e', 'b', 'u', 'g']), 1),
    (literal (ascii ['i', 'n', 'f', 'o']), 2), (literal (ascii ['w', 'a', 'r', 'n']), 3),
    (literal (ascii ['e', 'r', 'r', 'o', 'r']), 4)]

/-- The `if`s of `a3_log_init` (`log.c:26`) from a name on -/
def named (env : Env) (value : A3CString) (level : Int) : List (A3CString × Int) → Except Fault Int
  | [] => .ok level
  | (name, named') :: rest => do
    let order ← stringCmpi env value name
    if order = 0 then pure named' else named env value level rest

/-- What `getenv` answers: `NULL`, or the address of a C string. -/
def fromEnvironment : Option (List UInt8) → A3String
  | none => nullString
  | some text => ⟨8192, 0, text ++ [0]⟩

/-! ## Calls -/

structure Config where
  out : Nat
  level : Int

structure St where
  config : Config
  written : List (Nat × List UInt8)

/-- `LOG_OUTPUT` is `NULL` and the level is invalid (`log.c:19`). -/
def start : St := ⟨⟨0, invalid⟩, []⟩

def logInit (env : Env) (getenv : Option (List UInt8)) (s : St) (out : Nat) (level : Int) : Except Fault St := do
  let value ← stringFrom (fromEnvironment getenv)
  let level ← if value.ptr ≠ 0 then named env value.const level levelNames else pure level
  pure { s with config := ⟨out, level⟩ }

/-- `a3_log_init_default` (`log.c:42`) -/
def logInitDefault (env : Env) (stderr : Nat) (getenv : Option (List UInt8)) (s : St) : Except Fault St :=
  logInit env getenv s stderr invalid

/-- `a3_log_impl` (`log.c:45`) -/
def logImpl (s : St) (fmt : Formatted) : Except Fault St :=
  if s.config.out = 0 then .error .nullDeref
  else .ok { s with written := s.written ++ [(s.config.out, fmt.bytes ++ ascii ['\n'])] }

def log (env : Env) (stderr : Nat) (getenv : Option (List UInt8)) (s : St) (level : Int) (fmt : Formatted) : Except Fault St := do
  let s ← if level = invalid then logInitDefault env stderr getenv s else pure s
  if level < s.config.level then pure s else logImpl s fmt

/-- `"%s (%d): " FMT, __FILE__, __LINE__` of `A3_LOG_F` (`log.h:39`) -/
def located (file : List UInt8) (line : Nat) : Formatted → Formatted
  | .text bytes => .text (file ++ ascii [' ', '('] ++ decimal line ++ ascii [')', ':', ' '] ++ bytes)
  | .error bytes => .error (file ++ ascii [' ', '('] ++ decimal line ++ ascii [')', ':', ' '] ++ bytes)

inductive Severity where
  | trace
  | debug
  | info
  | warn
  | error
deriving DecidableEq, Repr

def Severity.level : Severity → Int
  | .trace => 0
  | .debug => 1
  | .info => 2
  | .warn => 3
  | .error => 4

inductive Call where
  | init (getenv : Option (List UInt8)) (out : Nat) (level : Int)
  | initDefault (getenv : Option (List UInt8))
  | log (getenv : Option (List UInt8)) (level : Int) (fmt : Formatted)
  | message (compiled : Int) (severity : Severity) (file : List UInt8) (line : Nat) (fmt : Formatted)

def exec (env : Env) (stderr : Nat) (s : St) : Call → Except Fault St
  | .init getenv out level => logInit env getenv s out level
  | .initDefault getenv => logInitDefault env stderr getenv s
  | .log getenv level fmt => A3Log.log env stderr getenv s level fmt
  | .message compiled severity file line fmt =>
    if compiled ≤ severity.level then A3Log.log env stderr none s severity.level (located file line fmt) else .ok s

/-! ## The level in force -/

variable {env : Env} {stderr : Nat} {getenv : Option (List UInt8)} {s s' : St} {level : Int}

/-- The level that the environment names, in whatever case, or else the one that was asked for. -/
def effective (getenv : Option (List UInt8)) (level : Int) : Int :=
  match getenv with
  | none => level
  | some text =>
    ((levelNames.find? fun name => name.1.bytes = (text.takeWhile fun c => !isNul c).map tolower).map (·.2)).getD level

theorem levelNames_lower : ∀ name ∈ levelNames, name.1.ptr ≠ 0 ∧ name.1.bytes.map tolower = name.1.bytes := by decide +kernel

/-- A text that is a name in whatever case is equal to it for `a3_string_cmpi`. -/
theorem cmpi_name_iff (env : Env) {value name : A3CString} (hv : value.ptr ≠ 0) (hn : name.ptr ≠ 0)
    (hnul : ∀ c ∈ value.bytes, isNul c = false)
    (hlower : name.bytes.map tolower = name.bytes) :
    ∃ order, stringCmpi env value name = .ok order ∧ (order = 0 ↔ name.bytes = value.bytes.map tolower) := by
  by_cases hlen : value.len = name.len
  · refine ⟨_, stringCmpi_eq hv hn hlen, ?_⟩
    have hkey : ∀ bytes : List UInt8, bytes.map caseKey = (bytes.map tolower).map byteKey := by
      intro bytes
      simp only [List.map_map]
      rfl
    rw [firstDiff_eq_zero_iff_map hlen hnul, hkey, hkey, hlower, (List.map_injective_iff.2 byteKey_injective).eq_iff, eq_comm]
  · refine ⟨-1, cmpWith_ne hv hn hlen, iff_of_false (by decide) fun heq => hlen ?_⟩
    rw [A3CString.len, A3CString.len, heq, List.length_map]

theorem named_eq (env : Env) (level : Int) {value : A3CString} (hv : value.ptr ≠ 0) (hnul : ∀ c ∈ value.bytes, isNul c = false) :
    ∀ names : List (A3CString × Int), (∀ name ∈ names, name.1.ptr ≠ 0 ∧ name.1.bytes.map tolower = name.1.bytes) →
      named env value level names =
        .ok (((names.find? fun name => name.1.bytes = value.bytes.map tolower).map (·.2)).getD level) := by
  intro names
  induction names with
  | nil => intro _; rfl
  | cons name names ih =>
    intro hnames
    obtain ⟨hp, hlower⟩ := hnames name List.mem_cons_self
    obtain ⟨order, hcmpi, hiff⟩ := cmpi_name_iff env hv hp hnul hlower
    rw [named, hcmpi, ok_bind, List.find?_cons]
    by_cases hzero : order = 0
    · have hname := hiff.1 hzero
      simp [hzero, hname]
    · have hname : ¬name.1.bytes = value.bytes.map tolower := fun h => hzero (hiff.2 h)
      rw [if_neg hzero, ih fun n hn => hnames n (List.mem_cons_of_mem name hn)]
      simp [hname]

/-- **`a3_log_init` (`log.c:22`)** -/
theorem logInit_eq (out : Nat) : logInit env getenv s out level = .ok { s with config := ⟨out, effective getenv level⟩ } := by
  cases getenv with
  | none => rfl
  | some text =>
    have hp : (8192 : Nat) ≠ 0 := by decide
    obtain ⟨n, hn, hle, htake⟩ := findIdx?_isNul text
    have hfrom : stringFrom (fromEnvironment (some text)) = .ok ⟨8192, n, text ++ [0]⟩ := by
      rw [stringFrom, fromEnvironment, if_neg hp]
      simp only [hn]
    have hbytes : (A3String.mk 8192 n (text ++ [0])).const.bytes = text.takeWhile fun c => !isNul c := by
      rw [← htake, ← List.take_append_of_le_length hle]
      rfl
    have hnul : ∀ c ∈ (A3String.mk 8192 n (text ++ [0])).const.bytes, isNul c = false := by
      intro c hc
      rw [hbytes] at hc
      simpa using List.all_eq_true.1 List.all_takeWhile c hc
    have hptr : (A3String.mk 8192 n (text ++ [0])).const.ptr ≠ 0 := hp
    have hnamed := named_eq env level hptr hnul levelNames levelNames_lower
    rw [logInit, hfrom, ok_bind, if_pos hp, hnamed, hbytes]
    rfl

end A3Log
