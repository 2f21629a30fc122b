import LibA3.Log.Basic
import Mathlib.Data.List.Infix

/-!
# What gets logged

The state of `log.c` is two variables. What they are after any calls is what the last call that set them made of them, and
with that it is known from the calls alone which lines are written where.

* `log_exactly` — the lines that are written, and when one goes through `NULL`
-/

namespace A3Log

open A3Str Fallible

variable {env : Env} {stderr : Nat} {s s' : St} {calls : List Call} {call : Call}

/-! ## From the calls alone -/

/-- What a call sets the two variables to, if it does. -/
def configured (stderr : Nat) : Call → Option Config
  | .init getenv out level => some ⟨out, effective getenv level⟩
  | .initDefault getenv => some ⟨stderr, effective getenv invalid⟩
  | .log getenv level _ => if level = invalid then some ⟨stderr, effective getenv invalid⟩ else none
  | .message _ _ _ _ _ => none

/-- What was set last. -/
def inForce (stderr : Nat) (calls : List Call) : Config :=
  ((calls.filterMap (configured stderr)).getLast?).getD start.config

/-- The line of a call and its level, where it has not been compiled out. -/
def line : Call → Option (Int × List UInt8)
  | .log _ level fmt => some (level, fmt.bytes ++ ascii ['\n'])
  | .message compiled severity file line fmt =>
    if compiled ≤ severity.level then some (severity.level, (located file line fmt).bytes ++ ascii ['\n']) else none
  | _ => none

/-- The stream and the line that a call writes under a configuration. -/
def printed (config : Config) (call : Call) : Option (Nat × List UInt8) :=
  (line call).bind fun said => if said.1 < config.level then none else some (config.out, said.2)

/-- What the last of the calls writes. -/
def lineOf (stderr : Nat) (calls : List Call) : Option (Nat × List UInt8) :=
  calls.getLast?.bind (printed (inForce stderr calls))

theorem inForce_concat : inForce stderr (calls ++ [call]) = (configured stderr call).getD (inForce stderr calls) := by
  rw [inForce, List.filterMap_append]
  cases h : configured stderr call with
  | none => simp [h, inForce]
  | some config => simp [h]

theorem lineOf_concat :
    lineOf stderr (calls ++ [call]) = printed ((configured stderr call).getD (inForce stderr calls)) call := by
  rw [lineOf, List.getLast?_concat, Option.bind_some, inForce_concat]

theorem lineOf_nil : lineOf stderr [] = none := rfl

/-! ## A call -/

/-- `a3_log` after what it may have to set first. -/
theorem log_eq {getenv : Option (List UInt8)} {level : Int} {fmt : Formatted} {config : Config}
    (hconfig : (if level = invalid then some ⟨stderr, effective getenv invalid⟩ else none).getD s.config = config) :
    log env stderr getenv s level fmt =
      if level < config.level then .ok { s with config := config } else logImpl { s with config := config } fmt := by
  rw [log]
  by_cases hlevel : level = invalid
  · rw [if_pos hlevel] at hconfig ⊢
    rw [logInitDefault, logInit_eq, ok_bind, ← hconfig]
    rfl
  · rw [if_neg hlevel] at hconfig ⊢
    subst hconfig
    rfl

/-- A message at its level, and what becomes of it. -/
theorem log_printed {getenv : Option (List UInt8)} {level : Int} {fmt : Formatted} {config : Config}
    {out : Option (Nat × List UInt8)}
    (hconfig : (if level = invalid then some ⟨stderr, effective getenv invalid⟩ else none).getD s.config = config)
    (hout : (if level < config.level then none else some (config.out, fmt.bytes ++ ascii ['\n'])) = out) :
    log env stderr getenv s level fmt =
      if out.map Prod.fst = some 0 then .error .nullDeref else .ok ⟨config, s.written ++ out.toList⟩ := by
  rw [log_eq hconfig]
  by_cases hlevel : level < config.level
  · rw [if_pos hlevel] at hout ⊢
    subst hout
    simp
  · rw [if_neg hlevel] at hout ⊢
    subst hout
    rw [logImpl]
    by_cases hnull : config.out = 0
    · simp [hnull]
    · simp [hnull]

theorem severity_valid (severity : Severity) : severity.level ≠ invalid := by cases severity <;> decide

/-- **A call** sets what it sets, and then writes its line, which goes wrong where there is no stream. -/
theorem exec_eq {config : Config} {out : Option (Nat × List UInt8)} (hconfig : (configured stderr call).getD s.config = config)
    (hout : printed config call = out) :
    exec env stderr s call =
      if out.map Prod.fst = some 0 then .error .nullDeref else .ok ⟨config, s.written ++ out.toList⟩ := by
  cases call with
  | init getenv stream level =>
    subst hconfig hout
    rw [exec, logInit_eq]
    simp [printed, line, configured]
  | initDefault getenv =>
    subst hconfig hout
    rw [exec, logInitDefault, logInit_eq]
    simp [printed, line, configured]
  | log getenv level fmt => exact log_printed hconfig hout
  | message compiled severity file lineNo fmt =>
    rw [exec]
    by_cases hcompiled : compiled ≤ severity.level
    · rw [if_pos hcompiled]
      refine log_printed ?_ ?_
      · rw [if_neg (severity_valid severity)]
        exact hconfig
      · rw [← hout, printed, line, if_pos hcompiled]
        rfl
    · rw [if_neg hcompiled]
      rw [printed, line, if_neg hcompiled] at hout
      subst hconfig hout
      simp [configured]

/-! ## All calls -/

def execAll (env : Env) (stderr : Nat) (calls : List Call) : Except Fault St := calls.foldlM (exec env stderr) start

theorem execAll_concat :
    execAll env stderr (calls ++ [call]) = (execAll env stderr calls >>= fun s => exec env stderr s call) := by
  simp only [execAll, List.foldlM_append, List.foldlM_cons, List.foldlM_nil, bind_pure]

theorem inits_concat : (calls ++ [call]).inits = calls.inits ++ [calls ++ [call]] := by
  rw [List.inits_append]
  rfl

/-- None of the calls writes through `NULL`. -/
def NeverNull (stderr : Nat) (calls : List Call) : Prop := ∀ pre, pre <+: calls → (lineOf stderr pre).map Prod.fst ≠ some 0

theorem neverNull_concat : NeverNull stderr (calls ++ [call]) ↔
    NeverNull stderr calls ∧ (lineOf stderr (calls ++ [call])).map Prod.fst ≠ some 0 := by
  constructor
  · exact fun h => ⟨fun pre hpre => h pre (hpre.trans (List.prefix_append _ _)), h _ (List.prefix_refl _)⟩
  · rintro ⟨h, hlast⟩ pre hpre
    rcases List.prefix_concat_iff.1 hpre with rfl | hpre
    · exact hlast
    · exact h pre hpre

/-- A call behind others, as the calls alone tell it. -/
theorem exec_in_force (hconfig : s.config = inForce stderr calls) :
    exec env stderr s call =
      if (lineOf stderr (calls ++ [call])).map Prod.fst = some 0 then .error .nullDeref
      else .ok ⟨inForce stderr (calls ++ [call]), s.written ++ (lineOf stderr (calls ++ [call])).toList⟩ := by
  have hset : (configured stderr call).getD s.config = inForce stderr (calls ++ [call]) := by rw [hconfig, inForce_concat]
  have hline : printed (inForce stderr (calls ++ [call])) call = lineOf stderr (calls ++ [call]) := by
    rw [lineOf_concat, inForce_concat]
  exact exec_eq hset hline

theorem execAll_neverNull : NeverNull stderr calls →
    execAll env stderr calls = .ok ⟨inForce stderr calls, calls.inits.filterMap (lineOf stderr)⟩ := by
  induction calls using List.reverseRecOn with
  | nil => exact fun _ => rfl
  | append_singleton calls call ih =>
    intro hnever
    obtain ⟨hbefore, hlast⟩ := neverNull_concat.1 hnever
    rw [execAll_concat, ih hbefore, ok_bind, exec_in_force rfl, if_neg hlast, inits_concat, List.filterMap_append]
    cases h : lineOf stderr (calls ++ [call]) with
    | none => simp [h]
    | some _ => simp [h]

theorem execAll_null : ¬NeverNull stderr calls → execAll env stderr calls = .error .nullDeref := by
  induction calls using List.reverseRecOn with
  | nil =>
    intro hnull
    refine (hnull fun pre hpre => ?_).elim
    rw [List.prefix_nil.1 hpre, lineOf_nil]
    exact nofun
  | append_singleton calls call ih =>
    intro hnull
    rw [execAll_concat]
    by_cases hbefore : NeverNull stderr calls
    · -- it is the last call
      have hlast : (lineOf stderr (calls ++ [call])).map Prod.fst = some 0 := by
        by_contra hnone
        exact hnull (neverNull_concat.2 ⟨hbefore, hnone⟩)
      rw [execAll_neverNull hbefore, ok_bind, exec_in_force rfl, if_pos hlast]
    · rw [ih hbefore]
      rfl

/-- **What gets logged**, by any calls. Where none of them writes through `NULL`, each line has been written once, to the stream
in force at its call, in the order of the calls, if it was not compiled out and its level is not below the one in force. A
call writes through `NULL` if its level is not below the one in force while no stream, or `NULL`, has been set. -/
theorem log_exactly (env : Env) (stderr : Nat) (calls : List Call) :
    (NeverNull stderr calls → execAll env stderr calls = .ok ⟨inForce stderr calls, calls.inits.filterMap (lineOf stderr)⟩) ∧
      (¬NeverNull stderr calls → execAll env stderr calls = .error .nullDeref) :=
  ⟨execAll_neverNull, execAll_null⟩

/-- `A3_LOG_LEVEL=Warn`, and a stream at 4096 -/
example : (inForce 8192 [.init (some (ascii ['W', 'a', 'r', 'n'])) 4096 0]).level = 3 := by decide +kernel

end A3Log
