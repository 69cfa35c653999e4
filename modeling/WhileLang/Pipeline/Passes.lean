import WhileLang.Assembly.Basic
import WhileLang.Log.Trace
import WhileLang.Optimize
import WhileLang.Pipeline.PassSet
import WhileLang.Pipeline.Session

/-!
# The pipeline

A program is compiled and run, then optimized, and the optimized program is compiled and run.
Optimization is left out if it is not asked for or if the program has control flow, and what
depends on it is then left out as well.

* `PassError`: why a pass fails.
* `compilePass`, `runPass`, `optimizePass`, `compileOptimizedPass`, `runOptimizedPass`.
* `pipeline`: the five passes in their order.
-/

namespace WhileLang

/-- Why a pass fails. -/
inductive PassError where
  /-- The program is refused. -/
  | refused (cause : Refusal)
  /-- The machine fails. -/
  | machine (cause : Failure)
  /-- Optimization fails. -/
  | optimize (cause : OptimizeError)
  /-- An option is of no use. -/
  | option (cause : OptionError)
  /-- There is no code to run. -/
  | noCode
  /-- The machine was still running when patience ended. -/
  | unfinished
deriving DecidableEq, Repr

/-- The wording of the error. -/
def PassError.message : PassError → String
  | refused cause => cause.message
  | machine cause => cause.message
  | optimize cause => cause.message
  | option cause => cause.message
  | noCode => ""
  | unfinished => "the machine is still running"

/-- What a pass over a session has done. -/
abbrev SessionResult := PassResult Session PassError

/-- Runs code on a fresh machine, with echo and trace as the options say. A run that outlasts
patience has no result. -/
def Session.runCode (s : Session) (code : List Instr) (title : String) (patience : Nat) :
    Session × Except PassError State :=
  let s := (((s.echoLine title).echoLine "--- Compiled bytecode: ---").echoLine
    (listing code)).echoLine "--- Results: ---"
  match s.checkTraceFile, s.stepLimit with
  | .error e, _ => (s, .error (.option e))
  | .ok _, .error e => ({ s with trace := if s.tracing then some "" else none }, .error (.option e))
  | .ok _, .ok stepLimit =>
    let m : Machine := { code, args := s.args, stepLimit }
    let (outcome, final) := m.run patience {}
    let s := final.printed.foldl (fun s v => s.echoLine (toString v)) s
    let s := if s.tracing then { s with trace := some (m.trace patience {}) } else s
    match outcome with
    | .failed f => (s, .error (.machine f))
    | .unfinished => (s, .error .unfinished)
    | .halted => (s.echoLine final.dump, .ok final)

/-- The measurements of compiled code. -/
def codeFields (code : List Instr) : Record :=
  [("instructions", .int code.length)]

/-- The measurements of a run. -/
def runFields (final : State) : Record :=
  [("printed", .int final.output.length), ("steps", .int final.steps)]

/-- The stage after a run. -/
def Stage.finish (stage : Stage) (final : State) : Stage :=
  { stage with output := some final.output, dump := final.dump }

/-- Compiles the program. -/
def compilePass (s : Session) : SessionResult :=
  match s.program.compile with
  | .error r => { state := s, error := some (.refused r) }
  | .ok a =>
    { state := ({ s with given.code := some a.code }).note "compile" (codeFields a.code) }

/-- Runs the program. -/
def runPass (patience : Nat) (s : Session) : SessionResult :=
  match s.given.code with
  | none => { state := s, error := some .noCode }
  | some code =>
    match s.runCode code "Original program:" patience with
    | (s, .error e) => { state := s, error := some e }
    | (s, .ok final) =>
      { state := ({ s with given := s.given.finish final }).note "execute" (runFields final) }

/-- The optimized form of a program within the limits that options set. Limits of no use are
noticed only when the program has a term. -/
def Block.optimizeWithin (b : Block) (budget : Except OptionError Budget)
    (options : ResidualOptions) (clock : Clock) (patience : Nat) : Except PassError Optimized :=
  match budget with
  | .ok budget => (b.optimize budget options clock patience).mapError .optimize
  | .error e =>
    match (b.symbolic []).2 with
    | .error r => .error (.optimize (.refused r))
    | .ok _ => .error (.option e)

/-- Optimizes the program, if that is asked for and the program has no control flow. -/
def optimizePass (clock : Clock) (patience : Nat) (s : Session) : SessionResult :=
  if !s.isSet "optimize" then
    { state := s.note "optimize" [("skipped", .bool true), ("reason", .text "disabled")] }
  else
    let options : ResidualOptions := { inlineNumbers := s.isSet "inline_literals" }
    match s.program.optimizeWithin s.budget options clock patience with
    | .error (.optimize (.refused (.controlFlow construct))) =>
      { state := s.note "optimize" [("skipped", .bool true), ("reason", .text "unsupported"),
          ("construct", .text construct.keyword)]
        log := [⟨.warning,
          "skipping optimization: " ++ (Refusal.controlFlow construct).message⟩] }
    | .error e => { state := s, error := some e }
    | .ok o =>
      { state := ({ s with optimized := some o.program, extraction := some o.extraction }).note
          "optimize"
          (o.extraction.metadata ++ [("statements", Datum.int o.program.length)]) }

/-- Compiles the optimized program, if there is one. -/
def compileOptimizedPass (s : Session) : SessionResult :=
  match s.optimized with
  | none => { state := s.note "compile_optimized" [("skipped", .bool true)] }
  | some program =>
    match program.compile with
    | .error r => { state := s, error := some (.refused r) }
    | .ok a =>
      { state := ({ s with improved.code := some a.code }).note "compile_optimized"
          (codeFields a.code) }

/-- Runs the optimized program, if there is one. -/
def runOptimizedPass (patience : Nat) (s : Session) : SessionResult :=
  match s.improved.code with
  | none => { state := s.note "execute_optimized" [("skipped", .bool true)] }
  | some code =>
    match (s.echoLine "").runCode code "Optimized program:" patience with
    | (s, .error e) => { state := s, error := some e }
    | (s, .ok final) =>
      { state := ({ s with improved := s.improved.finish final }).note "execute_optimized"
          (runFields final) }

/-- The five passes. The clock is for the one that optimizes. -/
def pipeline (clock : Clock) (patience : Nat) : PassSet Session PassError :=
  [{ name := "compile", order := 10, run := compilePass },
   { name := "execute", order := 20, run := runPass patience },
   { name := "optimize", order := 30, run := optimizePass clock patience },
   { name := "compile_optimized", order := 40, run := compileOptimizedPass },
   { name := "execute_optimized", order := 50, run := runOptimizedPass patience }]

/-- Runs the pipeline on a session. -/
def Session.runPipeline (s : Session) (skip only : List String) (clock : Clock) (patience : Nat) :
    RunReport Session PassError :=
  (pipeline clock patience).run Session.metadata skip only s

end WhileLang
