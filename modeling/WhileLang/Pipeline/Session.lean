import WhileLang.Datum
import WhileLang.EGraph.Saturate
import WhileLang.Machine.Fault

/-!
# Sessions

What the passes of the pipeline work on: the program and its arguments, the options, and what
the passes have found out so far about the program as given and about its optimized form.

* `Stage`: a program on its way through compiler and machine.
* `Session`: the state of the pipeline.
* `Session.create`: a fresh session; the arguments may be any data that denote integers.
* `countLimit`, `timeLimit`, `Budget.ofOptions`: limits from options; `OptionError`: why an option
  is of no use.
-/

namespace WhileLang

/-- How far a program has come. -/
structure Stage where
  /-- Its code, once it is compiled. -/
  code : Option (List Instr) := none
  /-- What it printed, once it has run. -/
  output : Option (List Int) := none
  /-- The machine after the run. -/
  dump : String := ""
deriving DecidableEq, Repr

/-- The state of the pipeline. -/
structure Session where
  /-- The program as given. -/
  program : Block
  /-- Its arguments. -/
  args : List Int := []
  /-- The options. -/
  options : Record := []
  /-- Whether runs of the machine are to be traced. -/
  tracing : Bool := false
  /-- How far the program as given has come. -/
  given : Stage := {}
  /-- The optimized program. -/
  optimized : Option Block := none
  /-- The term that it was made from. -/
  extraction : Option Extraction := none
  /-- How far the optimized program has come. -/
  improved : Stage := {}
  /-- What each pass has to say about its work. -/
  metadata : Record := []
  /-- What was echoed. -/
  echoed : String := ""
  /-- The trace of the last run of the machine. -/
  trace : Option String := none

/-- Why an option is of no use to a pass. -/
inductive OptionError where
  /-- Two kinds of data have no order between them. -/
  | notComparable (sign left right : String)
  /-- The kind of data is no path. -/
  | notPath (kind : String)
deriving DecidableEq, Repr

/-- The wording of the error. -/
def OptionError.message : OptionError → String
  | notComparable sign left right =>
    "'" ++ sign ++ "' not supported between instances of '" ++ left ++ "' and '" ++ right ++ "'"
  | notPath kind => "expected str, bytes or os.PathLike object, not " ++ kind

/-- A limit on something that is counted: an integer, or a fraction, which is reached by the next
integer above it. -/
def countLimit : Datum → Except OptionError (Option CountLimit)
  | .null => .ok none
  | .real d => .ok (some { count := d.toRat.ceil })
  | d =>
    match d.asInt?, d.intText? with
    | some count, some text => .ok (some { count, text })
    | _, _ => .error (.notComparable ">=" "int" d.kindName)

/-- A limit on time. -/
def timeLimit : Datum → Except OptionError (Option Rat)
  | .null => .ok none
  | .real d => .ok (some d.toRat)
  | d =>
    match d.asInt? with
    | some n => .ok (some n)
    | none => .error (.notComparable ">" d.kindName "int")

/-- The budget that options set, when some iterations have been made. The limit on time is not
looked at if none are left. -/
def Budget.ofOptions (options : Record) (strict : Bool) (iterations : Int) :
    Except OptionError Budget := do
  let maxIterations ← match options.get? "iteration_limit" with
    | none => pure ({} : Budget).maxIterations
    | some d => (countLimit d).map fun limit => limit.map (·.count)
  if maxIterations.any (· ≤ iterations) then
    return { maxIterations, maxSeconds := none, strict, iterations }
  let maxSeconds ← match options.get? "time_limit" with
    | none => pure ({} : Budget).maxSeconds
    | some d => timeLimit d
  return { maxIterations, maxSeconds, strict, iterations }

namespace Session

/-- A fresh session; options that are not given have their defaults. -/
def create (program : Block) (args : List Datum) (options : Record) (tracing : Bool) :
    Except NotInteger Session := do
  let args ← args.mapM Datum.toInt
  let options := (options.putIfAbsent "optimize" (.bool true)).putIfAbsent "echo" (.bool false)
  return { program, args, options, tracing }

/-- Whether an option is set. -/
def isSet (s : Session) (name : String) : Bool :=
  (s.options.get? name).any Datum.truthy

/-- Whether runs of the machine are to be echoed. -/
def echo (s : Session) : Bool :=
  s.isSet "echo"

/-- The step limit for the machine. -/
def stepLimit (s : Session) : Except OptionError (Option CountLimit) :=
  countLimit ((s.options.get? "step_limit").getD .null)

/-- The budget for the application of rules. -/
def budget (s : Session) : Except OptionError Budget :=
  Budget.ofOptions s.options (s.isSet "strict_budget") 0

/-- Refuses a file for the trace that is given by something that is no text. -/
def checkTraceFile (s : Session) : Except OptionError Unit :=
  match s.tracing, (s.options.get? "trace_path").filter Datum.truthy with
  | true, _ | _, none | _, some (.text _) => .ok ()
  | false, some d => .error (.notPath d.kindName)

/-- Stores what a pass has to say about its work. -/
def note (s : Session) (pass : String) (fields : Record) : Session :=
  { s with metadata := s.metadata.put pass (.record fields) }

/-- Echoes a line, if runs are to be echoed. -/
def echoLine (s : Session) (line : String) : Session :=
  if s.echo then { s with echoed := s.echoed ++ line ++ "\n" } else s

end Session

end WhileLang
