import WhileLang.Datum
import WhileLang.Log.Line
import WhileLang.Text.Blank

/-!
# Passes and their schedule

A pass has a name, a place in the order and something that it does to the state. Passes are run
by ascending place, and by name where places are equal. A run may leave some out or pick some;
names are compared without the blanks around them. The first pass that fails ends the run.

* `Pass`, `PassSet`: a pass, and passes of which each name has one.
* `PassSet.schedule`: the passes to be run, in order.
* `PassSet.run`: runs them; `RunReport` says how far it came.
-/

namespace WhileLang

/-- What a pass has done. -/
structure PassResult (σ ε : Type) where
  /-- The state that it leaves. -/
  state : σ
  /-- What it logged. -/
  log : List LogLine := []
  /-- Why it failed. -/
  error : Option ε := none

/-- A pass over a state of type `σ` that may fail with an error of type `ε`. Places in the order may
be numbers of any kind. -/
structure Pass (σ ε : Type) (ω : Type := Rat) where
  /-- Its name. -/
  name : String
  /-- Its place in the order. -/
  order : ω
  /-- What it does. -/
  run : σ → PassResult σ ε

/-- Passes with different names. -/
abbrev PassSet (σ ε : Type) (ω : Type := Rat) := List (Pass σ ε ω)

/-- How far a run came. -/
structure RunReport (σ ε : Type) where
  /-- The state after it. -/
  state : σ
  /-- The names of the passes that were finished, in order. -/
  finished : List String := []
  /-- What was logged. -/
  log : List LogLine := []
  /-- The pass that failed, and why. -/
  failure : Option (String × ε) := none

/-- Names as they are compared: without the empty ones and without the blanks around them. -/
def cleanNames (names : List String) : List String :=
  (names.filter (· ≠ "")).map Text.strip

/-- The parts of a summary: counts that are integers, and marks that are set. -/
def summaryParts (metadata : Record) : List String :=
  let count (key label : String) : List String :=
    (((metadata.get? key).bind Datum.intText?).map (label ++ "=" ++ ·)).toList
  let mark (key : String) : List String :=
    if (metadata.get? key).any Datum.truthy then [key ++ "=true"] else []
  count "instructions" "ops" ++ count "printed" "printed" ++ count "iterations" "iterations" ++
    mark "partial" ++ mark "skipped"

/-- The line that is logged when a pass is finished. -/
def completedLine (name : String) (metadata : Option Datum) : LogLine :=
  let parts := match metadata with
    | some (.record fields) => summaryParts fields
    | _ => []
  let summary := if parts.isEmpty then "" else " (" ++ ", ".intercalate parts ++ ")"
  ⟨.info, "pass " ++ name ++ " completed" ++ summary⟩

section

variable {σ ε ω : Type}

/-- Whether one pass is to be run no later than another. -/
def Pass.precedes [LT ω] [DecidableLT ω] [DecidableEq ω] (p q : Pass σ ε ω) : Bool :=
  p.order < q.order || (p.order == q.order && p.name ≤ q.name)

namespace PassSet

/-- Adds a pass in place of an earlier one with its name. -/
def add (ps : PassSet σ ε ω) (p : Pass σ ε ω) : PassSet σ ε ω :=
  ps.filter (·.name ≠ p.name) ++ [p]

/-- The passes to be run, in order: without those to be skipped, and only the picked ones if any
are. -/
def schedule [LT ω] [DecidableLT ω] [DecidableEq ω] (ps : PassSet σ ε ω)
    (skip only : List String) : List (Pass σ ε ω) :=
  let skip := cleanNames skip
  let only := cleanNames only
  (ps.filter fun p => !skip.contains p.name && (only.isEmpty || only.contains p.name)).mergeSort
    Pass.precedes

/-- Runs passes one after the other up to the first that fails. -/
def runAll (metadata : σ → Record) : List (Pass σ ε ω) → σ → RunReport σ ε
  | [], s => { state := s }
  | p :: rest, s =>
    let result := p.run s
    match result.error with
    | some e => { state := result.state, log := result.log, failure := some (p.name, e) }
    | none =>
      let line := completedLine p.name ((metadata result.state).get? p.name)
      let report := runAll metadata rest result.state
      { report with
        finished := p.name :: report.finished
        log := result.log ++ line :: report.log }

/-- Runs the scheduled passes. -/
def run [LT ω] [DecidableLT ω] [DecidableEq ω] (ps : PassSet σ ε ω) (metadata : σ → Record)
    (skip only : List String) (s : σ) : RunReport σ ε :=
  runAll metadata (ps.schedule skip only) s

end PassSet

end

end WhileLang
