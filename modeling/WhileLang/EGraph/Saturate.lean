import WhileLang.Datum
import WhileLang.EGraph.Budget
import WhileLang.EGraph.Engine
import WhileLang.Log.Line
import WhileLang.Term.Node

/-!
# Saturation

Rules are applied in iterations until one changes nothing, or until a limit of the budget is
reached. Then the cheapest term equal to a root is read off. A strict budget makes reaching its
limit an error; otherwise the term is read off the graph as far as it got. A root with a number
that is not a word is refused only when it is looked for.

A limit on iterations bounds them by itself; without one their number is bounded by the caller's
patience, and a saturation that outlasts it is unfinished.

* `Progress`, `Engine.saturateFor`: the iterations; `Engine.progress`: those that a budget allows.
* `Extraction`: the term that is read off, with what there is to say about it.
* `SaturationError`: why none is read off.
* `Progress.conclude`: what comes of the iterations; `Engine.saturate`: the whole.
-/

namespace WhileLang

/-- How far the iterations have come. -/
structure Progress (G : Type) where
  /-- The graph. -/
  graph : G
  /-- The budget. -/
  budget : Budget
  /-- Whether the last iteration changed nothing. -/
  saturated : Bool
  /-- For each iteration, whether it changed the graph. -/
  updates : List Bool

/-- Iterations for at most a given number of requests, until one changes nothing or is refused. The
clock is looked at for each request. -/
def Engine.saturateFor {G : Type} [Engine G] (rules : List Rule) :
    Nat → Clock → G → Budget → Progress G
  | 0, _, g, b => ⟨g, b, false, []⟩
  | n + 1, clock, g, b =>
    match b.request (clock 0) with
    | (false, b') => ⟨g, b', false, []⟩
    | (true, b') =>
      let g' := iterate g rules
      if updated g g' then
        let p := saturateFor rules n clock.later g' b'
        { p with updates := true :: p.updates }
      else ⟨g', b', true, [false]⟩

/-- The iterations that a budget allows. The first look at the clock is for the start. -/
def Engine.progress {G : Type} [Engine G] (g : G) (rules : List Rule) (budget : Budget)
    (clock : Clock) (patience : Nat) : Progress G :=
  let start := budget.restart (clock 0)
  saturateFor rules (start.allowance patience) clock.later g start

/-- A limit that a strict budget has reached. -/
structure BudgetExceeded where
  /-- Which limit. -/
  kind : String
  /-- What to say about it. -/
  reason : String
  /-- How many iterations were made. -/
  iterations : Int
deriving DecidableEq, Repr

/-- The wording of the error. -/
def BudgetExceeded.message (b : BudgetExceeded) : String :=
  b.reason ++ " after " ++ toString b.iterations ++ " iterations"

/-- Why no term is read off. -/
inductive SaturationError where
  /-- A strict budget has reached its limit. -/
  | budget (cause : BudgetExceeded)
  /-- A number of the root is not a word. -/
  | wideNumber
  /-- The iterations were still going on when patience ended. -/
  | unfinished
deriving DecidableEq, Repr

/-- The wording of the error. -/
def SaturationError.message : SaturationError → String
  | budget cause => cause.message
  | wideNumber => "a number of the term is not a word"
  | unfinished => "the iterations are still going on"

/-- A term read off a graph. -/
structure Extraction where
  /-- Its shared form. -/
  nodes : List Node
  /-- Its cost. -/
  cost : Nat
  /-- Whether the rules had nothing left to change. -/
  saturated : Bool
  /-- How many iterations were made. -/
  iterations : Int
  /-- The names of the rules, if they are those of arithmetic. -/
  rules : List String
  /-- The limit that was reached, and what to say about it. -/
  stopped : Option (String × String)
deriving DecidableEq, Repr

/-- What there is to say about the term, by name. -/
def Extraction.metadata (e : Extraction) : Record :=
  let stopped := match e.stopped with
    | none => []
    | some (kind, reason) =>
      [("partial", .bool true), ("partial_kind", .text kind), ("partial_reason", .text reason)]
  [("saturated", .bool e.saturated), ("iterations", .int e.iterations),
    ("rules", .list (e.rules.map .text))] ++ stopped ++ [("nodes", .int e.nodes.length)]

namespace Progress

variable {G : Type}

/-- The limit that was reached, and what to say about it. -/
def stopped (p : Progress G) : Option (String × String) :=
  if p.budget.reached then
    some (p.budget.limitKind.getD "budget", p.budget.limitReason.getD "rewrite budget exceeded")
  else none

/-- Whether the iterations neither came to an end nor reached a limit. -/
def unfinished (p : Progress G) : Bool :=
  !p.saturated && !p.budget.reached

/-- One line for each iteration. -/
def log (p : Progress G) : List LogLine :=
  p.updates.zipIdx.map fun (u, i) =>
    ⟨.debug, "rewrite iteration " ++ toString (i + 1) ++ " (updated=" ++
      (if u then "True" else "False") ++ ")"⟩

/-- The line about how the iterations ended. -/
def ending (p : Progress G) : LogLine :=
  match p.stopped with
  | some (_, reason) =>
    ⟨.warning, "rewriting stopped early (" ++ reason ++ ") after " ++
      toString p.budget.iterations ++ " iterations; extracting partial result"⟩
  | none => ⟨.info, "graph saturated after " ++ toString p.budget.iterations ++ " iterations"⟩

end Progress

/-- The result of a saturation; the graph is kept in every case. -/
structure Saturation (G : Type) where
  /-- The graph after it. -/
  graph : G
  /-- What was logged. -/
  log : List LogLine
  /-- The term read off, or why there is none. -/
  result : Except SaturationError Extraction

/-- The names under which rules are reported: only those of arithmetic are. -/
def reportedNames (rules : List Rule) : List String :=
  if rules = arithmeticRules then rules.map (·.name) else []

/-- Reads off the cheapest term equal to `root` after iterations of `rules`, unless patience has
ended or a strict budget has reached its limit. -/
def Progress.conclude {G : Type} [Engine G] (p : Progress G) (root : Term) (rules : List Rule)
    (strict : Bool) : Saturation G :=
  if p.unfinished then ⟨p.graph, p.log, .error .unfinished⟩ else
  match p.stopped, strict with
  | some (kind, reason), true =>
    ⟨p.graph, p.log, .error (.budget ⟨kind, reason, p.budget.iterations⟩)⟩
  | stopped, _ =>
    match Engine.readOff p.graph root with
    | (g', none) => ⟨g', p.log ++ [p.ending], .error .wideNumber⟩
    | (g', some (t, cost)) =>
      let nodes := t.flatten
      let line : LogLine :=
        ⟨.debug, "extracted " ++ toString nodes.length ++ " nodes (cost " ++ toString cost ++ ")"⟩
      ⟨g', p.log ++ [p.ending, line],
        .ok ⟨nodes, cost, p.saturated, p.budget.iterations, reportedNames rules, stopped⟩⟩

/-- Applies rules within a budget, then reads off the cheapest term equal to `root`. -/
def Engine.saturate {G : Type} [Engine G] (g : G) (root : Term) (rules : List Rule)
    (budget : Budget) (clock : Clock) (patience : Nat) : Saturation G :=
  (progress g rules budget clock patience).conclude root rules budget.strict

end WhileLang
