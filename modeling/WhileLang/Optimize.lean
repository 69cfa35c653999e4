import WhileLang.EGraph.Saturate
import WhileLang.Term.Residual
import WhileLang.Term.Symbolic

/-!
# Optimization

A straight-line program is executed on terms, the rules of arithmetic are applied to its chain of
effects, and the cheapest equal chain is turned back into statements.

* `OptimizeError`: why a program is not optimized.
* `Block.optimizeUsing`: the optimized program and the term it was made from, with any engine;
  `Block.optimize`: with e-graphs.
-/

namespace WhileLang

/-- Why a program is not optimized. -/
inductive OptimizeError where
  /-- The program has no term. -/
  | refused (cause : Refusal)
  /-- No term is read off the graph. -/
  | saturation (cause : SaturationError)
  /-- The term found has no residual program. -/
  | residual (cause : ResidualError)
deriving DecidableEq, Repr

/-- The wording of the error. -/
def OptimizeError.message : OptimizeError → String
  | refused cause => cause.message
  | saturation cause => cause.message
  | residual cause => cause.message

/-- An optimized program. -/
structure Optimized where
  /-- The program. -/
  program : Block
  /-- The term that it was made from. -/
  extraction : Extraction

/-- The optimized form of a straight-line program, found with an engine. -/
def Block.optimizeUsing (G : Type) [Engine G] (b : Block) (budget : Budget)
    (options : ResidualOptions) (clock : Clock) (patience : Nat) :
    Except OptimizeError Optimized :=
  match (b.symbolic []).2 with
  | .error r => .error (.refused r)
  | .ok run =>
    let graph : G := Engine.add Engine.empty run.chain
    match (Engine.saturate graph run.chain arithmeticRules budget clock patience).result with
    | .error e => .error (.saturation e)
    | .ok extraction =>
      match (residual options extraction.nodes).result with
      | .error e => .error (.residual e)
      | .ok program => .ok ⟨program, extraction⟩

/-- The optimized form of a straight-line program. -/
def Block.optimize (b : Block) (budget : Budget) (options : ResidualOptions) (clock : Clock)
    (patience : Nat) : Except OptimizeError Optimized :=
  b.optimizeUsing EGraph budget options clock patience

end WhileLang
