import WhileLang.Text.Quoted

/-!
# Refused programs

Why a program cannot be written out, compiled or turned into terms. The first offending node in
reading order is the one that is reported.

* `Construct`: the statements that steer control.
* `Refusal`, `Refusal.message`: the causes and their wording.
-/

namespace WhileLang

/-- The statements that steer control. -/
inductive Construct where
  | cond
  | loop
deriving DecidableEq, Repr

/-- The keyword that opens the statement. -/
def Construct.keyword : Construct → String
  | cond => "if"
  | loop => "while"

/-- Why a program is refused. -/
inductive Refusal where
  /-- The described node stands in the place of an expression. -/
  | notExpression (description : String)
  /-- The described node stands in the place of a statement. -/
  | notStatement (description : String)
  /-- A variable is read that has no value to read. -/
  | unresolved (name : String)
  /-- Control flow where only straight-line statements have a meaning. -/
  | controlFlow (construct : Construct)
deriving DecidableEq, Repr

/-- The wording of the refusal. -/
def Refusal.message : Refusal → String
  | notExpression d => "Unsupported expression: " ++ d
  | notStatement d => "Unsupported statement: " ++ d
  | unresolved name => "variable " ++ Text.quote name ++ " has no assigned slot"
  | controlFlow c => "unsupported construct in value graph translation: " ++ c.keyword

end WhileLang
