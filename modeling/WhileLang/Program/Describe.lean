import WhileLang.Program.Basic
import WhileLang.Text.Quoted

/-!
# Descriptions of nodes

A message about a misplaced node shows the node in constructor form: the kind of the node and
its fields by name, with names in quotes and blocks as lists.

* `Expr.describe`, `Stmt.describe`, `Block.describe`.
-/

namespace WhileLang

/-- The operator in constructor form: its name, and its sign in quotes. -/
def BinOp.describe (op : BinOp) : String :=
  "<BinOp." ++ op.label ++ ": '" ++ op.symbol ++ "'>"

/-- The expression in constructor form. -/
def Expr.describe : Expr → String
  | var name => "Var(name=" ++ Text.quote name ++ ")"
  | num n => "Num(value=" ++ toString n ++ ")"
  | bin op l r =>
    "BinaryOp(op=" ++ op.describe ++ ", left=" ++ l.describe ++ ", right=" ++ r.describe ++ ")"
  | input i => "Input(index=" ++ i.describe ++ ")"
  | stray d => d

mutual

/-- The statement in constructor form. -/
def Stmt.describe : Stmt → String
  | .assign x e => "Assign(target=" ++ (Expr.var x).describe ++ ", value=" ++ e.describe ++ ")"
  | .print e => "Print(value=" ++ e.describe ++ ")"
  | .cond t b o =>
    "If(test=" ++ t.describe ++ ", body=Block(statements=[" ++ Block.describeItems b ++
      "]), orelse=Block(statements=[" ++ Block.describeItems o ++ "]))"
  | .loop t b =>
    "While(test=" ++ t.describe ++ ", body=Block(statements=[" ++ Block.describeItems b ++ "]))"
  | .stray d => d

/-- The statements of a block in constructor form, separated by a comma and a blank. -/
def Block.describeItems : Block → String
  | [] => ""
  | [s] => s.describe
  | s :: rest => s.describe ++ ", " ++ Block.describeItems rest

end

/-- The block in constructor form. -/
def Block.describe (b : Block) : String :=
  "Block(statements=[" ++ Block.describeItems b ++ "])"

end WhileLang
