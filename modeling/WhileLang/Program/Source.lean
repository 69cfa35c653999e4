import WhileLang.Program.Basic
import WhileLang.Program.Refusal

/-!
# Source text

A program written out, one line for each simple statement and for each keyword of a compound
one. Blocks are indented one level further than the statement they belong to, and an operand
that is itself an operator node stands in parentheses.

* `Expr.source`: an expression in source text.
* `Block.lines`: the lines of a block at a level of indentation.
* `Block.source`: the text of a program.
-/

namespace WhileLang

/-- The text of an operand: in parentheses if the operand is an operator node. -/
def Expr.enclose (operand : Expr) (text : String) : String :=
  if operand.isBin then "(" ++ text ++ ")" else text

/-- The expression in source text. -/
def Expr.source : Expr → Except Refusal String
  | var name => .ok name
  | num n => .ok (toString n)
  | bin op l r => do
    let left ← l.source
    let right ← r.source
    return l.enclose left ++ " " ++ op.symbol ++ " " ++ r.enclose right
  | input i => do
    let index ← i.source
    return "args(" ++ index ++ ")"
  | stray d => .error (.notExpression d)

/-- The blanks in front of a line at a level. -/
def margin (indent : String) (level : Nat) : String :=
  String.join (List.replicate level indent)

mutual

/-- The lines of a statement that stands at a level of indentation. -/
def Stmt.lines (indent : String) (level : Nat) : Stmt → Except Refusal (List String)
  | .assign x e => do
    let value ← e.source
    return [margin indent level ++ x ++ " = " ++ value ++ ";"]
  | .print e => do
    let value ← e.source
    return [margin indent level ++ "print " ++ value ++ ";"]
  | .cond t b o => do
    let test ← t.source
    let body ← Block.lines indent (level + 1) b
    let orelse ← Block.lines indent (level + 1) o
    let alternative := if o.isEmpty then [] else (margin indent level ++ "else") :: orelse
    return (margin indent level ++ "if " ++ test ++ " then") :: body ++ alternative ++
      [margin indent level ++ "end"]
  | .loop t b => do
    let test ← t.source
    let body ← Block.lines indent (level + 1) b
    return (margin indent level ++ "while " ++ test ++ " do") :: body ++
      [margin indent level ++ "end"]
  | .stray d => .error (.notStatement d)

/-- The lines of a block that stands at a level of indentation. -/
def Block.lines (indent : String) (level : Nat) : Block → Except Refusal (List String)
  | [] => .ok []
  | s :: rest => do
    let first ← s.lines indent level
    let others ← Block.lines indent level rest
    return first ++ others

end

/-- The indentation of one level, if none is asked for. -/
def defaultIndent : String := "    "

/-- The text of a program. -/
def Block.source (b : Block) (indent : String) : Except Refusal String := do
  let lines ← Block.lines indent 0 b
  return "\n".intercalate lines

end WhileLang
