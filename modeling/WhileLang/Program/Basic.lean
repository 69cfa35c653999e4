import WhileLang.Number.Word

/-!
# Programs

The language has integer expressions and four statements. A program is a block of statements.

A program may come from outside with a node where it does not belong: a statement in the place
of an expression, an expression in the place of a statement, or a bare text. Such a node can
only be reported, so the place is taken by a `stray` leaf that keeps its description.

* `BinOp`: the five operators; `BinOp.eval` is their arithmetic on words.
* `Expr`, `Stmt`, `Block`: the nodes.
* `Expr.WellFormed`, `Stmt.WellFormed`, `Block.WellFormed`: no node is misplaced.
-/

namespace WhileLang

/-- The operators on two integers. -/
inductive BinOp where
  | add
  | sub
  | mul
  /-- Less than: one if it holds and zero if not. -/
  | lt
  /-- Greater than: one if it holds and zero if not. -/
  | gt
deriving DecidableEq, Hashable, Repr

namespace BinOp

/-- The sign of the operator in source text. -/
def symbol : BinOp → String
  | add => "+"
  | sub => "-"
  | mul => "*"
  | lt => "<"
  | gt => ">"

/-- The capital name of the operator in the description of a node. -/
def label : BinOp → String
  | add => "ADD"
  | sub => "SUB"
  | mul => "MUL"
  | lt => "LT"
  | gt => "GT"

/-- All operators, in the order in which they are declared. -/
def all : List BinOp :=
  [add, sub, mul, lt, gt]

/-- The operator with a given sign. -/
def ofSymbol? (s : String) : Option BinOp :=
  all.find? (·.symbol == s)

/-- The value of an operator: arithmetic wraps to a word. -/
def eval : BinOp → Int → Int → Int
  | add, a, b => Word.wrap (a + b)
  | sub, a, b => Word.wrap (a - b)
  | mul, a, b => Word.wrap (a * b)
  | lt, a, b => if a < b then 1 else 0
  | gt, a, b => if a > b then 1 else 0

theorem ofSymbol?_symbol (op : BinOp) : ofSymbol? op.symbol = some op := by
  cases op <;> decide

end BinOp

/-- Expressions. -/
inductive Expr where
  /-- The value of a variable. -/
  | var (name : String)
  /-- An integer of any size. -/
  | num (value : Int)
  /-- An operator on the values of two expressions. -/
  | bin (op : BinOp) (left right : Expr)
  /-- The program argument at the position that `index` gives. -/
  | input (index : Expr)
  /-- A node that is no expression, by its description. -/
  | stray (description : String)
deriving DecidableEq, Repr

/-- Statements. -/
inductive Stmt where
  /-- Gives a variable the value of an expression. -/
  | assign (target : String) (value : Expr)
  /-- Prints the value of an expression. -/
  | print (value : Expr)
  /-- Runs `body` if the test is not zero, and `orelse` if it is. -/
  | cond (test : Expr) (body orelse : List Stmt)
  /-- Runs `body` as long as the test is not zero. -/
  | loop (test : Expr) (body : List Stmt)
  /-- A node that is no statement, by its description. -/
  | stray (description : String)
deriving Repr

/-- Statements that run one after the other; a program is its block. -/
abbrev Block := List Stmt

/-- An operator node; in source text it takes parentheses as an operand. -/
def Expr.isBin : Expr → Bool
  | bin .. => true
  | _ => false

/-- No node inside the expression is misplaced. -/
def Expr.WellFormed : Expr → Prop
  | var _ => True
  | num _ => True
  | bin _ l r => l.WellFormed ∧ r.WellFormed
  | input i => i.WellFormed
  | stray _ => False

mutual

/-- No node inside the statement is misplaced. -/
def Stmt.WellFormed : Stmt → Prop
  | .assign _ e => e.WellFormed
  | .print e => e.WellFormed
  | .cond t b o => t.WellFormed ∧ Block.WellFormed b ∧ Block.WellFormed o
  | .loop t b => t.WellFormed ∧ Block.WellFormed b
  | .stray _ => False

/-- No node inside the block is misplaced. -/
def Block.WellFormed : Block → Prop
  | [] => True
  | s :: rest => s.WellFormed ∧ Block.WellFormed rest

end

end WhileLang
