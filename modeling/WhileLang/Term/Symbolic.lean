import WhileLang.Program.Refusal
import WhileLang.Term.Basic

/-!
# Symbolic execution of straight-line code

Straight-line code is executed on terms: every variable is bound to the term of its latest value,
and every print adds a link to the chain of effects. A reassignment rebinds the name, which is
right only because control flow is refused.

* `Env`: bound names in the order of their first binding.
* `Expr.term`: the term of an expression.
* `Block.extend`: the chain after a block, and the bindings up to where it stopped.
* `Block.symbolic`: what a block computes from the empty chain on.
-/

namespace WhileLang

/-- Bound names, each with the term of its value, in the order of their first binding. -/
abbrev Env := List (String × Term)

namespace Env

/-- The term that a name is bound to. -/
def get? (env : Env) (name : String) : Option Term :=
  env.lookup name

/-- Binds a name: in its old place if it is bound, else at the end. -/
def bind (env : Env) (name : String) (t : Term) : Env :=
  match env with
  | [] => [(name, t)]
  | (n, old) :: rest => if n = name then (n, t) :: rest else (n, old) :: bind rest name t

end Env

/-- The term of an expression; numbers are reduced to words. -/
def Expr.term (env : Env) : Expr → Except Refusal Term
  | var name =>
    match env.get? name with
    | some t => .ok t
    | none => .error (.unresolved name)
  | num n => .ok (.num (Word.wrap n))
  | bin op l r => do
    let left ← l.term env
    let right ← r.term env
    return .bin op left right
  | input i => do
    let index ← i.term env
    return .arg index
  | stray d => .error (.notExpression d)

/-- The chain of effects after a block that begins with `chain`, and the bindings after the last
statement that was not refused. -/
def Block.extend (env : Env) (chain : Term) : Block → Env × Except Refusal Term
  | [] => (env, .ok chain)
  | .assign x e :: rest =>
    match e.term env with
    | .ok t => Block.extend (env.bind x t) chain rest
    | .error r => (env, .error r)
  | .print e :: rest =>
    match e.term env with
    | .ok t => Block.extend env (.print chain t) rest
    | .error r => (env, .error r)
  | .cond .. :: _ => (env, .error (.controlFlow .cond))
  | .loop .. :: _ => (env, .error (.controlFlow .loop))
  | .stray d :: _ => (env, .error (.notStatement d))

/-- Whether a statement prints. -/
def Stmt.isPrint : Stmt → Bool
  | print _ => true
  | _ => false

/-- What a block computes. -/
structure SymbolicRun where
  /-- The chain of its effects. -/
  chain : Term
  /-- The bindings at its end. -/
  env : Env
  /-- How many statements it has. -/
  statements : Nat
  /-- How many of them print. -/
  prints : Nat
deriving DecidableEq, Repr

/-- What is reported about a block that was executed on terms. -/
def SymbolicRun.message (r : SymbolicRun) : String :=
  "translated " ++ toString r.statements ++ " statements (" ++ toString r.prints ++ " prints, " ++
    toString r.env.length ++ " variables)"

/-- What a block computes from the empty chain and given bindings on; the bindings are kept in
either case. -/
def Block.symbolic (env : Env) (b : Block) : Env × Except Refusal SymbolicRun :=
  match b.extend env .silent with
  | (env', .ok chain) => (env', .ok ⟨chain, env', b.length, b.countP (·.isPrint)⟩)
  | (env', .error r) => (env', .error r)

end WhileLang
