import WhileLang.Position
import WhileLang.Program.Basic
import WhileLang.Term.Node
import WhileLang.Text.Column

/-!
# Residual programs

A shared term is turned back into statements node by node. A node that several others refer to
is assigned to a temporary variable as soon as it is made and read from there; every other node
is put in at the one place that refers to it. A link of the effect chain becomes a print
statement. Numbers may be exempt from temporaries: they are then written wherever they are used.

Node lists from outside may be malformed, and the bench on which work stopped can be looked at.

* `Bench`: the state of the work; `ResidualError`: why it stopped.
* `useCounts`: how often each position is referred to.
* `residual`: the whole work on a node list.
-/

namespace WhileLang

/-- How statements are to be written. -/
structure ResidualOptions where
  /-- What the names of temporaries begin with; the position of the node follows. -/
  stem : String := "t"
  /-- Whether numbers are written wherever they are used. -/
  inlineNumbers : Bool := false
deriving DecidableEq, Repr

/-- Why a node list has no residual program. -/
inductive ResidualError where
  /-- There is no expression to put in for a position. -/
  | missing (id : Int)
  /-- A node has the wrong number of children. -/
  | arity (expected got : Nat)
  /-- A position that is referred to lies outside the list. -/
  | outside (cause : NoCell)
  /-- The label of a number is none. -/
  | notInteger (cause : NotInteger)
deriving DecidableEq, Repr

/-- The wording of the error. -/
def ResidualError.message : ResidualError → String
  | missing id => toString id
  | arity expected got =>
    if got < expected then
      "not enough values to unpack (expected " ++ toString expected ++ ", got " ++
        toString got ++ ")"
    else "too many values to unpack (expected " ++ toString expected ++ ")"
  | outside cause => cause.message "list index out of range"
  | notInteger cause => cause.message

/-- The state of the work. -/
structure Bench where
  /-- The positions that have a temporary, and its name. -/
  named : List (Int × String) := []
  /-- The expressions that wait for the place where they are used. -/
  waiting : List (Int × Expr) := []
  /-- The numbers that are written wherever they are used. -/
  numbers : List (Int × Int) := []
  /-- The statements written so far. -/
  written : List Stmt := []

/-- Work that may stop with an error; the bench stays as it is then. -/
abbrev Work := EStateM ResidualError Bench

/-- Counts one more use of a position. -/
def countUse (counts : List (Int × Nat)) (id : Int) : List (Int × Nat) :=
  match counts with
  | [] => [(id, 1)]
  | (i, n) :: rest => if i = id then (i, n + 1) :: rest else (i, n) :: countUse rest id

/-- How often each position is referred to, in the order of the first reference. -/
def useCounts (nodes : List Node) : List (Int × Nat) :=
  (nodes.flatMap (·.children)).foldl countUse []

namespace Work

/-- Whether a position that is referred to more than once goes without a temporary: only numbers
do, and only if they are written wherever they are used. -/
def exempt (options : ResidualOptions) (nodes : List Node) (id : Int) : Work Bool :=
  if options.inlineNumbers then
    match (position? nodes.length id).bind (nodes[·]?) with
    | some node => return node.kind == .num
    | none => throw (.outside (.of id))
  else return false

/-- Gives temporaries to the positions that need one. -/
def nameShared (options : ResidualOptions) (nodes : List Node) : List (Int × Nat) → Work Unit
  | [] => return
  | (id, count) :: rest => do
    if 1 < count then
      let without ← exempt options nodes id
      if !without then
        modify fun b => { b with named := b.named ++ [(id, options.stem ++ toString id)] }
    nameShared options nodes rest

/-- The expression for a position; one that waits for its only use is handed out once. -/
def takeExpr (id : Int) : Work Expr := do
  let b ← get
  match b.named.lookup id, b.numbers.lookup id, b.waiting.lookup id with
  | some name, _, _ => return .var name
  | none, some n, _ => return .num n
  | none, none, some e =>
    set { b with waiting := b.waiting.filter (·.1 ≠ id) }
    return e
  | none, none, none => throw (.missing id)

/-- Writes a statement. -/
def write (stmt : Stmt) : Work Unit :=
  modify fun b => { b with written := b.written ++ [stmt] }

/-- The expression that stands for the effects so far; it is never written. -/
def effectExpr : Expr := .num 0

/-- The expression of a node. -/
def exprOf (node : Node) : Work Expr :=
  match node.kind with
  | .num =>
    match Label.number node.label with
    | .ok n => return .num n
    | .error cause => throw (.notInteger cause)
  | .symbol => return .var (Label.name node.label)
  | .bin op =>
    match node.children with
    | [l, r] => do
      let left ← takeExpr l
      let right ← takeExpr r
      return .bin op left right
    | cs => throw (.arity 2 cs.length)
  | .arg =>
    match node.children with
    | [i] => do
      let index ← takeExpr i
      return .input index
    | cs => throw (.arity 1 cs.length)
  | .silent => return effectExpr
  | .print =>
    match node.children with
    | [e, v] => do
      let _ ← takeExpr e
      let value ← takeExpr v
      write (.print value)
      return effectExpr
    | cs => throw (.arity 2 cs.length)

/-- Keeps the expression of a node where it will be looked for. -/
def keep (options : ResidualOptions) (id : Int) (node : Node) (e : Expr) : Work Unit := do
  match (← get).named.lookup id with
  | some name => write (.assign name e)
  | none =>
    match options.inlineNumbers && node.kind == .num, e with
    | true, .num n => modify fun b => { b with numbers := b.numbers ++ [(id, n)] }
    | _, e => modify fun b => { b with waiting := b.waiting ++ [(id, e)] }

/-- Works off the nodes from a position on. -/
def workOff (options : ResidualOptions) : Nat → List Node → Work Unit
  | _, [] => return
  | id, node :: rest => do
    let e ← exprOf node
    keep options id node e
    workOff options (id + 1) rest

end Work

/-- The residual program of a node list, as far as work on it went. -/
structure Residual where
  /-- How often each position is referred to. -/
  counts : List (Int × Nat)
  /-- What is reported about temporaries, if there are any. -/
  remark : Option String
  /-- The bench on which work ended. -/
  bench : Bench
  /-- The statements, or why there are none. -/
  result : Except ResidualError Block

/-- What is reported about the positions that have a temporary. -/
def sharedMessage (ids : List Int) : String :=
  "materializing " ++ toString ids.length ++ " shared nodes: " ++
    Text.bracketed (ids.mergeSort (· ≤ ·))

/-- The residual program of a node list. -/
def residual (options : ResidualOptions) (nodes : List Node) : Residual :=
  let counts := useCounts nodes
  match (Work.nameShared options nodes counts).run {} with
  | .error e b => ⟨counts, none, b, .error e⟩
  | .ok _ b =>
    let remark := if b.named.isEmpty then none else some (sharedMessage (b.named.map (·.1)))
    match (Work.workOff options 0 nodes).run b with
    | .error e b' => ⟨counts, remark, b', .error e⟩
    | .ok _ b' => ⟨counts, remark, b', .ok b'.written⟩

end WhileLang
