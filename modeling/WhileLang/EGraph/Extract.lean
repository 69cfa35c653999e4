import WhileLang.EGraph.Basic

/-!
# The cheapest term of a class

The cost of a term is the size of its tree, in which numbers and symbols weigh two and every
other node one. The least cost of each class is found by sweeps over the rows until nothing gets
cheaper. A class has its rank from the last time it got cheaper, so a row that gives the least
cost and refers to classes of lower rank only can be followed down to the leaves.

No cheapest tree passes through a class twice, so there are at most as many sweeps that change
something as there are classes.

* `Mark`: the cost and the rank of a class.
* `EGraph.marks`: the marks of all classes after the last sweep.
* `EGraph.chosen`: the row that each class is followed down by.
* `EGraph.extract?`: the cheapest term of a class, and its cost.
-/

namespace WhileLang

/-- What a constructor adds to the cost of its children. -/
def Kind.weight : Kind → Nat
  | .num | .symbol => 2
  | _ => 1

/-- The cost of a term. -/
def Term.cost : Term → Nat
  | num _ => 2
  | symbol _ => 2
  | bin _ l r => 1 + l.cost + r.cost
  | arg i => 1 + i.cost
  | silent => 1
  | print e v => 1 + e.cost + v.cost

/-- The least cost of a class that is known so far. -/
structure Mark where
  /-- The cost. -/
  cost : Nat
  /-- The number of the change that gave the cost. -/
  rank : Nat
deriving DecidableEq, Repr

/-- What is known about the classes, and the number of the next change. -/
structure Marks where
  /-- The mark of each class that has one. -/
  marks : Array (Option Mark)
  /-- The number of the next change. -/
  next : Nat := 0
deriving DecidableEq, Repr

namespace Marks

/-- The mark of a class. -/
def get? (m : Marks) (c : Nat) : Option Mark :=
  m.marks.getD c none

/-- The cost of a shape, if all its children have one. -/
def shapeCost? (m : Marks) (s : Shape) : Option Nat :=
  s.children.foldlM (fun total c => (m.get? c).map (total + ·.cost)) s.kind.weight

/-- Stores the cost that a row gives its class, if it is the first or a lower one. -/
def visit (m : Marks) (r : Row) : Marks :=
  match m.shapeCost? r.shape with
  | none => m
  | some cost =>
    if (m.get? r.cls).all (cost < ·.cost) then
      ⟨m.marks.setIfInBounds r.cls (some ⟨cost, m.next⟩), m.next + 1⟩
    else m

/-- At most a given number of sweeps over rows, until one changes nothing. -/
def sweepFor (rows : List Row) : Nat → Marks → Marks
  | 0, m => m
  | n + 1, m =>
    let m' := rows.foldl visit m
    if m'.next = m.next then m' else sweepFor rows n m'

/-- Whether a row gives its class the least cost by way of classes of lower rank. -/
def accepts (m : Marks) (r : Row) : Bool :=
  match m.get? r.cls, m.shapeCost? r.shape with
  | some mark, some cost =>
    cost = mark.cost && r.shape.children.all fun c => (m.get? c).any (·.rank < mark.rank)
  | _, _ => false

end Marks

namespace EGraph

/-- The rows in the order in which they are looked through: constructor by constructor. -/
def orderedRows (g : EGraph) : List Row :=
  g.kinds.flatMap fun k => g.rows.filter (·.shape.kind = k)

/-- The marks of all classes after the last sweep. -/
def marks (g : EGraph) : Marks :=
  Marks.sweepFor g.orderedRows (g.classes.size + 1)
    { marks := Array.replicate g.classes.size none }

/-- The shape that each class is followed down by: the first that the marks accept. -/
def chosen (g : EGraph) (m : Marks) : Array (Option Shape) :=
  g.orderedRows.foldl
    (fun table r =>
      if (table.getD r.cls none).isNone && m.accepts r then
        table.setIfInBounds r.cls (some r.shape)
      else table)
    (Array.replicate g.classes.size none)

/-- The term that a class is followed down to, along at most a given number of nodes. -/
def follow (table : Array (Option Shape)) : Nat → Nat → Option Term
  | 0, _ => none
  | n + 1, c =>
    match table.getD c none with
    | none => none
    | some (.num v) => some (.num v)
    | some (.symbol s) => some (.symbol s)
    | some (.bin op l r) => do
      let left ← follow table n l
      let right ← follow table n r
      return .bin op left right
    | some (.arg i) => do
      let index ← follow table n i
      return .arg index
    | some .silent => some .silent
    | some (.print e v) => do
      let effect ← follow table n e
      let value ← follow table n v
      return .print effect value

/-- The cheapest term of a class, and its cost. -/
def extract? (g : EGraph) (c : Nat) : Option (Term × Nat) := do
  let rep := g.classes.find c
  let m := g.marks
  let mark ← m.get? rep
  let t ← follow (g.chosen m) m.next rep
  return (t, mark.cost)

end EGraph

end WhileLang
