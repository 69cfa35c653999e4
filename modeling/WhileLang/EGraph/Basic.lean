import WhileLang.EGraph.Classes
import WhileLang.Term.Basic

/-!
# E-graphs

An e-graph holds many equal terms at once. A row says that a constructor applied to some
classes belongs to a class; the order of the rows, and the order in which constructors were
first seen, settle which of several equally good terms is chosen in the end.

The graph remembers which rows the rules have been applied to. Rows that were put in since are
recent, and a row that moves becomes recent again, so the settled rows always come first.

Numbers in a graph are words. A term with another number is not added, but its constructors up
to that number count as seen.

* `Shape`: a constructor applied to classes; `Row`: a shape and its class.
* `EGraph`: classes, rows and the constructors seen.
* `EGraph.put`: states that a shape belongs to a class.
* `EGraph.insert`, `EGraph.addTerm`: finds or makes the class of a shape, of a term.
-/

namespace WhileLang

/-- A constructor of terms, applied to classes. -/
inductive Shape where
  | num (n : Int)
  | symbol (name : String)
  | bin (op : BinOp) (left right : Nat)
  | arg (index : Nat)
  | silent
  | print (effect value : Nat)
deriving DecidableEq, Hashable, Repr

namespace Shape

/-- The constructor. -/
def kind : Shape → Kind
  | num _ => .num
  | symbol _ => .symbol
  | bin op _ _ => .bin op
  | arg _ => .arg
  | silent => .silent
  | print _ _ => .print

/-- The classes that the constructor is applied to. -/
def children : Shape → List Nat
  | num _ | symbol _ | silent => []
  | bin _ l r => [l, r]
  | arg i => [i]
  | print e v => [e, v]

/-- The constructor applied to the images of the classes. -/
def map (f : Nat → Nat) : Shape → Shape
  | num n => num n
  | symbol s => symbol s
  | bin op l r => bin op (f l) (f r)
  | arg i => arg (f i)
  | silent => silent
  | print e v => print (f e) (f v)

end Shape

/-- A shape and the class it belongs to. -/
structure Row where
  /-- The shape. -/
  shape : Shape
  /-- Its class. -/
  cls : Nat
deriving DecidableEq, Repr

/-- The row with the images of its classes. -/
def Row.map (f : Nat → Nat) (r : Row) : Row :=
  ⟨r.shape.map f, f r.cls⟩

/-- An e-graph. -/
structure EGraph where
  /-- The classes. -/
  classes : Classes := {}
  /-- The rows that the rules have been applied to; those of one constructor are in the order in
  which they were put in. -/
  settled : List Row := []
  /-- The rows put in since then, in that order. -/
  recent : List Row := []
  /-- The constructors in the order in which they were first seen. -/
  kinds : List Kind := []
deriving DecidableEq, Repr

namespace EGraph

/-- All rows, in the order in which they were put in. -/
def rows (g : EGraph) : List Row :=
  g.settled ++ g.recent

/-- Notes that a constructor has been seen. -/
def noteKind (g : EGraph) (k : Kind) : EGraph :=
  if k ∈ g.kinds then g else { g with kinds := g.kinds ++ [k] }

/-- Notes that constructors have been seen, one after the other. -/
def noteKinds (g : EGraph) (ks : List Kind) : EGraph :=
  ks.foldl noteKind g

/-- The row with a given shape. -/
def rowOf? (g : EGraph) (s : Shape) : Option Row :=
  g.rows.find? (·.shape = s)

/-- Adds a row at the end. -/
def append (g : EGraph) (r : Row) : EGraph :=
  { g with recent := g.recent ++ [r] }

/-- Takes out the rows with a property. -/
def remove (g : EGraph) (p : Row → Bool) : EGraph :=
  { g with settled := g.settled.filter (!p ·), recent := g.recent.filter (!p ·) }

/-- Merges two classes. Rows may be stale after that. -/
def merge (g : EGraph) (i j : Nat) : EGraph :=
  { g with classes := g.classes.merge i j }

/-- States that a shape belongs to a class. If the shape has a row already, the two classes are
merged, and the row moves to the end if the class stated is the smaller one. -/
def put (g : EGraph) (r : Row) : EGraph :=
  match g.rowOf? r.shape with
  | none => g.append r
  | some there =>
    let merged := g.merge there.cls r.cls
    if r.cls < there.cls then (merged.remove (·.shape = r.shape)).append r else merged

/-- The class of a shape: the one of its row, or a new one with a new row. -/
def insert (g : EGraph) (s : Shape) : EGraph × Nat :=
  match g.rowOf? s with
  | some row => (g, row.cls)
  | none =>
    let (classes, c) := g.classes.fresh
    ({ g with classes }.append ⟨s, c⟩, c)

/-- The class of a term, whose shapes are inserted children first and from left to right. -/
def insertTerm (g : EGraph) : Term → EGraph × Nat
  | .num n => g.insert (.num n)
  | .symbol s => g.insert (.symbol s)
  | .bin op l r =>
    let (g, a) := g.insertTerm l
    let (g, b) := g.insertTerm r
    g.insert (.bin op a b)
  | .arg i =>
    let (g, a) := g.insertTerm i
    g.insert (.arg a)
  | .silent => g.insert .silent
  | .print e v =>
    let (g, a) := g.insertTerm e
    let (g, b) := g.insertTerm v
    g.insert (.print a b)

/-- Adds a term and gives its class, unless a number of it is not a word. -/
def addTerm (g : EGraph) (t : Term) : EGraph × Option Nat :=
  let g := g.noteKinds t.wordKinds
  if t.inWords then
    let (g, c) := g.insertTerm t
    (g, some c)
  else (g, none)

end EGraph

end WhileLang
