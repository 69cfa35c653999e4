import Std.Data.HashMap
import WhileLang.EGraph.Instance

/-!
# Iterations

An iteration applies all instances of all rules in the graph as it stands. The instances of a
batch are applied together: the first part of the conclusion is found for all of them, then the
second, and so on, and last what follows. The class of a part is the one of its row, or one that
was given to the same shape before in the iteration, or a new one. Rows are only drafted until
all instances are done; then they are stated in their order, and congruence is restored.

* `EGraph.index`: the classes of all shapes that have a row, which `EGraph.index_getElem?` says.
* `Draft`: what an iteration is going to state.
* `EGraph.iterate`: an iteration.
* `EGraph.updated`: whether an iteration changed the graph.
-/

namespace WhileLang

/-- The class of each shape that has a row. -/
abbrev Index := Std.HashMap Shape Nat

/-- Enters a row into an index, unless its shape is there already. -/
def Index.enter (ix : Index) (r : Row) : Index :=
  ix.insertIfNew r.shape r.cls

/-- The classes of all shapes that have a row. -/
def EGraph.index (g : EGraph) : Index :=
  g.rows.foldl Index.enter {}

theorem Index.getElem?_foldl_enter (rows : List Row) (ix : Index) (s : Shape) :
    (rows.foldl Index.enter ix)[s]? =
      ix[s]?.or ((rows.find? (·.shape = s)).map (·.cls)) := by
  induction rows generalizing ix with
  | nil => simp
  | cons r rows ih =>
    rw [List.foldl_cons, ih, Index.enter, Std.HashMap.getElem?_insertIfNew]
    by_cases hs : r.shape = s
    · subst hs
      by_cases hm : r.shape ∈ ix <;> simp [hm]
    · simp [hs]

/-- The index knows of each shape what its row says. -/
theorem EGraph.index_getElem? (g : EGraph) (s : Shape) :
    g.index[s]? = (g.rowOf? s).map (·.cls) := by
  simp [index, rowOf?, Index.getElem?_foldl_enter]

/-- What an iteration is going to state. -/
structure Draft where
  /-- The classes, with those that parts have been given and those found equal. -/
  classes : Classes
  /-- The rows of the parts that have been given a new class. -/
  made : List Row := []
  /-- All rows to be stated, the latest first. -/
  rows : List Row := []
deriving DecidableEq, Repr

namespace Draft

/-- The class of a part: that of its row, or one given before, or a new one. -/
def part (ix : Index) (d : Draft) (s : Shape) : Draft × Nat :=
  match ix[s]? with
  | some c => (d, c)
  | none =>
    match d.made.find? (·.shape = s) with
    | some row => (d, row.cls)
    | none =>
      let (classes, c) := d.classes.fresh
      (⟨classes, ⟨s, c⟩ :: d.made, ⟨s, c⟩ :: d.rows⟩, c)

/-- Finds one part of the conclusion for all instances, whose choices it extends. -/
def partOfAll (ix : Index) (p : Row) : List Assignment → Draft → Draft × List Assignment
  | [], d => (d, [])
  | σ :: σs, d =>
    let (d, c) := d.part ix (p.shape.map σ.get)
    let (d, extended) := partOfAll ix p σs d
    (d, ((p.cls, c) :: σ) :: extended)

/-- Drafts what follows for one instance, unless it is there. -/
def conclude (ix : Index) (conclusion : Conclusion) (d : Draft) (σ : Assignment) : Draft :=
  match conclusion with
  | .row r =>
    let row := r.map σ.get
    if ix[row.shape]? = some row.cls then d else { d with rows := row :: d.rows }
  | .equal x y => { d with classes := d.classes.merge (σ.get x) (σ.get y) }

/-- Applies a batch of instances of a rule. -/
def applyBatch (ix : Index) (r : Rule) (d : Draft) (batch : List Assignment) : Draft :=
  let (d, σs) := r.parts.foldl (fun (d, σs) p => d.partOfAll ix p σs) (d, batch)
  σs.foldl (conclude ix r.conclusion) d

/-- Applies all instances of a rule. -/
def applyRule (g : EGraph) (ix : Index) (d : Draft) (r : Rule) : Draft :=
  (r.batches g).foldl (applyBatch ix r) d

end Draft

namespace EGraph

/-- States what an iteration has drafted; the rows that were there count as settled. -/
def accept (g : EGraph) (d : Draft) : EGraph :=
  (d.rows.reverse.foldl put
    { g with classes := d.classes, settled := g.rows, recent := [] }).rebuild

/-- One iteration. Without rules nothing is done. -/
def iterate (g : EGraph) (rules : List Rule) : EGraph :=
  if rules.isEmpty then g else
    let g := g.noteKinds (rules.flatMap Rule.kinds)
    g.accept (rules.foldl (Draft.applyRule g g.index) { classes := g.classes })

/-- Whether a graph has other rows or other classes than before. -/
def updated (before after : EGraph) : Bool :=
  before.classes ≠ after.classes || before.rows ≠ after.rows

end EGraph

end WhileLang
