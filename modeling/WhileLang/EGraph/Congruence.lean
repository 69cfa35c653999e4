import WhileLang.EGraph.Basic

/-!
# Restoring congruence

After a merge, rows may speak of classes that others stand for now. In a round, all such stale
rows are taken out and stated anew in terms of the representatives as they were at the beginning
of the round; two rows that have become the same shape make their classes equal, which may leave
rows stale for the next round.

A round that merges nothing leaves no stale row, and every other round lowers the number of
classes, so the number of rounds is bounded by the number of classes.

* `Row.isStale`: whether a row speaks of a class that another stands for.
* `EGraph.rebuild`: rounds until no row is stale.
* `EGraph.union`: declares two terms equal.
-/

namespace WhileLang

/-- Whether a row speaks of a class that another stands for. -/
def Row.isStale (c : Classes) (r : Row) : Bool :=
  c.find r.cls != r.cls || r.shape.children.any fun i => c.find i != i

namespace EGraph

/-- Whether some row is stale. -/
def isStale (g : EGraph) : Bool :=
  g.rows.any (·.isStale g.classes)

/-- Takes out all stale rows and states them anew, in their order. -/
def rebuildRound (g : EGraph) : EGraph :=
  let stale := g.rows.filter (·.isStale g.classes)
  (stale.map (·.map g.classes.find)).foldl put (g.remove (·.isStale g.classes))

/-- At most a given number of rounds, until no row is stale. -/
def rebuildFor : Nat → EGraph → EGraph
  | 0, g => g
  | n + 1, g => if g.isStale then rebuildFor n g.rebuildRound else g

/-- Rounds until no row is stale. -/
def rebuild (g : EGraph) : EGraph :=
  rebuildFor (g.classes.size + 1) g

/-- Declares two terms equal, unless a number of them is not a word; also says whether it did. -/
def union (g : EGraph) (l r : Term) : EGraph × Bool :=
  if l.inWords then
    let g := (g.noteKinds l.wordKinds).noteKinds r.wordKinds
    if r.inWords then
      let (g, a) := g.insertTerm l
      let (g, b) := g.insertTerm r
      ((g.merge a b).rebuild, true)
    else (g, false)
  else (g.noteKinds l.wordKinds, false)

end EGraph

end WhileLang
