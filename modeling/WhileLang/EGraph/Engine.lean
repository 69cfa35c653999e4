import WhileLang.EGraph.Extract
import WhileLang.EGraph.Iterate

/-!
# Engines

What saturation asks of a graph of equal terms: terms are added and declared equal, rules are
applied in iterations, it can be told whether an iteration has changed anything, and in the end a
cheapest term is read off. How the graph does this is left to it.

* `Engine`: the operations.
* `EGraph.readOff`: reads the cheapest term off an e-graph; e-graphs are an engine.
-/

namespace WhileLang

/-- The operations on a graph of equal terms that saturation is made of. -/
class Engine (G : Type) where
  /-- The graph without terms. -/
  empty : G
  /-- Adds a term, unless a number of it is not a word. -/
  add : G → Term → G
  /-- Declares two terms equal, unless a number of them is not a word. -/
  union : G → Term → Term → G
  /-- One iteration of rules. -/
  iterate : G → List Rule → G
  /-- Whether a graph is another one than before an iteration. -/
  updated : G → G → Bool
  /-- Reads the cheapest term equal to another one, which is added first, off a graph, with its
  cost; there is none if a number of the other one is not a word. -/
  readOff : G → Term → G × Option (Term × Nat)

/-- Reads the cheapest term equal to `root` off a graph, with its cost, if the numbers of `root`
are words. -/
def EGraph.readOff (g : EGraph) (root : Term) : EGraph × Option (Term × Nat) :=
  let (g, c) := g.addTerm root
  (g, c.map fun c => (g.extract? c).getD (root, root.cost))

instance : Engine EGraph where
  empty := {}
  add g t := (g.addTerm t).1
  union g l r := (g.union l r).1
  iterate := EGraph.iterate
  updated := EGraph.updated
  readOff := EGraph.readOff

end WhileLang
