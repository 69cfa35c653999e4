/-!
# Classes of equal terms

Terms that are known to be equal form a class. Classes are numbered as they are made, and when
two are merged the smaller number stands for both.

* `Classes`: for each number ever given, the number that stands for it now.
* `Classes.find`, `Classes.fresh`, `Classes.merge`.
-/

namespace WhileLang

/-- The classes of a graph: at each position, the number of the class that stands for it now. -/
structure Classes where
  /-- The representatives. -/
  reps : Array Nat := #[]
deriving DecidableEq, Repr

namespace Classes

/-- How many numbers have been given. -/
def size (c : Classes) : Nat :=
  c.reps.size

/-- The number that stands for a class. -/
def find (c : Classes) (i : Nat) : Nat :=
  c.reps.getD i i

/-- Makes a new class. -/
def fresh (c : Classes) : Classes × Nat :=
  (⟨c.reps.push c.reps.size⟩, c.reps.size)

/-- Lets the smaller of two representatives stand for all that the larger one stood for. -/
def redirect (c : Classes) (keep drop : Nat) : Classes :=
  ⟨c.reps.map fun r => if r = drop then keep else r⟩

/-- Merges two classes. -/
def merge (c : Classes) (i j : Nat) : Classes :=
  let a := c.find i
  let b := c.find j
  if a = b then c else c.redirect (min a b) (max a b)

end Classes

end WhileLang
