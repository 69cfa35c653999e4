import WhileLang.EGraph.Rule

/-!
# Instances of rules

An instance of a rule is a way to choose classes for its variables so that the premises are rows
of the graph. All instances are found, batch by batch. An instance can bring something new only
if it uses a recent row, so those whose first premise is a recent row come first, then those with
the second premise as their first recent row, and so on. The instances without a recent row are
the last batch: they have been applied before, and change nothing.

Within a batch, the rows of the last premise are taken in their order, for each choice of the
rows before it; the latter are taken by their class, and in their order within a class.

* `Assignment`: the classes chosen for variables.
* `Row.matches?`: the choice under which a premise is a given row; the premises of rules are
  numbers and operators.
* `Rule.batches`: all instances.
-/

namespace WhileLang

/-- The classes chosen for variables. -/
abbrev Assignment := List (Nat × Nat)

namespace Assignment

/-- The class chosen for a variable. -/
def get (σ : Assignment) (x : Nat) : Nat :=
  (σ.lookup x).getD 0

/-- Chooses a class for a variable, if no other has been chosen for it. -/
def choose? (σ : Assignment) (x c : Nat) : Option Assignment :=
  match σ.lookup x with
  | none => some ((x, c) :: σ)
  | some c' => if c' = c then some σ else none

end Assignment

/-- The choice under which a premise is a given row, when some variables are chosen already. -/
def Row.matches? (premise row : Row) (σ : Assignment) : Option Assignment :=
  match premise.shape, row.shape with
  | .num n, .num m => if n = m then σ.choose? premise.cls row.cls else none
  | .bin op x y, .bin op' a b =>
    if op = op' then
      (σ.choose? x a).bind fun σ => (σ.choose? y b).bind fun σ => σ.choose? premise.cls row.cls
    else none
  | _, _ => none

/-- The choices under which premises are rows, the first of the first list, the second of the
second, and so on. -/
def joinRows : List Row → List (List Row) → Assignment → List Assignment
  | [], _, σ => [σ]
  | _ :: _, [], _ => []
  | [p], rows :: _, σ => rows.filterMap (p.matches? · σ)
  | p :: ps, rows :: rest, σ =>
    let candidates := (rows.filter (·.shape.kind = p.shape.kind)).mergeSort (·.cls ≤ ·.cls)
    candidates.flatMap fun row =>
      match p.matches? row σ with
      | none => []
      | some σ' => joinRows ps rest σ'

/-- For each batch of the instances of a rule with `n` premises, the rows that each premise is
looked for among. -/
def batchSources (settled recent : List Row) : Nat → List (List (List Row))
  | 0 => [[]]
  | n + 1 =>
    (recent :: List.replicate n (settled ++ recent)) ::
      (batchSources settled recent n).map (settled :: ·)

/-- All instances of a rule in a graph, batch by batch. -/
def Rule.batches (r : Rule) (g : EGraph) : List (List Assignment) :=
  (batchSources g.settled g.recent r.premises.length).map fun sources =>
    joinRows r.premises sources []

end WhileLang
