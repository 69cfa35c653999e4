import WhileLang.EGraph.Congruence

/-!
# Rules

A rule says what follows when some rows are there. Its premises and what follows are rows whose
numbers are variables. An equation of two terms becomes a rule by giving a variable to the class
of every operator and number in it: the rows of the left side are the premises, and the row of
the right side follows for the class of the left one.

* `Rule`: premises, the parts of the conclusion, and the conclusion.
* `arithmeticRules`: the rules of integer arithmetic that hold in words too.
-/

namespace WhileLang

/-- What follows from a rule: a row, or that two classes are equal. -/
inductive Conclusion where
  | row (row : Row)
  | equal (x y : Nat)
deriving DecidableEq, Repr

/-- A rule. The numbers in its rows are variables for classes. -/
structure Rule where
  /-- The name of the rule. -/
  name : String
  /-- The rows that must be there. -/
  premises : List Row
  /-- The parts of the conclusion; the class of each is a new variable. -/
  parts : List Row := []
  /-- What follows. -/
  conclusion : Conclusion
deriving DecidableEq, Repr

/-- The constructors of a rule. -/
def Rule.kinds (r : Rule) : List Kind :=
  let concluded := match r.conclusion with
    | .row row => [row]
    | .equal _ _ => []
  (r.premises ++ r.parts ++ concluded).map (·.shape.kind)

/-- The rules of integer arithmetic. Of the variables, `a`, `b` and `c` are those of the equation;
`l` is the class of the whole left side and `m` that of its part, and the parts of the right side
have the classes `x` and `y`. -/
def arithmeticRules : List Rule :=
  let a : Nat := 0
  let b : Nat := 1
  let c : Nat := 2
  let l : Nat := 3
  let m : Nat := 4
  let x : Nat := 5
  let y : Nat := 6
  [ -- a + b = b + a
   { name := "add-comm", premises := [⟨.bin .add a b, l⟩], conclusion := .row ⟨.bin .add b a, l⟩ },
   -- a * b = b * a
   { name := "mul-comm", premises := [⟨.bin .mul a b, l⟩], conclusion := .row ⟨.bin .mul b a, l⟩ },
   -- a + 0 = a
   { name := "add-0", premises := [⟨.num 0, m⟩, ⟨.bin .add a m, l⟩], conclusion := .equal a l },
   -- a * 1 = a
   { name := "mul-1", premises := [⟨.num 1, m⟩, ⟨.bin .mul a m, l⟩], conclusion := .equal a l },
   -- a - a = 0
   { name := "sub-self", premises := [⟨.bin .sub a a, l⟩], conclusion := .row ⟨.num 0, l⟩ },
   -- a * (b + c) = a * b + a * c
   { name := "mul-dist-add", premises := [⟨.bin .add b c, m⟩, ⟨.bin .mul a m, l⟩],
     parts := [⟨.bin .mul a b, x⟩, ⟨.bin .mul a c, y⟩], conclusion := .row ⟨.bin .add x y, l⟩ },
   -- (a - b) - c = (a - c) - b
   { name := "sub-reorder", premises := [⟨.bin .sub a b, m⟩, ⟨.bin .sub m c, l⟩],
     parts := [⟨.bin .sub a c, x⟩], conclusion := .row ⟨.bin .sub x b, l⟩ },
   -- a * 2 = a + a
   { name := "mul-two", premises := [⟨.num 2, m⟩, ⟨.bin .mul a m, l⟩],
     conclusion := .row ⟨.bin .add a a, l⟩ }]

end WhileLang
