import WhileLang.Term.Basic
import WhileLang.Number.Numeral

/-!
# Shared terms

A term as a list of nodes that name their children by position: every child stands before its
parent, the root is last, and equal subterms are one node. Node lists that come from outside may
break these rules.

* `Node`: a constructor, a label for numbers and symbols, and the positions of the children.
* `Term.flatten`: the shared form of a term, by recursion on the term.
* `Flattening`: the shared form in the making, with a stack of what is left to do;
  `Flattening.step`: one round, `Flattening.run`: all of them.
* `Term.flattenWithStack`: the shared form of a term, by rounds.
* `renderNodes`: a node list in writing.
-/

namespace WhileLang

/-- What a number or a symbol is labelled with. -/
inductive Label where
  | int (n : Int)
  | text (s : String)
deriving DecidableEq, Repr

namespace Label

/-- The label in writing. -/
def render : Label → String
  | int n => toString n
  | text s => s

/-- The text that a label, if there is one, stands for. -/
def name : Option Label → String
  | some l => l.render
  | none => "None"

/-- The integer that a label, if there is one, stands for. -/
def number : Option Label → Except NotInteger Int
  | some (int n) => .ok n
  | some (text s) => Numeral.read s
  | none => .error (.kind "NoneType")

end Label

/-- A node of a shared term. -/
structure Node where
  /-- The constructor. -/
  kind : Kind
  /-- The number or the symbol's name. -/
  label : Option Label := none
  /-- The positions of the children. -/
  children : List Int := []
deriving DecidableEq, Repr

/-- The position of a node, which is added at the end unless it is there. -/
def internNode (nodes : List Node) (n : Node) : List Node × Nat :=
  match nodes.idxOf? n with
  | some i => (nodes, i)
  | none => (nodes ++ [n], nodes.length)

namespace Term

/-- Adds the nodes of a term, children first and from left to right; also gives the position of
its root. -/
def flattenInto : Term → List Node → List Node × Nat
  | num n, nodes => internNode nodes { kind := .num, label := some (.int n) }
  | symbol s, nodes => internNode nodes { kind := .symbol, label := some (.text s) }
  | bin op l r, nodes =>
    let (nodes, i) := l.flattenInto nodes
    let (nodes, j) := r.flattenInto nodes
    internNode nodes { kind := .bin op, children := [i, j] }
  | arg t, nodes =>
    let (nodes, i) := t.flattenInto nodes
    internNode nodes { kind := .arg, children := [i] }
  | silent, nodes => internNode nodes { kind := .silent }
  | print e v, nodes =>
    let (nodes, i) := e.flattenInto nodes
    let (nodes, j) := v.flattenInto nodes
    internNode nodes { kind := .print, children := [i, j] }

/-- The shared form of a term. -/
def flatten (t : Term) : List Node :=
  (t.flattenInto []).1

/-- The constructor of a term. -/
def kind : Term → Kind
  | num _ => .num
  | symbol _ => .symbol
  | bin op _ _ => .bin op
  | arg _ => .arg
  | silent => .silent
  | print _ _ => .print

/-- The label of a number or a symbol. -/
def label? : Term → Option Label
  | num n => some (.int n)
  | symbol s => some (.text s)
  | _ => none

/-- What a term is made of, from left to right. -/
def parts : Term → List Term
  | num _ | symbol _ | silent => []
  | bin _ l r => [l, r]
  | arg i => [i]
  | print e v => [e, v]

end Term

/-! ## Sharing with a stack -/

namespace Flattening

/-- Something left to do for a shared form. -/
inductive Task where
  /-- The nodes of a term are to be added. -/
  | visit (t : Term)
  /-- A node is to be added, whose children are the last `arity` results. -/
  | build (kind : Kind) (arity : Nat)
deriving DecidableEq, Repr

/-- How many rounds tasks take at most: two for each node of a term. -/
def Task.rounds : List Task → Nat
  | [] => 0
  | visit t :: rest => 2 * t.kinds.length + rounds rest
  | build _ _ :: rest => rounds rest + 1

theorem Task.rounds_visit_append (ts : List Term) (rest : List Task) :
    rounds (ts.map visit ++ rest) = 2 * (ts.flatMap Term.kinds).length + rounds rest := by
  induction ts with
  | nil => simp
  | cons t ts ih =>
      simp only [List.map_cons, List.cons_append, rounds, ih, List.flatMap_cons,
        List.length_append]
      omega

end Flattening

/-- A shared form in the making. -/
structure Flattening where
  /-- The nodes so far. -/
  nodes : List Node := []
  /-- The positions of terms whose parents are still to be added, in order. -/
  results : List Int := []
  /-- What is left to do, the next first. -/
  tasks : List Flattening.Task
deriving DecidableEq, Repr

namespace Flattening

/-- The position of a node, which is added unless it is there, is one more result. -/
def intern (f : Flattening) (n : Node) : Flattening :=
  let (nodes, i) := internNode f.nodes n
  { f with nodes, results := f.results ++ [(i : Int)] }

/-- One round: a number or a symbol gets its node at once, another term after its parts, and a
node takes its children from the end of the results. -/
def step (f : Flattening) : Flattening :=
  match f.tasks with
  | [] => f
  | .build kind arity :: rest =>
    let split := f.results.length - arity
    intern { f with results := f.results.take split, tasks := rest }
      { kind, children := f.results.drop split }
  | .visit t :: rest =>
    match t.label? with
    | some label => intern { f with tasks := rest } { kind := t.kind, label := some label }
    | none => { f with tasks := t.parts.map .visit ++ .build t.kind t.parts.length :: rest }

theorem rounds_step_lt (f : Flattening) (h : f.tasks ≠ []) :
    Task.rounds f.step.tasks < Task.rounds f.tasks := by
  obtain ⟨nodes, results, tasks⟩ := f
  cases tasks with
  | nil => exact absurd rfl h
  | cons task rest =>
      cases task with
      | build kind arity => exact Nat.lt_succ_self _
      | visit t =>
          cases t with
          | num n | symbol n =>
              simp only [step, Term.label?, intern, Task.rounds, Term.kinds, List.length_singleton]
              omega
          | silent | arg i | bin op l r | print l r =>
              simp only [step, Term.label?, Task.rounds_visit_append, Task.rounds, Term.parts,
                Term.kinds, List.flatMap_cons, List.flatMap_nil, List.append_nil, List.length_cons,
                List.length_append, List.length_nil]
              omega

/-- Rounds until nothing is left to do. -/
def run (f : Flattening) : Flattening :=
  if f.tasks = [] then f else f.step.run
termination_by Task.rounds f.tasks
decreasing_by exact f.rounds_step_lt ‹_›

end Flattening

/-- The shared form of a term, made with a stack. -/
def Term.flattenWithStack (t : Term) : List Node :=
  (Flattening.run { tasks := [.visit t] }).nodes

/-! ## Node lists in writing -/

/-- A node in writing. -/
def Node.render (n : Node) : String :=
  " ".intercalate
    (n.kind.text :: (n.label.map Label.render).toList ++ n.children.map ("#" ++ toString ·))

/-- A node list in writing, one node on each line. -/
def renderNodes (nodes : List Node) : String :=
  "\n".intercalate (nodes.zipIdx.map fun (n, i) =>
    "#" ++ toString i ++ " = (" ++ n.render ++ ")")

end WhileLang
