import WhileLang.Proofs.Interpretation
import WhileLang.Proofs.SaturationLoop

/-!
# What an engine may do

What is proved of saturations does not depend on how an engine holds terms and finds out that they
are equal. It is enough that the engine obeys some laws. Its operations add and merge nothing but
what is true by every interpretation by which the graph was true before and, for an iteration, the
rules are valid. Nothing that is equal ceases to be. When an iteration changes nothing, nothing that
follows from the rules is missing: the equalities of the graph are those of an interpretation by
which the rules are valid. And what is read off for a root is a cheapest term that is equal to it.

From these laws it follows that a saturation reads off a term that means what the root does, and
that nothing is gained by starting again from what a saturated graph has given.

* `Engine.Reached`: the graphs that are reached from the empty one.
* `LawfulEngine`: the laws.
* `LawfulEngine.trueIn_saturate`: what a saturation leaves behind is true.
* `LawfulEngine.saturate_isOptimal`: what it reads off is a cheapest term equal to the root.
* `LawfulEngine.cost_of_again`: reading off again from a saturated result costs the same.
-/

namespace WhileLang

/-! ## The laws -/

/-- The graphs that are reached from the empty one by adding terms, declaring terms equal and
applying safe rules. -/
inductive Engine.Reached {G : Type} [Engine G] : G → Prop where
  | empty : Reached empty
  | add {g : G} (hg : Reached g) (t : Term) : Reached (add g t)
  | union {g : G} (hg : Reached g) (l r : Term) : Reached (union g l r)
  | iterate {g : G} {rules : List Rule} (hg : Reached g) (hsafe : ∀ r ∈ rules, r.Safe) :
      Reached (iterate g rules)

theorem Engine.Reached.progress {G : Type} [Engine G] {g : G} {rules : List Rule} (hg : Reached g)
    (hsafe : ∀ r ∈ rules, r.Safe) (budget : Budget) (clock : Clock) (patience : Nat) :
    Reached (progress g rules budget clock patience).graph :=
  progress_induction (P := Reached) (fun _ h => .iterate h hsafe) hg

/-- The laws that an engine obeys. -/
class LawfulEngine (G : Type) [Engine G] where
  /-- Two terms are in a graph and equal there. -/
  Equal : G → Term → Term → Prop
  /-- What a graph says is true by an interpretation. -/
  TrueIn {V : Type} : Interpretation V → G → Prop
  /-- Terms that are equal in a graph which is true mean the same. -/
  same_of_equal {V : Type} {I : Interpretation V} {g : G} {t u : Term} (h : TrueIn I g)
    (heq : Equal g t u) : I.Same t u
  /-- The empty graph says nothing. -/
  trueIn_empty {V : Type} {I : Interpretation V} {m : V} (hm : I.Good m) :
    TrueIn I (Engine.empty : G)
  /-- Adding a term says that the term means something. -/
  trueIn_add {V : Type} {I : Interpretation V} {g : G} {t : Term} {m : V} (h : TrueIn I g)
    (ht : t.inWords = true → I.Means t m) : TrueIn I (Engine.add g t)
  /-- Declaring two terms equal says that they mean the same. -/
  trueIn_union {V : Type} {I : Interpretation V} {g : G} {l r : Term} {m : V} (h : TrueIn I g)
    (hl : l.inWords = true → I.Means l m) (hr : r.inWords = true → I.Means r m) :
    TrueIn I (Engine.union g l r)
  /-- An iteration adds and merges only what follows from valid rules. -/
  trueIn_iterate {V : Type} {I : Interpretation V} {g : G} {rules : List Rule} (h : TrueIn I g)
    (hv : ∀ r ∈ rules, r.Valid I) : TrueIn I (Engine.iterate g rules)
  /-- A term that has been added is in the graph. -/
  equal_add {g : G} {t : Term} (hg : Engine.Reached g) (hw : t.inWords = true) :
    Equal (Engine.add g t) t t
  /-- Adding a term keeps what is equal. -/
  add_equal {g : G} {t u : Term} (hg : Engine.Reached g) (h : Equal g t u) (s : Term) :
    Equal (Engine.add g s) t u
  /-- An iteration keeps what is equal. -/
  iterate_equal {g : G} {rules : List Rule} {t u : Term} (hg : Engine.Reached g)
    (hsafe : ∀ r ∈ rules, r.Safe) (h : Equal g t u) : Equal (Engine.iterate g rules) t u
  /-- If an iteration changes nothing, the rules are valid by what is equal. -/
  valid_of_idle {g : G} {rules : List Rule} (hg : Engine.Reached g) (hsafe : ∀ r ∈ rules, r.Safe)
    (h : Engine.updated g (Engine.iterate g rules) = false) :
    ∃ (V : Type) (I : Interpretation V), (∀ r ∈ rules, r.Valid I) ∧
      TrueIn I (Engine.iterate g rules) ∧
      ∀ t u, I.Same t u → Equal (Engine.iterate g rules) t u
  /-- The root is added before a term is read off. -/
  readOff_fst (g : G) (root : Term) : (Engine.readOff g root).1 = Engine.add g root
  /-- A cheapest term that is equal to the root is read off, with its cost. -/
  readOff_snd {g : G} {root : Term} (hg : Engine.Reached g) (hw : root.inWords = true) :
    ∃ t, (Engine.readOff g root).2 = some (t, t.cost) ∧ Equal (Engine.add g root) t root ∧
      ∀ u, Equal (Engine.add g root) u root → t.cost ≤ u.cost

/-- A term has been read off, with its own cost. -/
structure Extraction.Gives (e : Extraction) (t : Term) : Prop where
  nodes : e.nodes = t.flatten
  cost : e.cost = t.cost

namespace LawfulEngine

open Engine

variable {G : Type} [Engine G] [LawfulEngine G]

/-- A term is equal to a root, and none that is costs less. -/
structure IsOptimal (g : G) (root t : Term) : Prop where
  equal : Equal g t root
  minimal : ∀ u, Equal g u root → t.cost ≤ u.cost

/-! ## Iterations -/

variable {V : Type} {I : Interpretation V} {m : V} {g : G} {root t t' u : Term} {rules : List Rule}
  {budget budget' : Budget} {clock clock' : Clock} {patience patience' : Nat} {e e' : Extraction}

theorem trueIn_progress (h : TrueIn I g) (hv : ∀ r ∈ rules, r.Valid I) :
    TrueIn I (progress g rules budget clock patience).graph :=
  progress_induction (P := TrueIn I) (fun _ h => trueIn_iterate h hv) h

theorem progress_equal (hg : Reached g) (hsafe : ∀ r ∈ rules, r.Safe) (h : Equal g t u) :
    Equal (progress g rules budget clock patience).graph t u :=
  (progress_induction (P := fun g => Reached g ∧ Equal g t u)
    (fun _ h => ⟨.iterate h.1 hsafe, iterate_equal h.1 hsafe h.2⟩) ⟨hg, h⟩).2

/-- If the rules had nothing left to change, they are valid by what is equal in the end. -/
theorem valid_of_saturated (hg : Reached g) (hsafe : ∀ r ∈ rules, r.Safe)
    (hsat : (progress g rules budget clock patience).saturated = true) :
    ∃ (V : Type) (I : Interpretation V), (∀ r ∈ rules, r.Valid I) ∧
      TrueIn I (progress g rules budget clock patience).graph ∧
      ∀ t u, I.Same t u → Equal (progress g rules budget clock patience).graph t u := by
  obtain ⟨g₀, hg₀, hgraph, hidle⟩ :=
    exists_idle_of_saturated (P := Reached) (fun _ h => .iterate h hsafe) hg hsat
  rw [hgraph]
  exact valid_of_idle hg₀ hsafe hidle

/-! ## Whole saturations -/

theorem reached_saturate (hg : Reached g) (hsafe : ∀ r ∈ rules, r.Safe) (root : Term) :
    Reached (saturate g root rules budget clock patience).graph := by
  have hreached := hg.progress hsafe budget clock patience
  rcases graph_saturate g root rules budget clock patience with hgraph | hgraph
  · rw [hgraph]
    exact hreached
  · rw [hgraph, readOff_fst]
    exact .add hreached root

/-- **What a saturation leaves behind is true** by every interpretation by which the graph was true
and the rules are valid. -/
theorem trueIn_saturate (h : TrueIn I g) (hv : ∀ r ∈ rules, r.Valid I)
    (hroot : root.inWords = true → I.Means root m) :
    TrueIn I (saturate g root rules budget clock patience).graph := by
  have htrue : TrueIn I (progress g rules budget clock patience).graph := trueIn_progress h hv
  rcases graph_saturate g root rules budget clock patience with hgraph | hgraph
  · rw [hgraph]
    exact htrue
  · rw [hgraph, readOff_fst]
    exact trueIn_add htrue hroot

/-- A saturation whose budget is not strict reads off a term, unless iterations are not limited and
patience ends. -/
theorem saturate_ok (hg : Reached g) (hsafe : ∀ r ∈ rules, r.Safe) (hw : root.inWords = true)
    (hs : budget.strict = false) (clock : Clock) (patience : Nat) :
    (budget.maxIterations = none ∧
        (saturate g root rules budget clock patience).result = .error .unfinished) ∨
      ∃ e, (saturate g root rules budget clock patience).result = .ok e := by
  obtain ⟨t, ht, -⟩ := readOff_snd (hg.progress hsafe budget clock patience) hw
  exact Engine.saturate_ok (by rw [ht]; exact Option.some_ne_none _) hs

/-- **What a saturation reads off is a cheapest term that is equal to the root** in the graph that
is left. -/
theorem saturate_isOptimal (hg : Reached g) (hsafe : ∀ r ∈ rules, r.Safe)
    (hw : root.inWords = true)
    (he : (saturate g root rules budget clock patience).result = .ok e) :
    ∃ t, e.Gives t ∧ IsOptimal (saturate g root rules budget clock patience).graph root t := by
  obtain ⟨hgraph, t, ht, hnodes, -⟩ := saturate_eq_ok he
  obtain ⟨t', ht', hequal, hmin⟩ := readOff_snd (hg.progress hsafe budget clock patience) hw
  obtain ⟨rfl, hcost⟩ := Prod.mk.inj (Option.some.inj (ht.symm.trans ht'))
  rw [hgraph, readOff_fst]
  exact ⟨t, ⟨hnodes, hcost⟩, hequal, hmin⟩

/-- What is equal to a root in the graph that a saturation leaves means what the root does. -/
theorem means_of_equal (h : TrueIn I g) (hv : ∀ r ∈ rules, r.Valid I) (hroot : I.Means root m)
    (ht : Equal (saturate g root rules budget clock patience).graph t root) : I.Means t m := by
  obtain ⟨m', htm, hrm⟩ := same_of_equal (trueIn_saturate h hv fun _ => hroot) ht
  rwa [hroot.unique hrm]

/-- What was equal before is equal in the graph from which a term is read off. -/
theorem saturate_equal (hg : Reached g) (hsafe : ∀ r ∈ rules, r.Safe)
    (he : (saturate g root rules budget clock patience).result = .ok e) (h : Equal g t u) :
    Equal (saturate g root rules budget clock patience).graph t u := by
  rw [(saturate_eq_ok he).1, readOff_fst]
  exact add_equal (hg.progress hsafe budget clock patience) (progress_equal hg hsafe h) root

/-! ## Reading off again -/

/-- **Reading off again costs the same.** If a cheapest term has been read off a saturated graph
that was made of a root, then whatever is made of this term with the same rules, saturated or not, a
term of the same cost is read off. -/
theorem cost_of_again (hsafe : ∀ r ∈ rules, r.Safe) (hroot : root.inWords = true)
    (he : (saturate (add empty root : G) root rules budget clock patience).result = .ok e)
    (hsat : e.saturated = true)
    (ht : IsOptimal (saturate (add empty root : G) root rules budget clock patience).graph root t)
    (hw : t.inWords = true)
    (he' : (saturate (add empty t : G) t rules budget' clock' patience').result = .ok e')
    (ht' : IsOptimal (saturate (add empty t : G) t rules budget' clock' patience').graph t t') :
    t'.cost = t.cost := by
  have hstart : Reached (add empty root : G) := .add .empty root
  obtain ⟨hgraph, -, -, -, hsaturated, -⟩ := saturate_eq_ok he
  obtain ⟨V, I, hv, htrue, hequal⟩ := valid_of_saturated hstart hsafe (hsaturated.symm.trans hsat)
  -- the root was there from the beginning, so it means something by the saturated graph
  obtain ⟨m, hm, -⟩ := same_of_equal htrue (progress_equal hstart hsafe (equal_add .empty hroot))
  have htm : I.Means t m := means_of_equal (trueIn_add (trueIn_empty hm.good) fun _ => hm) hv hm
    ht.equal
  have htm' : I.Means t' m := means_of_equal (trueIn_add (trueIn_empty hm.good) fun _ => htm) hv
    htm ht'.equal
  refine Nat.le_antisymm (ht'.minimal t ?_) (ht.minimal t' ?_)
  · exact saturate_equal (.add .empty t) hsafe he' (equal_add .empty hw)
  · rw [hgraph, readOff_fst]
    have hend := hstart.progress hsafe budget clock patience
    exact add_equal hend (hequal t' root ⟨m, htm', hm⟩) root

end LawfulEngine

end WhileLang
