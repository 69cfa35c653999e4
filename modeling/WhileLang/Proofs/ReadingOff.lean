import WhileLang.Proofs.GraphLaws
import WhileLang.Proofs.IterationLimit
import WhileLang.Proofs.Sharing

/-!
# Reading off a cheapest term

What a saturation reads off is a cheapest term of the class of its root, although the class may have
infinitely many terms. The longer the iterations go on, the cheaper it gets: whatever was
represented in the class of the root still is after more of them, so there is only more to choose
from. For the same reason it never costs more than the root itself.

That nothing is lost is seen by looking back from the later graph. By its classes everything is true
that any earlier graph says, so these classes are a model of the earlier graph, also with the root
added. A term in the class of the root there means the class of the root here, and is represented in
it.

* `EGraph.Tidy.represents_after`: iterations lose no term of the class of the root.
* `EGraph.Grown`: graphs built by adding terms, declaring terms equal and saturating.
* `EGraph.Grown.saturate_cheapest`: what a saturation reads off is optimal, and gets no more
  expensive with a higher limit on iterations.
-/

namespace WhileLang

namespace EGraph

variable {g : EGraph} {t root : Term} {c c' : Nat}

/-! ## Iterations lose nothing -/

variable {rules : List Rule} {n : Nat}

theorem Tidy.after (h : g.Tidy) (hne : ∀ r ∈ rules, r.premises ≠ []) (n : Nat) :
    (g.after rules n).Tidy := by
  induction n generalizing g with
  | zero => exact h
  | succ n ih => exact ih (h.iterate hne)

theorem satisfies_of_after {V : Type} {I : Interpretation V} {μ : Nat → V} (hg : g.Tidy)
    (hne : ∀ r ∈ rules, r.premises ≠ [])
    (h : Satisfies I μ (g.after rules n).classes (g.after rules n).rows) :
    Satisfies I μ g.classes g.rows := by
  induction n generalizing g with
  | zero => exact h
  | succ n ih => exact (Satisfies.of_iterate hg hne (ih (hg.iterate hne) h)).1

/-- **Iterations lose nothing**: what is in the class of the root stays there. -/
theorem Tidy.represents_after (h : g.Tidy) (hne : ∀ r ∈ rules, r.premises ≠ [])
    (hc : (g.addTerm root).2 = some c) (hc' : ((g.after rules n).addTerm root).2 = some c')
    (ht : (g.addTerm root).1.Represents t c) :
    ((g.after rules n).addTerm root).1.Represents t c' := by
  have htidy := (h.after hne n).addTerm root
  -- the classes of the later graph are a model of the earlier one
  obtain ⟨hlater, hroot⟩ := Satisfies.of_addTerm htidy.satisfies_ofGraph
  have hmodels := h.models_of_satisfies (satisfies_of_after h hne hlater)
  obtain ⟨μ, hμ, hclass⟩ := hmodels.addTerm fun _ => hroot c' hc'
  have hmeans := hμ.satisfies.means_of_represents ht
  rw [hclass c hc] at hmeans
  exact (represents_of_means hmeans).of_find_eq (htidy.models.find_find c')

/-- After more iterations, what is read off costs no more. -/
theorem Tidy.cost_le_of_after {m k k' : Nat} {t' : Term} (h : g.Tidy)
    (hne : ∀ r ∈ rules, r.premises ≠ []) (hw : root.inWords = true) (hmn : m ≤ n)
    (ht : ((g.after rules m).readOff root).2 = some (t, k))
    (ht' : ((g.after rules n).readOff root).2 = some (t', k')) : k' ≤ k := by
  obtain ⟨d, rfl⟩ := Nat.exists_eq_add_of_le hmn
  rw [after_add] at ht'
  have htidy := h.after hne m
  obtain ⟨c, hc⟩ := exists_class hw (g.after rules m)
  obtain ⟨c', hc'⟩ := exists_class hw ((g.after rules m).after rules d)
  obtain ⟨u, hu, hrep, -, -⟩ := htidy.readOff_cheapest hc
  obtain ⟨u', hu', -, -, hmin⟩ := (htidy.after hne d).readOff_cheapest hc'
  obtain ⟨rfl, rfl⟩ := Prod.mk.inj (Option.some.inj (hu.symm.trans ht))
  obtain ⟨rfl, rfl⟩ := Prod.mk.inj (Option.some.inj (hu'.symm.trans ht'))
  exact hmin u (htidy.represents_after hne hc hc' hrep)

/-! ## Saturation -/

/-- The graphs that are built from nothing by adding terms, declaring terms equal and saturating. -/
inductive Grown : EGraph → Prop where
  | empty : Grown {}
  | add {g : EGraph} (hg : Grown g) (t : Term) : Grown (g.addTerm t).1
  | union {g : EGraph} (hg : Grown g) (l r : Term) : Grown (g.union l r).1
  | saturate {g : EGraph} {rules : List Rule} (hg : Grown g)
      (hne : ∀ r ∈ rules, r.premises ≠ []) (root : Term) (budget : Budget) (clock : Clock)
      (patience : Nat) : Grown (Engine.saturate g root rules budget clock patience).graph

theorem Grown.tidy (h : Grown g) : g.Tidy := by
  induction h with
  | empty => exact tidy_empty
  | add _ t ih => exact ih.addTerm t
  | union _ l r ih => exact ih.union l r
  | @saturate g rules _ hne root budget clock patience ih =>
      have htidy : (Engine.progress g rules budget clock patience).graph.Tidy := ih.progress hne
      rcases Engine.graph_saturate g root rules budget clock patience with hgraph | hgraph
      · rw [hgraph]
        exact htidy
      · rw [hgraph]
        exact htidy.addTerm root

/-- The term is in the class of the root, and no term of this class is cheaper. -/
structure IsCheapest (g : EGraph) (root t : Term) : Prop where
  exists_class : ∃ c, g.Represents root c
  represents : ∀ c, g.Represents root c → g.Represents t c
  minimal : ∀ c u, g.Represents root c → g.Represents u c → t.cost ≤ u.cost

theorem IsCheapest.cost_le (h : g.IsCheapest root t) : t.cost ≤ root.cost := by
  obtain ⟨c, hc⟩ := h.exists_class
  exact h.minimal c root hc hc

/-- What is read off for a root is a cheapest term of its class in the graph that is left. -/
theorem Tidy.readOff_isCheapest (h : g.Tidy) (hw : root.inWords = true) :
    ∃ t, (g.readOff root).2 = some (t, t.cost) ∧ (g.readOff root).1.IsCheapest root t := by
  obtain ⟨c, hc⟩ := exists_class hw g
  obtain ⟨t, ht, hrep, -, hmin⟩ := h.readOff_cheapest hc
  have htidy := h.addTerm root
  have hroot := h.represents_addTerm hc
  refine ⟨t, ht, ⟨c, hroot⟩, ?_, ?_⟩
  · intro c' hc'
    exact hrep.of_find_eq (htidy.find_eq_of_represents hroot hc')
  · intro c' u hc' hu
    exact hmin u (hu.of_find_eq (htidy.find_eq_of_represents hc' hroot))

/-- What a saturation reads off is a cheapest term of the class of its root in the graph that is
left. -/
theorem Tidy.saturate_isCheapest {budget : Budget} {clock : Clock} {patience : Nat} {e : Extraction}
    (h : g.Tidy) (hne : ∀ r ∈ rules, r.premises ≠ []) (hw : root.inWords = true)
    (he : (Engine.saturate g root rules budget clock patience).result = .ok e) :
    ∃ t, e.Gives t ∧
      (Engine.saturate g root rules budget clock patience).graph.IsCheapest root t := by
  have htidy : (Engine.progress g rules budget clock patience).graph.Tidy := h.progress hne
  obtain ⟨hgraph, t, ht, hnodes, -⟩ := Engine.saturate_eq_ok he
  obtain ⟨t', ht', hcheapest⟩ := htidy.readOff_isCheapest hw
  obtain ⟨rfl, hcost⟩ := Prod.mk.inj (Option.some.inj (ht.symm.trans ht'))
  rw [hgraph]
  exact ⟨t, ⟨hnodes, hcost⟩, hcheapest⟩

/-- **Extraction is optimal and improves with the limit.** In a graph that is built by adding terms,
declaring terms equal and saturating, let a root be saturated. Whatever the clock shows, something
is read off if the budget is not strict, unless iterations are not limited and patience ends. The
cost that is reported is that of the tree which the nodes unfold to, this tree is a cheapest term of
the class of the root in the graph that is left, and it costs no more than the root. If only limits
on iterations decide, a higher limit never leads to a higher cost. -/
theorem Grown.saturate_cheapest (hg : Grown g) (hne : ∀ r ∈ rules, r.premises ≠ [])
    (hw : root.inWords = true) :
    (∀ (budget : Budget) (clock : Clock) (patience : Nat), budget.strict = false →
      (budget.maxIterations = none ∧
        (Engine.saturate g root rules budget clock patience).result = .error .unfinished) ∨
      ∃ e t, (Engine.saturate g root rules budget clock patience).result = .ok e ∧
        Unfolds e.nodes (e.nodes.length - 1) t ∧ e.cost = t.cost ∧
        (Engine.saturate g root rules budget clock patience).graph.IsCheapest root t ∧
        e.cost ≤ root.cost) ∧
    ∀ (budget budget' : Budget) (clock clock' : Clock) (patience patience' : Nat)
      (e e' : Extraction), budget.Decides g rules clock patience →
      budget'.Decides g rules clock' patience' → budget.limit ≤ budget'.limit →
      (Engine.saturate g root rules budget clock patience).result = .ok e →
      (Engine.saturate g root rules budget' clock' patience').result = .ok e' →
        e'.cost ≤ e.cost := by
  constructor
  · intro budget clock patience hs
    refine (Engine.saturate_ok (readOff_ne_none hw _) hs).imp_right ?_
    rintro ⟨e, he⟩
    obtain ⟨t, hgives, hcheapest⟩ := hg.tidy.saturate_isCheapest hne hw he
    refine ⟨e, t, he, ?_, hgives.cost, hcheapest, ?_⟩
    · rw [hgives.nodes]
      exact t.flatten_unfolds
    · rw [hgives.cost]
      exact hcheapest.cost_le
  · intro budget budget' clock clock' patience patience' e e' hd hd' hle he he'
    obtain ⟨n, hn, t, ht, -⟩ := readOff_of_saturate hd he
    obtain ⟨n', hn', t', ht', -⟩ := readOff_of_saturate hd' he'
    have hnn : n ≤ n' := by
      rw [← ENat.natCast_le_natCast, hn, hn']
      exact min_le_min_right _ hle
    exact hg.tidy.cost_le_of_after hne hw hnn ht ht'

/-- A symbol, and the symbol plus zero. -/
def symbolAndSum : Term × Term :=
  (.symbol "x", .bin .add (.symbol "x") (.num 0))

/-- The graph in which the two are declared equal, so that a class has a row which refers to it. -/
def symbolIsSum : EGraph :=
  (EGraph.union {} symbolAndSum.1 symbolAndSum.2).1

/-- The limit of no iterations leaves the graph as it is. -/
theorem symbolIsSum_saturate :
    let s := Engine.saturate symbolIsSum symbolAndSum.2 arithmeticRules
      { maxIterations := some 0 } twoSeconds 0
    s.graph.rows = [⟨.symbol "x", 0⟩, ⟨.num 0, 1⟩, ⟨.bin .add 0 1, 0⟩] := by
  decide +kernel

/-- The sum costs five, but it is the symbol that is read off, whether or not an iteration is
made. -/
theorem symbolIsSum_cheapest :
    ∃ e e', (Engine.saturate symbolIsSum symbolAndSum.2 arithmeticRules
        { maxIterations := some 0 } twoSeconds 0).result = .ok e ∧
      (Engine.saturate symbolIsSum symbolAndSum.2 arithmeticRules
        { maxIterations := some 1 } twoSeconds 0).result = .ok e' ∧
      e.cost ≤ 2 ∧ e'.cost ≤ e.cost := by
  have hgrown : Grown symbolIsSum := Grown.empty.union symbolAndSum.1 symbolAndSum.2
  have hw : symbolAndSum.2.inWords = true := by decide
  obtain ⟨hcheapest, himproves⟩ := hgrown.saturate_cheapest arithmeticRules_premises hw
  rcases hcheapest { maxIterations := some 0 } twoSeconds 0 rfl with
    ⟨hmax, -⟩ | ⟨e, t, he, -, hcost, hmin, -⟩
  · cases hmax
  rcases hcheapest { maxIterations := some 1 } twoSeconds 0 rfl with ⟨hmax, -⟩ | ⟨e', -, he', -⟩
  · cases hmax
  refine ⟨e, e', he, he', ?_, ?_⟩
  · have hrows := symbolIsSum_saturate
    rw [hcost]
    refine hmin.minimal 0 (.symbol "x") ?_ ?_
    · exact .bin (i := 0) (j := 1) (k := 0) (by simp [hrows]) rfl
        (.symbol (k := 0) (by simp [hrows]) rfl) (.num (k := 1) (by simp [hrows]) rfl)
    · exact .symbol (k := 0) (by simp [hrows]) rfl
  · refine himproves _ _ twoSeconds twoSeconds 0 0 e e' ⟨?_, ?_⟩ ⟨?_, ?_⟩ ?_ he he'
    · exact fun _ => show Budget.outOfTime _ 12 = false by decide +kernel
    · intro htop
      cases htop
    · exact fun _ => show Budget.outOfTime _ 12 = false by decide +kernel
    · intro htop
      cases htop
    · exact zero_le

end EGraph

end WhileLang
