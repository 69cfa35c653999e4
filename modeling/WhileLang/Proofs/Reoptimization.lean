import WhileLang.Proofs.Optimization
import WhileLang.Proofs.RoundTrip

/-!
# Optimizing again gains nothing

If the rules had nothing left to change when a program was optimized, optimizing the result leads to
a term of the same cost, whatever the limits of the second run are.

The result computes exactly the term that was read off, so the second run starts from this term. It
can only get cheaper, since it is still equal to itself when the cheapest term is looked for. But it
does not: the first graph is saturated, so what it has as equal is an interpretation by which the
rules are valid, and everything is true there that is made of the term in the second run. What is
read off in the end is therefore equal to the first root in the first graph, where the term was a
cheapest one already.

* `Block.reoptimizeUsing_same_cost`: optimizing a saturated result again costs the same, whatever
  the engine; `Block.reoptimize_same_cost`: with e-graphs.
-/

namespace WhileLang

namespace Block

variable {b : Block} {budget budget' : Budget} {options : ResidualOptions} {clock : Clock}
  {patience : Nat} {o : Optimized}

theorem symbolic_of_extend {env : Env} {chain : Term}
    (h : b.extend [] .silent = (env, .ok chain)) :
    ∃ run, (b.symbolic []).2 = .ok run ∧ run.chain = chain := by
  unfold symbolic
  rw [h]
  exact ⟨_, rfl, rfl⟩

/-- **Optimizing a saturated result again costs the same**, whatever the engine. -/
theorem reoptimizeUsing_same_cost {G : Type} [Engine G] [LawfulEngine G]
    (h : b.optimizeUsing G budget options clock patience = .ok o)
    (hsat : o.extraction.saturated = true) (hs : budget'.strict = false)
    (options' : ResidualOptions) (clock' : Clock) (patience' : Nat) :
    (budget'.maxIterations = none ∧
        o.program.optimizeUsing G budget' options' clock' patience' =
          .error (.saturation .unfinished)) ∨
      ∃ o' t t', o.program.optimizeUsing G budget' options' clock' patience' = .ok o' ∧
        o.extraction.Gives t ∧ o'.extraction.Gives t' ∧
        o'.extraction.cost = o.extraction.cost := by
  obtain ⟨run, hrun, he, hss⟩ := optimizeUsing_eq_ok h
  have hplain := plain_of_symbolic hrun
  have hw := Term.inWords_of_sort hplain.sort
  obtain ⟨t, hgives, hoptimal⟩ :=
    LawfulEngine.saturate_isOptimal (.add .empty run.chain) arithmeticRules_safe hw he
  have hplain' := hplain.of_equal hoptimal.equal
  -- the optimized form computes the term that was read off
  obtain ⟨vs, rfl, hvs⟩ := hplain'.eq_ofPrints
  rw [hgives.nodes] at hss
  obtain ⟨env, henv⟩ := Term.residual_extend hvs hss
  obtain ⟨run', hrun', hchain'⟩ := symbolic_of_extend henv
  refine (optimizeUsing_spec hrun' hs options' clock' patience').imp_right ?_
  rintro ⟨o', t', ho', hgives', -, he', hoptimal'⟩
  rw [hchain'] at he' hoptimal'
  have hsame := LawfulEngine.cost_of_again arithmeticRules_safe hw he hsat hoptimal
    (Term.inWords_of_sort hplain'.sort) he' hoptimal'
  exact ⟨o', _, t', ho', hgives, hgives', by rw [hgives'.cost, hsame, hgives.cost]⟩

/-- **Optimizing a saturated result again costs the same.** Let a straight-line program have been
optimized until the rules had nothing left to change. Then its optimized form is optimized too,
whatever the limits of a budget that is not strict and whatever the clock shows, unless iterations
are not limited and patience ends; and the term read off costs exactly what the first one did. -/
theorem reoptimize_same_cost (h : b.optimize budget options clock patience = .ok o)
    (hsat : o.extraction.saturated = true) (hs : budget'.strict = false)
    (options' : ResidualOptions) (clock' : Clock) (patience' : Nat) :
    (budget'.maxIterations = none ∧
        o.program.optimize budget' options' clock' patience' =
          .error (.saturation .unfinished)) ∨
      ∃ o' t t', o.program.optimize budget' options' clock' patience' = .ok o' ∧
        o.extraction.Gives t ∧ o'.extraction.Gives t' ∧
        o'.extraction.cost = o.extraction.cost :=
  reoptimizeUsing_same_cost h hsat hs options' clock' patience'

/-- The difference of an argument and itself, printed twice. -/
def emptyDifference : Block :=
  [.assign "x" (.input (.num 0)),
   .assign "y" (.bin .sub (.var "x") (.var "x")),
   .print (.var "y"),
   .print (.var "y")]

/-- Two iterations are enough for the difference to become zero and to see that there is nothing
left to change. -/
theorem emptyDifference_saturates {run : SymbolicRun}
    (h : (emptyDifference.symbolic []).2 = .ok run) :
    let p := Engine.saturateFor arithmeticRules 3 (fun _ => 0) (EGraph.addTerm {} run.chain).1
      { maxIterations := some 2 }
    p.saturated = true ∧ (p.graph.readOff run.chain).2.map Prod.snd = some 7 := by
  obtain rfl := Except.ok.inj h
  simp only [Engine.saturateFor, Engine.iterate, EGraph.iterate]
  unfold Draft.applyRule Draft.applyBatch
  simp only [Draft.conclude_index]
  decide +kernel

/-- By a clock that stands still, the chain that prints zero twice costs seven. It still does if it
is optimized without any iteration and with other names for temporaries, by any clock. -/
theorem emptyDifference_reoptimized :
    ∃ o, emptyDifference.optimize { maxIterations := some 2 } ⟨"t", true⟩ (fun _ => 0) 0 = .ok o ∧
      o.extraction.saturated = true ∧ o.extraction.cost = 7 ∧
      ∀ clock, ∃ o' t t',
        o.program.optimize { maxIterations := some 0 } ⟨"", false⟩ clock 0 = .ok o' ∧
        o.extraction.Gives t ∧ o'.extraction.Gives t' ∧ o'.extraction.cost = 7 := by
  obtain ⟨run, hrun⟩ : ∃ run, (emptyDifference.symbolic []).2 = .ok run := ⟨_, rfl⟩
  have hlenient : ∀ n, ({ maxIterations := some n } : Budget).strict = false := fun _ => rfl
  rcases optimizeUsing_spec (G := EGraph) hrun (hlenient 2) ⟨"t", true⟩ (fun _ => 0) 0 with
    ⟨hmax, -⟩ | ⟨o, -, ho, -, -, he, -⟩
  · cases hmax
  obtain ⟨-, t, ht, -, hsaturated, -⟩ := Engine.saturate_eq_ok he
  obtain ⟨hsat, hseven⟩ := emptyDifference_saturates hrun
  have hcost : o.extraction.cost = 7 :=
    Option.some.inj ((congrArg (Option.map Prod.snd) ht).symm.trans hseven)
  refine ⟨o, ho, hsaturated.trans hsat, hcost, fun clock => ?_⟩
  rcases reoptimize_same_cost ho (hsaturated.trans hsat) (hlenient 0) ⟨"", false⟩ clock 0 with
    ⟨hmax, -⟩ | ⟨o', t, t', ho', ht, ht', hsame⟩
  · cases hmax
  · exact ⟨o', t, t', ho', ht, ht', hsame.trans hcost⟩

end Block

end WhileLang
