import WhileLang.Optimize
import WhileLang.Proofs.GraphLaws
import WhileLang.Proofs.Linearization
import WhileLang.Proofs.RuleSoundness
import WhileLang.Proofs.Simulation

/-!
# Optimization preserves output

The optimized form of a straight-line program is the residual program of a term that is read off a
saturated graph. Under every reading, that term denotes what the chain of effects of the program
denotes, if this denotes anything. So whatever the program prints is printed by its optimized form
too. The converse fails: a difference `x - x` is zero even if `x` reads an argument that is not
there.

All that is asked of the engine is that it obeys its laws.

* `Term.Refines`: a term denotes whatever another one does.
* `Block.optimizeUsing_spec`: what the optimized form of a program is made from.
* `Block.optimizeUsing_preserves_output`: it is compiled, and its code prints what the program
  prints, whatever the engine; `Block.optimize_preserves_output`: for e-graphs.
-/

namespace WhileLang

/-! ## Refinement -/

/-- Under every reading by words, a term denotes whatever another one does. -/
def Term.Refines (t u : Term) : Prop :=
  ∀ ρ m, ρ.InWords → u.denote ρ = some m → t.denote ρ = some m

/-- The reading without symbols by which all arguments are zero. -/
def Reading.blank : Reading :=
  ⟨fun _ => none, fun _ => some 0⟩

theorem Reading.inWords_blank : blank.InWords where
  symbol _ _ h := by cases h
  argument _ _ h := by
    obtain rfl := Option.some.inj h
    decide

theorem Term.Plain.denote_blank {k : TermSort} {t : Term} (h : t.Plain k) :
    ∃ m, t.denote .blank = some m := by
  have hsymbols : ∀ s ∈ t.symbols, ∃ v, Reading.blank.symbol s = some v := by
    rw [h.symbols]
    exact fun s hs => by cases hs
  obtain ⟨m, hm, -⟩ := denotes_of_sort (ρ := .blank) (fun _ => ⟨0, rfl⟩) h.sort hsymbols
  exact ⟨m, hm⟩

/-- What means the same as a term without symbols is of its sort and has no symbols. -/
theorem Term.Plain.of_means {k : TermSort} {t u : Term} {m : Meaning} (h : u.Plain k)
    (hu : Reading.blank.interpretation.Means u m) (ht : Reading.blank.interpretation.Means t m) :
    t.Plain k := by
  refine ⟨?_, List.eq_nil_iff_forall_not_mem.2 fun x hx => ?_⟩
  · rw [ht.sort_eq, ← hu.sort_eq, h.sort]
  · obtain ⟨v, hv⟩ := symbol_of_denote ht.denote_eq hx
    cases hv

/-! ## Optimized programs -/

section

open Engine LawfulEngine

variable {G : Type} [Engine G] [LawfulEngine G] {budget : Budget} {clock : Clock} {patience : Nat}

/-- What is equal to a term in the graph that is made of it by the rules of arithmetic means what
the term does. -/
theorem Term.means_of_equal {root t : Term} {ρ : Reading} {m : Meaning} (hρ : ρ.InWords)
    (hw : root.inWords = true) (hm : root.denote ρ = some m)
    (ht : Equal (saturate (add empty root : G) root arithmeticRules budget clock patience).graph
      t root) : ρ.interpretation.Means t m := by
  have hroot := Term.means_of_denote hρ hw hm
  exact LawfulEngine.means_of_equal (trueIn_add (trueIn_empty hroot.good) fun _ => hroot)
    (arithmeticRules_valid ρ) hroot ht

/-- So it refines the term. -/
theorem Term.refines_of_equal {root t : Term} (hw : root.inWords = true)
    (ht : Equal (saturate (add empty root : G) root arithmeticRules budget clock patience).graph
      t root) : t.Refines root :=
  fun _ _ hρ hm => (means_of_equal hρ hw hm ht).denote_eq

/-- If the term has no symbols, it has none either, and is of its sort. -/
theorem Term.Plain.of_equal {root t : Term} {k : TermSort} (hroot : root.Plain k)
    (ht : Equal (saturate (add empty root : G) root arithmeticRules budget clock patience).graph
      t root) : t.Plain k := by
  have hw := Term.inWords_of_sort hroot.sort
  obtain ⟨m, hm⟩ := hroot.denote_blank
  exact hroot.of_means (Term.means_of_denote Reading.inWords_blank hw hm)
    (Term.means_of_equal Reading.inWords_blank hw hm ht)

end

namespace Block

variable {b : Block} {run : SymbolicRun} {budget : Budget} {options : ResidualOptions}
  {clock : Clock} {patience : Nat} {o : Optimized}

theorem plain_of_symbolic (h : (b.symbolic []).2 = .ok run) : run.chain.Plain .effect :=
  extend_plain (extend_of_symbolic h) (fun _ _ ht => by cases ht) ⟨rfl, rfl⟩

/-- What a program prints is what its chain of effects denotes. -/
theorem Finishes.denote_chain {args out : List Int} (hf : b.Finishes args out)
    (h : (b.symbolic []).2 = .ok run) : run.chain.denote (.ofArgs args) = some (.printed out) := by
  have hext := extend_of_symbolic h
  obtain ⟨σ, hσ⟩ := hf.performs (straightLine_of_extend hext)
  exact (extend_faithful hext (fun _ _ ht => by cases ht) rfl hσ).2

section

open Engine LawfulEngine

variable {G : Type} [Engine G]

/-- A program that has been optimized was executed on terms, a term was read off for its chain, and
the optimized form is the residual program of this term. -/
theorem optimizeUsing_eq_ok (h : b.optimizeUsing G budget options clock patience = .ok o) :
    ∃ run, (b.symbolic []).2 = .ok run ∧
      (saturate (add empty run.chain : G) run.chain arithmeticRules budget clock patience).result =
        .ok o.extraction ∧
      (residual options o.extraction.nodes).result = .ok o.program := by
  unfold optimizeUsing at h
  split at h
  · cases h
  · next run hrun =>
      simp only at h
      split at h
      · cases h
      · next e he =>
          split at h
          · cases h
          · next ss hss =>
              obtain rfl := Except.ok.inj h
              exact ⟨run, hrun, he, hss⟩

variable [LawfulEngine G]

/-- **What optimization comes to.** If the budget is not strict, a straight-line program is
optimized, unless iterations are not limited and patience ends. The optimized form is the residual
program of a cheapest term that is equal to the chain of effects of the program. -/
theorem optimizeUsing_spec (h : (b.symbolic []).2 = .ok run) (hs : budget.strict = false)
    (options : ResidualOptions) (clock : Clock) (patience : Nat) :
    (budget.maxIterations = none ∧
        b.optimizeUsing G budget options clock patience = .error (.saturation .unfinished)) ∨
      ∃ (o : Optimized) (t : Term), b.optimizeUsing G budget options clock patience = .ok o ∧
        o.extraction.Gives t ∧ (residual options t.flatten).result = .ok o.program ∧
        (saturate (add empty run.chain : G) run.chain arithmeticRules budget clock
          patience).result = .ok o.extraction ∧
        IsOptimal (saturate (add empty run.chain : G) run.chain arithmeticRules budget clock
          patience).graph run.chain t := by
  have hw := Term.inWords_of_sort (plain_of_symbolic h).sort
  have hstart : Reached (add empty run.chain : G) := .add .empty run.chain
  rcases LawfulEngine.saturate_ok hstart arithmeticRules_safe hw hs clock patience with
    ⟨hmax, he⟩ | ⟨e, he⟩
  · left
    refine ⟨hmax, ?_⟩
    unfold optimizeUsing
    simp only [h, he]
  · obtain ⟨t, hgives, hoptimal⟩ := saturate_isOptimal hstart arithmeticRules_safe hw he
    obtain ⟨ss, hss⟩ := t.residual_ok options
    refine .inr ⟨⟨ss, e⟩, t, ?_, hgives, hss, he, hoptimal⟩
    rw [← hgives.nodes] at hss
    unfold optimizeUsing
    simp only [h, he, hss]

/-- **Optimization preserves output**, whatever the engine. -/
theorem optimizeUsing_preserves_output (h : (b.symbolic []).2 = .ok run)
    (hs : budget.strict = false) (options : ResidualOptions) (clock : Clock) (patience : Nat) :
    ∃ a, b.compile = .ok a ∧
      ((budget.maxIterations = none ∧
          b.optimizeUsing G budget options clock patience = .error (.saturation .unfinished)) ∨
        ∃ o a', b.optimizeUsing G budget options clock patience = .ok o ∧
          o.program.compile = .ok a' ∧
          ∀ args, (∀ v ∈ args, Word.IsWord v) → ∀ out,
            (Machine.unlimited a.code args).Halts out →
              (Machine.unlimited a'.code args).Halts out) := by
  have hplain := plain_of_symbolic h
  have hw := Term.inWords_of_sort hplain.sort
  have hb : Block.refusal? b.slotTable b = none := refusal_of_symbolic (extend_of_symbolic h)
  obtain ⟨a, ha, hcode⟩ := compile_of_accepted hb
  refine ⟨a, ha, (optimizeUsing_spec h hs options clock patience).imp_right ?_⟩
  rintro ⟨o, t, ho, -, hss, -, hoptimal⟩
  have hplain' := hplain.of_equal hoptimal.equal
  have hb' : Block.refusal? o.program.slotTable o.program = none :=
    Term.residual_accepted hplain'.symbols hss
  obtain ⟨a', ha', hcode'⟩ := compile_of_accepted hb'
  refine ⟨o, a', ho, ha', ?_⟩
  intro args hargs out hhalts
  rw [hcode, halts_iff hb] at hhalts
  have hchain := hhalts.denote_chain h
  have hprinted := Term.refines_of_equal hw hoptimal.equal _ _ (Reading.inWords_ofArgs hargs) hchain
  obtain ⟨σ, hσ⟩ := Term.residual_performs hss (Term.inWords_of_sort hplain'.sort) hprinted
  rw [hcode', halts_iff hb']
  exact finishes_of_perform hσ

end

/-- **Optimization preserves output.** Whatever the limits of a budget that is not strict, whatever
the clock shows and however statements are to be written, a straight-line program is compiled. It is
optimized, unless iterations are not limited and patience ends. The optimized form is compiled too,
and on every vector of words on which the code of the program halts, the code of the optimized form
halts with the same output. -/
theorem optimize_preserves_output (h : (b.symbolic []).2 = .ok run) (hs : budget.strict = false)
    (options : ResidualOptions) (clock : Clock) (patience : Nat) :
    ∃ a, b.compile = .ok a ∧
      ((budget.maxIterations = none ∧
          b.optimize budget options clock patience = .error (.saturation .unfinished)) ∨
        ∃ o a', b.optimize budget options clock patience = .ok o ∧ o.program.compile = .ok a' ∧
          ∀ args, (∀ v ∈ args, Word.IsWord v) → ∀ out,
            (Machine.unlimited a.code args).Halts out →
              (Machine.unlimited a'.code args).Halts out) :=
  optimizeUsing_preserves_output h hs options clock patience

/-- An argument plus a difference that is zero, then the square of its double; a name is assigned
twice. -/
def doubleAndSquare : Block :=
  [.assign "x" (.input (.num 0)),
   .assign "y" (.bin .mul (.var "x") (.num 1)),
   .print (.bin .add (.var "y") (.bin .sub (.var "x") (.var "x"))),
   .assign "x" (.bin .add (.var "y") (.var "y")),
   .print (.bin .mul (.var "x") (.var "x"))]

/-- The program prints five and the square of ten. It still does after at most one iteration of the
rules, as the clock permits, and with temporaries named like a variable. -/
theorem doubleAndSquare_optimized :
    ∃ a, doubleAndSquare.compile = .ok a ∧ (Machine.unlimited a.code [5]).Halts [5, 100] ∧
      ∀ clock, ∃ o a',
        doubleAndSquare.optimize { maxIterations := some 1 } ⟨"x", true⟩ clock 0 = .ok o ∧
        o.program.compile = .ok a' ∧ (Machine.unlimited a'.code [5]).Halts [5, 100] := by
  obtain ⟨run, hrun⟩ : ∃ run, (doubleAndSquare.symbolic []).2 = .ok run := ⟨_, rfl⟩
  obtain ⟨a, ha⟩ : ∃ a, doubleAndSquare.compile = .ok a := ⟨_, rfl⟩
  have hstrict : ({ maxIterations := some 1 } : Budget).strict = false := rfl
  have hhalts : (Machine.unlimited a.code [5]).Halts [5, 100] := by
    rw [(compile_eq_ok ha).2.1]
    exact ⟨40, _, rfl, rfl⟩
  refine ⟨a, ha, hhalts, fun clock => ?_⟩
  obtain ⟨a₁, ha₁, hoptimized⟩ := optimize_preserves_output hrun hstrict ⟨"x", true⟩ clock 0
  obtain rfl := Except.ok.inj (ha.symm.trans ha₁)
  rcases hoptimized with ⟨hmax, -⟩ | ⟨o, a', ho, ha', hsame⟩
  · cases hmax
  · exact ⟨o, a', ho, ha', hsame [5] (by decide) _ hhalts⟩

end Block

end WhileLang
