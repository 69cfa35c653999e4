import WhileLang.Proofs.EffectChain
import WhileLang.Proofs.Reoptimization

/-!
# Rewriting keeps the chain of effects

Effects are in the same graph as values, so it has to be seen that rewriting neither merges two
links of a chain nor an effect with a value. No rule of arithmetic speaks of prints: every print in
a graph that is built from a root is a print in the root, up to classes that have become one since.
And a class knows how many links its effects have, as all of them print the same under a reading. So
all prints in one class are one link of the root, and what they print is in one class too.

The term that is read off is therefore a chain of as many links as the program has prints. The value
of each link is equal, by the classes of the graph, to what the print at its place prints, and the
optimized program prints the values of the links in turn.

* `EGraph.LinksOf`: all prints of a graph are prints in a root; one lemma for each operation says
  that it stays so.
* `EGraph.exists_print_of_mem_rows`: every print in a graph built from a root is a print in the
  root.
* `EGraph.exists_chain_of_sameClass`: chains in one class agree link by link.
* `Block.Displays`: the terms that a straight-line program prints.
* `Block.optimize_keeps_links`: optimization keeps the chain of effects link by link.
-/

namespace WhileLang

/-! ## Prints in a graph -/

section

variable {V : Type} {I : Interpretation V} {μ : Nat → V} {root t : Term}

/-- By given values of the classes, a shape is a print in a root, if it prints. -/
def Shape.LinkOf (I : Interpretation V) (μ : Nat → V) (root : Term) : Shape → Prop
  | print i j => ∃ e v, .print e v ∈ root.subterms ∧ I.Means e (μ i) ∧ I.Means v (μ j)
  | _ => True

namespace Shape

variable {s : Shape}

theorem LinkOf.map {f : Nat → Nat} (hf : ∀ k, μ (f k) = μ k) (h : s.LinkOf I μ root) :
    (s.map f).LinkOf I μ root := by
  cases s with
  | print i j =>
      show ∃ e v, .print e v ∈ root.subterms ∧ I.Means e (μ (f i)) ∧ I.Means v (μ (f j))
      rw [hf i, hf j]
      exact h
  | num _ | symbol _ | bin _ _ _ | arg _ | silent => trivial

theorem linkOf_of_kind (h : s.kind ≠ .print) : s.LinkOf I μ root := by
  cases s with
  | print i j => exact absurd rfl h
  | num _ | symbol _ | bin _ _ _ | arg _ | silent => trivial

end Shape

namespace EGraph

variable {g : EGraph}

/-- By given values of the classes, all prints of a graph are prints in a root. -/
def LinksOf (I : Interpretation V) (μ : Nat → V) (root : Term) (g : EGraph) : Prop :=
  ∀ r ∈ g.rows, r.shape.LinkOf I μ root

theorem mem_rows_insert {s : Shape} {r : Row} (h : r ∈ (g.insert s).1.rows) :
    r ∈ g.rows ∨ r.shape = s := by
  unfold insert at h
  split at h
  · exact .inl h
  · rw [rows_append, List.mem_append, List.mem_singleton] at h
    refine h.imp_right ?_
    rintro rfl
    rfl

namespace LinksOf

/-! ### Adding terms -/

theorem insert {s : Shape} (h : g.LinksOf I μ root) (hs : s.LinkOf I μ root) :
    (g.insert s).1.LinksOf I μ root := by
  intro r hr
  rcases mem_rows_insert hr with hr | hr
  · exact h r hr
  · rwa [hr]

/-- Adding a part of the root adds prints of the root only. -/
theorem insertTerm (h : g.LinksOf I μ root) (ht : ∀ u ∈ t.subterms, u ∈ root.subterms)
    (hs : Satisfies I μ (g.insertTerm t).1.classes (g.insertTerm t).1.rows) :
    (g.insertTerm t).1.LinksOf I μ root := by
  induction t generalizing g with
  | num n | symbol s | silent => exact h.insert trivial
  | arg t ih =>
      obtain ⟨-, ht⟩ := List.forall_mem_cons.1 ht
      exact (ih h ht (Satisfies.of_insert hs).1).insert trivial
  | bin op l r ihl ihr =>
      obtain ⟨hl, hr⟩ := List.forall_mem_append.1 (List.forall_mem_cons.1 ht).2
      have hs₁ := (Satisfies.of_insert hs).1
      have hs₂ := (Satisfies.of_insertTerm hs₁).1
      exact (ihr (ihl h hl hs₂) hr hs₁).insert trivial
  | print e v ihe ihv =>
      obtain ⟨hroot, hparts⟩ := List.forall_mem_cons.1 ht
      obtain ⟨he, hv⟩ := List.forall_mem_append.1 hparts
      have hs₁ := (Satisfies.of_insert hs).1
      obtain ⟨hs₂, hmv⟩ := Satisfies.of_insertTerm hs₁
      have hme := (Satisfies.of_insertTerm hs₂).2
      exact (ihv (ihe h he hs₂) hv hs₁).insert ⟨e, v, hroot, hme, hmv⟩

theorem noteKinds (h : g.LinksOf I μ root) (ks : List Kind) :
    (g.noteKinds ks).LinksOf I μ root := by
  intro r hr
  rw [rows_noteKinds] at hr
  exact h r hr

theorem addTerm (h : g.LinksOf I μ root)
    (hs : Satisfies I μ (g.addTerm root).1.classes (g.addTerm root).1.rows) :
    (g.addTerm root).1.LinksOf I μ root := by
  revert hs
  unfold EGraph.addTerm
  simp only
  split
  · exact (h.noteKinds _).insertTerm fun _ hu => hu
  · exact fun _ => h.noteKinds _

/-! ### Stating rows and restoring congruence -/

variable {ks : List Kind} {rs : List Row}

theorem foldl_put (h : g.LinksOf I μ root) (hrs : ∀ r ∈ rs, r.shape.LinkOf I μ root) :
    (rs.foldl EGraph.put g).LinksOf I μ root := by
  intro r hr
  rcases mem_rows_foldl_put hr with hr | hr
  · exact h r hr
  · exact hrs r hr

/-- Rows are stated anew for classes of the same values. -/
theorem rebuildRound (h : g.LinksOf I μ root) (hrep : ∀ k, μ (g.classes.find k) = μ k) :
    g.rebuildRound.LinksOf I μ root := by
  apply foldl_put
  · intro r hr
    rw [rows_remove] at hr
    exact h r (List.mem_filter.1 hr).1
  · intro r hr
    obtain ⟨r', hr', rfl⟩ := List.mem_map.1 hr
    exact (h r' (List.mem_filter.1 hr').1).map hrep

theorem rebuildFor {n : Nat} (h : g.LinksOf I μ root) (hg : g.Regular ks)
    (hs : Satisfies I μ (EGraph.rebuildFor n g).classes (EGraph.rebuildFor n g).rows) :
    (EGraph.rebuildFor n g).LinksOf I μ root := by
  induction n generalizing g with
  | zero => exact h
  | succ n ih =>
      have hrep := (Satisfies.of_rebuildFor hg hs).rep
      revert hs
      unfold EGraph.rebuildFor
      split
      · exact ih (h.rebuildRound hrep) hg.rebuildRound
      · exact fun _ => h

/-! ### Iterations -/

/-- A draft without prints adds none. -/
theorem accept {d : Draft} (h : g.LinksOf I μ root) (hg : g.Tidy)
    (hd : Models (.ofKinds g.kinds) (fun _ => ()) d.classes (d.known g.rows))
    (hk : ∀ r ∈ d.rows, r.shape.kind ≠ .print)
    (hs : Satisfies I μ (g.accept d).classes (g.accept d).rows) :
    (g.accept d).LinksOf I μ root := by
  obtain ⟨hstart, hfits⟩ := hg.start hd
  refine rebuildFor ?_ (hstart.foldl_put hfits) hs
  apply foldl_put
  · intro r hr
    rw [rows, List.append_nil] at hr
    exact h r hr
  · intro r hr
    exact Shape.linkOf_of_kind (hk r (List.mem_reverse.1 hr))

variable {rules : List Rule}

theorem iterate (h : g.LinksOf I μ root) (hg : g.Tidy) (hne : ∀ r ∈ rules, r.premises ≠ [])
    (hk : Kind.print ∉ rules.flatMap Rule.kinds)
    (hs : Satisfies I μ (g.iterate rules).classes (g.iterate rules).rows) :
    (g.iterate rules).LinksOf I μ root := by
  revert hs
  unfold EGraph.iterate
  split
  · exact fun _ => h
  · have hn := hg.noteKinds (rules.flatMap Rule.kinds)
    have hv := EGraph.valid_ofKinds (g := g.noteKinds (rules.flatMap Rule.kinds)) hne
      fun k hk => mem_kinds_noteKinds.2 (.inr hk)
    refine (h.noteKinds _).accept hn (hn.draft hv) ?_
    intro r hr hprint
    exact hk (hprint ▸ kind_mem_of_mem_draft _ rules r hr)

/-- **Rules that do not speak of prints add none.** -/
theorem progress (hg : g.Tidy) (h : Satisfies I μ g.classes g.rows → g.LinksOf I μ root)
    (hne : ∀ r ∈ rules, r.premises ≠ []) (hk : Kind.print ∉ rules.flatMap Rule.kinds)
    (budget : Budget) (clock : Clock) (patience : Nat) :
    let p := Engine.progress g rules budget clock patience
    Satisfies I μ p.graph.classes p.graph.rows → p.graph.LinksOf I μ root := by
  have hstep : ∀ g : EGraph,
      g.Tidy ∧ (Satisfies I μ g.classes g.rows → g.LinksOf I μ root) →
        (g.iterate rules).Tidy ∧ (Satisfies I μ (g.iterate rules).classes (g.iterate rules).rows →
          (g.iterate rules).LinksOf I μ root) := by
    rintro g ⟨hg, h⟩
    refine ⟨hg.iterate hne, fun hs => ?_⟩
    exact (h (Satisfies.of_iterate hg hne hs).1).iterate hg hne hk hs
  exact (Engine.progress_induction hstep ⟨hg, h⟩).2

/-- A graph that is built from a root has no prints but those of the root. -/
theorem saturate {budget : Budget} {clock : Clock} {patience : Nat}
    (hne : ∀ r ∈ rules, r.premises ≠ []) (hk : Kind.print ∉ rules.flatMap Rule.kinds) :
    let s := Engine.saturate (EGraph.addTerm {} root).1 root rules budget clock patience
    Satisfies I μ s.graph.classes s.graph.rows → s.graph.LinksOf I μ root := by
  intro s hs
  have hempty : LinksOf I μ root {} := fun r hr => by cases hr
  have hlinks := progress (tidy_empty.addTerm root) hempty.addTerm hne hk budget clock patience
  rcases Engine.graph_saturate (EGraph.addTerm {} root).1 root rules budget clock patience with
    hgraph | hgraph
  · rw [hgraph] at hs ⊢
    exact hlinks hs
  · rw [hgraph] at hs ⊢
    exact (hlinks (Satisfies.of_addTerm hs).1).addTerm hs

end LinksOf

end EGraph

end

/-! ## Chains in one class -/

namespace EGraph

variable {root : Term} {budget : Budget} {clock : Clock} {patience : Nat}

/-- The graph from which a root is read off once the rules of arithmetic have been applied. -/
def ofRoot (root : Term) (budget : Budget) (clock : Clock) (patience : Nat) : EGraph :=
  (Engine.saturate (addTerm {} root).1 root arithmeticRules budget clock patience).graph

theorem tidy_ofRoot (root : Term) (budget : Budget) (clock : Clock) (patience : Nat) :
    (ofRoot root budget clock patience).Tidy :=
  tidy_of_reached (LawfulEngine.reached_saturate (.add .empty root) arithmeticRules_safe root)

/-- Every print in the graph of a root is a print in the root: its effect and its value are in the
classes of the print. -/
theorem exists_print_of_mem_rows {i j k : Nat}
    (h : ⟨.print i j, k⟩ ∈ (ofRoot root budget clock patience).rows) :
    ∃ e v, .print e v ∈ root.subterms ∧ (ofRoot root budget clock patience).Represents e i ∧
      (ofRoot root budget clock patience).Represents v j := by
  have htidy := tidy_ofRoot root budget clock patience
  have hk : Kind.print ∉ arithmeticRules.flatMap Rule.kinds := by decide
  -- the graph satisfies itself by its classes, and so everything that it was built from
  obtain ⟨e, v, hmem, he, hv⟩ :=
    LinksOf.saturate arithmeticRules_premises hk htidy.satisfies_ofGraph _ h
  have hfind := htidy.models.find_find
  exact ⟨e, v, hmem, (represents_of_means he).of_find_eq (hfind i),
    (represents_of_means hv).of_find_eq (hfind j)⟩

/-- Terms in one class of the graph of a term without symbols mean the same if all arguments are
zero. -/
theorem same_of_sameClass {k : TermSort} {t u : Term} (h : root.Plain k)
    (htu : (ofRoot root budget clock patience).SameClass t u) :
    Reading.blank.interpretation.Same t u := by
  obtain ⟨m, hm⟩ := h.denote_blank
  have hroot := Term.means_of_denote Reading.inWords_blank (Term.inWords_of_sort h.sort) hm
  have htrue : LawfulEngine.TrueIn Reading.blank.interpretation
      (ofRoot root budget clock patience) :=
    LawfulEngine.trueIn_saturate
      (LawfulEngine.trueIn_add (LawfulEngine.trueIn_empty hroot.good) fun _ => hroot)
      (arithmeticRules_valid .blank) fun _ => hroot
  exact LawfulEngine.same_of_equal htrue htu

end EGraph

/-- A chain denotes as many printed values as it has links. -/
theorem Term.printed_of_denote {ρ : Reading} {vs : List Term} {m : Meaning}
    (h : (ofPrints vs).denote ρ = some m) : ∃ out, m = .printed out ∧ out.length = vs.length := by
  induction vs using List.reverseRecOn generalizing m with
  | nil =>
      obtain rfl := Option.some.inj h
      exact ⟨[], rfl, rfl⟩
  | append_singleton vs v ih =>
      rw [ofPrints_concat] at h
      obtain ⟨a, b, ha, -, hm⟩ := denote_print_eq_some h
      obtain ⟨out, n, rfl, -, rfl⟩ := Meaning.print_eq_some hm
      obtain ⟨out', heq, hlen⟩ := ih ha
      obtain rfl := Meaning.printed.inj heq
      exact ⟨_, rfl, by simp [hlen]⟩

namespace EGraph

variable {root : Term} {budget : Budget} {clock : Clock} {patience : Nat} {vs ws us : List Term}
  {c : Nat}

/-- Chains in one class have equally many links. -/
theorem length_eq_of_sameClass {k : TermSort} (hroot : root.Plain k)
    (h : (ofRoot root budget clock patience).SameClass (.ofPrints vs) (.ofPrints ws)) :
    vs.length = ws.length := by
  obtain ⟨m, hvs, hws⟩ := same_of_sameClass hroot h
  obtain ⟨out, rfl, hlen⟩ := Term.printed_of_denote hvs.denote_eq
  obtain ⟨out', hout, hlen'⟩ := Term.printed_of_denote hws.denote_eq
  obtain rfl := Meaning.printed.inj hout
  exact hlen.symm.trans hlen'

/-- **Chains agree link by link.** A chain in the graph of a root has, link by link, values in the
classes of those of the beginning of the root with equally many links. -/
theorem sameClass_of_represents (hus : ∀ u ∈ us, u.Plain .value)
    (hvs : (ofRoot (.ofPrints us) budget clock patience).Represents (.ofPrints vs) c)
    (hws : ws <+: us) (hlen : vs.length = ws.length) :
    List.Forall₂ (ofRoot (.ofPrints us) budget clock patience).SameClass vs ws := by
  -- from the last link to the first: its print is one of the root, which has no other of its length
  have hvalue : ∀ u ∈ us, u.isValue = true := fun u hu => Term.isValue_of_sort (hus u hu).sort
  induction vs using List.reverseRecOn generalizing ws c with
  | nil =>
      rw [List.length_eq_zero_iff.1 hlen.symm]
      exact .nil
  | append_singleton vs v ih =>
      rw [Term.ofPrints_concat] at hvs
      cases hvs with
      | @print i j k _ _ _ hrow hc he hv =>
          obtain ⟨e, w, hmem, he', hw⟩ := exists_print_of_mem_rows hrow
          obtain ⟨xs, hxs, rfl⟩ := Term.exists_prefix_of_print hvalue hmem
          have hlinks : vs.length = xs.length :=
            length_eq_of_sameClass (Term.Plain.ofPrints hus) ⟨i, he, he'⟩
          have hsame : (xs ++ [w]).length = ws.length := by
            rw [← hlen, List.length_append, List.length_append, hlinks]
            rfl
          obtain rfl : xs ++ [w] = ws :=
            (List.prefix_of_prefix_length_le hxs hws hsame.le).eq_of_length hsame
          have hbefore : xs <+: us := (List.prefix_append xs [w]).trans hxs
          exact List.rel_append (ih he hbefore hlinks) (.cons ⟨j, hv, hw⟩ .nil)

/-- A term in the class of a chain of values is a chain of values, which agrees with it link by
link. -/
theorem exists_chain_of_sameClass {t : Term} (hus : ∀ u ∈ us, u.Plain .value)
    (h : (ofRoot (.ofPrints us) budget clock patience).SameClass t (.ofPrints us)) :
    ∃ vs, t = .ofPrints vs ∧ (∀ v ∈ vs, v.Plain .value) ∧
      List.Forall₂ (ofRoot (.ofPrints us) budget clock patience).SameClass vs us := by
  have hplain := Term.Plain.ofPrints hus
  have ht : t.Plain .effect := hplain.of_equal (G := EGraph) h
  obtain ⟨vs, rfl, hvs⟩ := ht.eq_ofPrints
  obtain ⟨c, hc, -⟩ := id h
  exact ⟨vs, rfl, hvs, sameClass_of_represents hus hc (List.prefix_refl us)
    (length_eq_of_sameClass hplain h)⟩

end EGraph

/-! ## What straight-line programs print -/

namespace Block

/-- Executed on terms from some bindings on, a program prints some terms one after the other. -/
inductive Displays : Env → Block → List Term → Prop where
  | nil {env : Env} : Displays env [] []
  | assign {env : Env} {x : String} {e : Expr} {t : Term} {b : Block} {ts : List Term}
      (ht : e.term env = .ok t) (h : Displays (env.bind x t) b ts) :
      Displays env (.assign x e :: b) ts
  | print {env : Env} {e : Expr} {t : Term} {b : Block} {ts : List Term}
      (ht : e.term env = .ok t) (h : Displays env b ts) : Displays env (.print e :: b) (t :: ts)

variable {b : Block} {env env' : Env} {chain chain' : Term} {ts : List Term}

/-- A program prints one term for each of its prints. -/
theorem Displays.length (h : Displays env b ts) : ts.length = b.countP (·.isPrint) := by
  induction h with
  | nil => rfl
  | assign _ _ ih => simpa [Stmt.isPrint] using ih
  | print _ _ ih => simpa [Stmt.isPrint] using ih

/-- The chain of a program is extended by the terms that it prints. -/
theorem displays_of_extend (h : b.extend env chain = (env', .ok chain')) :
    ∃ ts, Displays env b ts ∧ chain' = ts.foldl .print chain := by
  induction b generalizing env chain with
  | nil =>
      obtain rfl := Except.ok.inj (Prod.mk.inj h).2
      exact ⟨[], .nil, rfl⟩
  | cons s b ih =>
      rcases extend_cons_eq_ok h with ⟨x, e, t, rfl, ht, h⟩ | ⟨e, t, rfl, ht, h⟩
      · obtain ⟨ts, hts, rfl⟩ := ih h
        exact ⟨ts, .assign ht hts, rfl⟩
      · obtain ⟨ts, hts, rfl⟩ := ih h
        exact ⟨t :: ts, .print ht hts, rfl⟩

theorem displays_of_extend_silent {vs : List Term}
    (h : b.extend [] .silent = (env', .ok (.ofPrints vs))) : Displays [] b vs := by
  obtain ⟨ts, hts, heq⟩ := displays_of_extend h
  rwa [Term.ofPrints_injective heq]

variable {run : SymbolicRun} {budget : Budget}

/-- **Optimization keeps the chain of effects link by link.** Whatever the limits of a budget that
is not strict, whatever the clock shows and however statements are to be written, take a
straight-line program. It prints some terms, and it is optimized, unless iterations are not limited
and patience ends. The effect nodes of the term that is read off are a chain, with one link for each
print, that starts at the one silent node, ascends and ends at the root. The value of each link is
in one class with the term that the program prints at its place. The optimized program has equally
many prints, which print the values of the links in turn. -/
theorem optimize_keeps_links (h : (b.symbolic []).2 = .ok run) (hs : budget.strict = false)
    (options : ResidualOptions) (clock : Clock) (patience : Nat) :
    ∃ ts, b.Displays [] ts ∧
      ((budget.maxIterations = none ∧
          b.optimize budget options clock patience = .error (.saturation .unfinished)) ∨
        ∃ (o : Optimized) (vs : List Term) (ps : List Nat),
          b.optimize budget options clock patience = .ok o ∧
          IsSpine o.extraction.nodes ps vs ∧ ps.length = b.countP (·.isPrint) + 1 ∧
          List.Forall₂ (EGraph.ofRoot run.chain budget clock patience).SameClass vs ts ∧
          o.program.Displays [] vs ∧ o.program.countP (·.isPrint) = b.countP (·.isPrint)) := by
  have hext := extend_of_symbolic h
  obtain ⟨us, hchain, hus⟩ := (plain_of_symbolic h).eq_ofPrints
  rw [hchain] at hext
  have hts := displays_of_extend_silent hext
  refine ⟨us, hts, (optimizeUsing_spec (G := EGraph) h hs options clock patience).imp_right ?_⟩
  rintro ⟨o, t, ho, hgives, hss, -, hoptimal⟩
  rw [hchain] at hoptimal
  obtain ⟨vs, rfl, hvs, hsame⟩ := EGraph.exists_chain_of_sameClass hus hoptimal.equal
  obtain ⟨env, henv⟩ := Term.residual_extend hvs hss
  have hprinted := displays_of_extend_silent henv
  obtain ⟨ps, hps⟩ := Term.flatten_isSpine fun v hv => Term.isValue_of_sort (hvs v hv).sort
  rw [← hgives.nodes] at hps
  rw [← hchain] at hsame
  refine ⟨o, vs, ps, ho, hps, ?_, hsame, hprinted, ?_⟩
  · rw [hps.chain.length, hsame.length_eq, hts.length]
  · rw [← hprinted.length, hsame.length_eq, hts.length]

/-- The difference of an argument and itself, then zero, then the difference again. -/
def threeZeros : Block :=
  [.assign "x" (.input (.num 0)),
   .print (.bin .sub (.var "x") (.var "x")),
   .print (.num 0),
   .print (.bin .sub (.var "x") (.var "x"))]

/-- All three become equal if there is time for it, but there are still three links and three
prints. It does not matter that the program fails if there is no argument. -/
theorem threeZeros_links :
    ∃ (run : SymbolicRun) (ts : List Term), (threeZeros.symbolic []).2 = .ok run ∧
      threeZeros.Displays [] ts ∧
      ∃ (o : Optimized) (vs : List Term) (ps : List Nat),
        threeZeros.optimize { maxIterations := some 2 } {} (fun _ => 0) 0 = .ok o ∧
        IsSpine o.extraction.nodes ps vs ∧ ps.length = 4 ∧
        List.Forall₂ (EGraph.ofRoot run.chain { maxIterations := some 2 } (fun _ => 0) 0).SameClass
          vs ts ∧
        o.program.Displays [] vs ∧ o.program.countP (·.isPrint) = 3 := by
  obtain ⟨run, hrun⟩ : ∃ run, (threeZeros.symbolic []).2 = .ok run := ⟨_, rfl⟩
  have hstrict : ({ maxIterations := some 2 } : Budget).strict = false := rfl
  obtain ⟨ts, hts, ⟨hmax, -⟩ | ho⟩ := optimize_keeps_links hrun hstrict {} (fun _ => 0) 0
  · cases hmax
  · exact ⟨run, ts, hrun, hts, ho⟩

end Block

end WhileLang
