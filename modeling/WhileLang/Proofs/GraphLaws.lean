import WhileLang.Proofs.CheapestTerm
import WhileLang.Proofs.EngineLaws
import WhileLang.Proofs.SaturatedGraph

/-!
# E-graphs obey the laws of engines

Two terms are equal in an e-graph if they are in one class, and what an e-graph says is true by an
interpretation if it has a model there. That operations keep a model was seen step by step, and so
was that they lose nothing, by looking back from the graph that they leave: it is an interpretation
of its own, by which everything is true that any earlier graph says.

* `EGraph.Tidy.readOff_cheapest`: what is read off for a root is a cheapest term of its class.
* `EGraph.Tidy.find_eq_of_represents`: a term is represented in one class only.
* `EGraph.sameClass_of_satisfies`: what was in one class stays so.
-/

namespace WhileLang

namespace EGraph

variable {g : EGraph} {t root : Term} {c c' : Nat}

/-- A term that has been added is represented in its class. -/
theorem Tidy.represents_addTerm (h : g.Tidy) (hc : (g.addTerm root).2 = some c) :
    (g.addTerm root).1.Represents root c := by
  have htidy := h.addTerm root
  obtain ⟨-, hmeans⟩ := Satisfies.of_addTerm htidy.satisfies_ofGraph
  exact (represents_of_means (hmeans c hc)).of_find_eq (htidy.models.find_find c)

/-- What is read off for a root is a cheapest term of its class, in which the root is too. -/
theorem Tidy.readOff_cheapest (h : g.Tidy) (hc : (g.addTerm root).2 = some c) :
    ∃ t, (g.readOff root).2 = some (t, t.cost) ∧ (g.addTerm root).1.Represents t c ∧
      t.cost ≤ root.cost ∧ ∀ u, (g.addTerm root).1.Represents u c → t.cost ≤ u.cost := by
  have htidy := h.addTerm root
  have hroot := h.represents_addTerm hc
  obtain ⟨t, ht, hmin⟩ := htidy.extract_cheapest hroot
  refine ⟨t, ?_, ?_, hmin root hroot, hmin⟩
  · unfold readOff
    simp [hc, ht]
  · exact (represents_of_extract ht).of_find_eq (htidy.models.find_find c)

theorem exists_class (hw : root.inWords = true) (g : EGraph) :
    ∃ c, (g.addTerm root).2 = some c := by
  simp [addTerm, hw]

/-- A term is represented in one class only, and in what stands for the same. -/
theorem Tidy.find_eq_of_represents (h : g.Tidy) (hc : g.Represents t c)
    (hc' : g.Represents t c') : g.classes.find c = g.classes.find c' := by
  have hmeans := insertTerm_of_means (h.satisfies_ofGraph.means_of_represents hc)
  have hmeans' := insertTerm_of_means (h.satisfies_ofGraph.means_of_represents hc')
  exact congrArg Prod.snd (hmeans.symm.trans hmeans')

/-- What was in one class stays so in every graph by whose classes the earlier one is true. -/
theorem sameClass_of_satisfies {g' : EGraph} {u : Term}
    (hs : Satisfies (.ofGraph g') g'.classes.find g.classes g.rows) (htu : g.SameClass t u) :
    g'.SameClass t u := by
  obtain ⟨c, ht, hu⟩ := htu
  exact ⟨_, represents_of_means (hs.means_of_represents ht),
    represents_of_means (hs.means_of_represents hu)⟩

theorem tidy_of_reached (h : Engine.Reached g) : g.Tidy := by
  induction h with
  | empty => exact tidy_empty
  | add _ t ih => exact ih.addTerm t
  | union _ l r ih => exact ih.union l r
  | iterate _ hsafe ih => exact ih.iterate fun r hr => (hsafe r hr).premises_ne_nil

end EGraph

theorem models_empty {V : Type} {I : Interpretation V} {v : V} (hv : I.Good v) :
    Models I (fun _ => v) ({} : EGraph).classes ({} : EGraph).rows where
  good _ := hv
  rep _ := rfl
  find_find _ := rfl
  find_lt _ hi := absurd hi (Nat.not_lt_zero _)
  fits _ hr := by cases hr

open EGraph in
/-- **E-graphs obey the laws of engines.** -/
instance : LawfulEngine EGraph where
  Equal := SameClass
  TrueIn I g := ∃ μ, Models I μ g.classes g.rows
  same_of_equal := by
    rintro V I g t u ⟨μ, h⟩ ⟨c, ht, hu⟩
    exact ⟨μ c, h.satisfies.means_of_represents ht, h.satisfies.means_of_represents hu⟩
  trueIn_empty hm := ⟨_, models_empty hm⟩
  trueIn_add := by
    rintro V I g t m ⟨μ, h⟩ ht
    obtain ⟨μ', h', -⟩ := h.addTerm ht
    exact ⟨μ', h'⟩
  trueIn_union := by
    rintro V I g l r m ⟨μ, h⟩ hl hr
    exact h.union hl hr
  trueIn_iterate := by
    rintro V I g rules ⟨μ, h⟩ hv
    exact h.iterate hv
  equal_add := by
    intro g t hg hw
    obtain ⟨c, hc⟩ := exists_class hw g
    have ht := (tidy_of_reached hg).represents_addTerm hc
    exact ⟨c, ht, ht⟩
  add_equal := by
    intro g t u hg h s
    have htidy := (tidy_of_reached hg).addTerm s
    exact sameClass_of_satisfies (Satisfies.of_addTerm htidy.satisfies_ofGraph).1 h
  iterate_equal := by
    intro g rules t u hg hsafe h
    have hne : ∀ r ∈ rules, r.premises ≠ [] := fun r hr => (hsafe r hr).premises_ne_nil
    have htidy := (tidy_of_reached hg).iterate hne
    exact sameClass_of_satisfies
      (Satisfies.of_iterate (tidy_of_reached hg) hne htidy.satisfies_ofGraph).1 h
  valid_of_idle := by
    intro g rules hg hsafe h
    have htidy : (g.iterate rules).Tidy := tidy_of_reached (.iterate hg hsafe)
    refine ⟨Nat, .ofGraph (g.iterate rules), (tidy_of_reached hg).valid_of_idle hsafe h,
      ⟨_, htidy.models_of_satisfies htidy.satisfies_ofGraph⟩, ?_⟩
    rintro t u ⟨m, ht, hu⟩
    exact ⟨m, represents_of_means ht, represents_of_means hu⟩
  readOff_fst g root := rfl
  readOff_snd := by
    intro g root hg hw
    have htidy := (tidy_of_reached hg).addTerm root
    obtain ⟨c, hc⟩ := exists_class hw g
    obtain ⟨t, ht, hrep, -, hmin⟩ := (tidy_of_reached hg).readOff_cheapest hc
    have hroot := (tidy_of_reached hg).represents_addTerm hc
    refine ⟨t, ht, ⟨c, hrep, hroot⟩, ?_⟩
    rintro u ⟨c', hu, hroot'⟩
    exact hmin u (hu.of_find_eq (htidy.find_eq_of_represents hroot' hroot))

end WhileLang
