import WhileLang.Proofs.GraphGrowth
import WhileLang.Proofs.RepresentedTerms

/-!
# Saturated graphs

A tidy graph is an interpretation of its own: a shape denotes the class of its row. A term means a
class exactly if it is represented in it, and adding such a term changes nothing.

All instances of a rule are found: if the premises are rows under some choice of classes, one of the
batches has an instance with that choice. So when an iteration changes nothing, what follows from
the premises is there already, and the rules are valid by the classes of the graph. Every graph that
is built from a represented term with these rules then has a model in the saturated one.

* `Interpretation.ofGraph`: the interpretation by the classes of a graph.
* `EGraph.Tidy.satisfies_ofGraph`, `EGraph.represents_of_means`: meaning is being represented.
* `EGraph.insertTerm_of_means`: adding a represented term changes nothing.
* `Rule.exists_instance`: all instances are found.
* `EGraph.Tidy.valid_of_idle`: the rules are valid by the classes of a graph that they leave as it
  is.
-/

namespace WhileLang

/-! ## The interpretation by the classes of a graph -/

theorem Shape.map_map (f f' : Nat → Nat) (s : Shape) :
    (s.map f).map f' = s.map fun i => f' (f i) := by
  cases s <;> rfl

/-- A shape of classes denotes the class of its row. -/
def Interpretation.ofGraph (g : EGraph) : Interpretation Nat where
  denote μ s := (g.rowOf? (s.map μ)).map (·.cls)
  Good _ := True
  denote_map μ f s := by rw [s.map_map]
  denote_congr h := by rw [Shape.map_congr h]

namespace EGraph

variable {g : EGraph} {t : Term} {μ : Nat → Nat} {s : Shape} {m : Nat} {r : Row}

theorem mem_rows_of_denote (h : (Interpretation.ofGraph g).denote μ s = some m) :
    ⟨s.map μ, m⟩ ∈ g.rows := by
  obtain ⟨row, hrow, rfl⟩ := Option.map_eq_some_iff.1 h
  obtain ⟨hmem, hshape⟩ := rowOf?_eq_some hrow
  rw [← hshape]
  exact hmem

theorem Tidy.holds_ofGraph (h : g.Tidy) : r.Holds (.ofGraph g) μ ↔ r.map μ ∈ g.rows := by
  constructor
  · exact mem_rows_of_denote
  · intro hr
    have hrow := h.rowOf?_eq hr
    show ((g.rowOf? (r.shape.map μ)).map (·.cls)) = some (μ r.cls)
    rw [show r.shape.map μ = (r.map μ).shape from rfl, hrow]
    rfl

/-- What a tidy graph says is true by its own classes. -/
theorem Tidy.satisfies_ofGraph (h : g.Tidy) :
    Satisfies (.ofGraph g) g.classes.find g.classes g.rows where
  good _ := trivial
  rep := h.models.find_find
  holds r hr := by
    rw [h.holds_ofGraph, h.canonical r hr]
    exact hr

/-- A term that means a class is represented in it. -/
theorem represents_of_means (h : (Interpretation.ofGraph g).Means t m) : g.Represents t m := by
  induction h with
  | num h => exact .num (mem_rows_of_denote h) rfl
  | symbol h => exact .symbol (mem_rows_of_denote h) rfl
  | silent h => exact .silent (mem_rows_of_denote h) rfl
  | arg _ h _ ih => exact .arg (mem_rows_of_denote h) rfl ih
  | bin _ _ h _ ihl ihr => exact .bin (mem_rows_of_denote h) rfl ihl ihr
  | print _ _ h _ ihe ihv => exact .print (mem_rows_of_denote h) rfl ihe ihv

theorem insert_of_denote (h : (Interpretation.ofGraph g).denote μ s = some m) :
    g.insert (s.map μ) = (g, m) := by
  obtain ⟨row, hrow, rfl⟩ := Option.map_eq_some_iff.1 h
  unfold insert
  rw [hrow]

/-- Adding a term that means a class gives the class and changes nothing. -/
theorem insertTerm_of_means (h : (Interpretation.ofGraph g).Means t m) :
    g.insertTerm t = (g, m) := by
  induction h with
  | num h => exact insert_of_denote h
  | symbol h => exact insert_of_denote h
  | silent h => exact insert_of_denote h
  | arg _ h _ ih =>
      rw [insertTerm, ih]
      exact insert_of_denote h
  | bin _ _ h _ ihl ihr =>
      rw [insertTerm, ihl]
      simp only
      rw [ihr]
      exact insert_of_denote h
  | print _ _ h _ ihe ihv =>
      rw [insertTerm, ihe]
      simp only
      rw [ihv]
      exact insert_of_denote h

end EGraph

/-! ## All instances are found -/

/-- All classes chosen are given values. -/
def Assignment.Agrees (v : Nat → Nat) (σ : Assignment) : Prop :=
  ∀ x c, σ.lookup x = some c → c = v x

section

variable {v : Nat → Nat} {σ : Assignment}

theorem Assignment.Agrees.choose? (h : σ.Agrees v) (x : Nat) :
    ∃ σ', σ.choose? x (v x) = some σ' ∧ σ'.Agrees v := by
  unfold Assignment.choose?
  split
  · refine ⟨_, rfl, fun y c hy => ?_⟩
    by_cases hyx : y = x
    · rw [hyx] at hy ⊢
      simpa using hy.symm
    · rw [lookup_cons_of_ne hyx] at hy
      exact h y c hy
  · next c hx =>
      rw [if_pos (h x c hx)]
      exact ⟨σ, rfl, h⟩

theorem Row.matches?_map {p : Row} (hp : p.isPattern = true) (h : σ.Agrees v) :
    ∃ σ', p.matches? (p.map v) σ = some σ' ∧ σ'.Agrees v := by
  obtain ⟨shape, l⟩ := p
  cases shape with
  | num n =>
      obtain ⟨σ₁, h₁, hσ₁⟩ := h.choose? l
      exact ⟨σ₁, by simp [matches?, Row.map, Shape.map, h₁], hσ₁⟩
  | bin op x y =>
      obtain ⟨σ₁, h₁, hσ₁⟩ := h.choose? x
      obtain ⟨σ₂, h₂, hσ₂⟩ := hσ₁.choose? y
      obtain ⟨σ₃, h₃, hσ₃⟩ := hσ₂.choose? l
      exact ⟨σ₃, by simp [matches?, Row.map, Shape.map, h₁, h₂, h₃], hσ₃⟩
  | symbol | arg | silent | print => cases hp

/-- If premises are among given rows under a choice of classes, the choice is found. -/
theorem exists_mem_joinRows {ps : List Row} {sources : List (List Row)}
    (hps : ∀ p ∈ ps, p.isPattern = true)
    (hs : List.Forall₂ (fun p source => p.map v ∈ source) ps sources) (h : σ.Agrees v) :
    ∃ σ' ∈ joinRows ps sources σ, σ.Le σ' ∧ σ'.Agrees v ∧
      ∀ p ∈ ps, ∀ x ∈ p.vars, ∃ c, σ'.lookup x = some c := by
  induction hs generalizing σ with
  | nil =>
      refine ⟨σ, ?_, fun x c hx => hx, h, fun p hp => by cases hp⟩
      rw [joinRows]
      exact List.mem_cons_self
  | @cons p source ps sources hp _ ih =>
      obtain ⟨hpat, hps⟩ := List.forall_mem_cons.1 hps
      obtain ⟨σ₁, hm, hσ₁⟩ := Row.matches?_map hpat h
      obtain ⟨σ₂, hmem, hle₂, hσ₂, hchosen⟩ := ih hps hσ₁
      obtain ⟨hle₁, hmatched, -⟩ := Row.matches?_eq_some hm
      refine ⟨σ₂, mem_joinRows_cons.2 ⟨_, hp, σ₁, hm, hmem⟩, hle₁.trans hle₂, hσ₂,
        List.forall_mem_cons.2 ⟨fun x hx => ?_, hchosen⟩⟩
      obtain ⟨c, hc⟩ := hmatched.chosen x hx
      exact ⟨c, hle₂ x c hc⟩

/-- Whatever rows are taken for the premises, there is a batch that looks for each of them where it
is: the one for the first of them that is recent. -/
theorem exists_mem_batchSources {settled recent rs : List Row}
    (h : ∀ r ∈ rs, r ∈ settled ++ recent) :
    ∃ sources ∈ batchSources settled recent rs.length, List.Forall₂ (· ∈ ·) rs sources := by
  induction rs with
  | nil => exact ⟨[], by simp [batchSources], .nil⟩
  | cons r rs ih =>
      obtain ⟨hr, hrs⟩ := List.forall_mem_cons.1 h
      rcases List.mem_append.1 hr with hr | hr
      · obtain ⟨sources, hsources, hall⟩ := ih hrs
        refine ⟨settled :: sources, ?_, .cons hr hall⟩
        exact List.mem_cons_of_mem _ (List.mem_map_of_mem hsources)
      · refine ⟨recent :: List.replicate rs.length (settled ++ recent), List.mem_cons_self,
          .cons hr ?_⟩
        rw [List.forall₂_iff_get]
        simpa using fun i hi => List.mem_append.1 (hrs _ (List.getElem_mem hi))

/-- **All instances are found.** If the premises of a rule are rows under a choice of classes, there
is an instance with this choice. -/
theorem Rule.exists_instance {r : Rule} {g : EGraph} (hp : ∀ p ∈ r.premises, p.isPattern = true)
    (hv : ∀ p ∈ r.premises, p.map v ∈ g.rows) :
    ∃ batch ∈ r.batches g, ∃ σ ∈ batch, ∀ p ∈ r.premises, ∀ x ∈ p.vars, σ.get x = v x := by
  have hrows : ∀ row ∈ r.premises.map (·.map v), row ∈ g.settled ++ g.recent := by
    exact List.forall_mem_map.2 hv
  obtain ⟨sources, hsources, hall⟩ := exists_mem_batchSources hrows
  rw [List.length_map] at hsources
  rw [List.forall₂_map_left_iff] at hall
  have hnone : Assignment.Agrees v [] := fun x c hx => by cases hx
  obtain ⟨σ, hσ, -, hagrees, hchosen⟩ := exists_mem_joinRows hp hall hnone
  refine ⟨_, List.mem_map_of_mem hsources, σ, hσ, fun p hp x hx => ?_⟩
  obtain ⟨c, hc⟩ := hchosen p hp x hx
  rw [Assignment.get_eq hc, hagrees x c hc]

end

/-! ## Saturation -/

/-- If what follows from each instance is there, a safe rule is valid by the classes of a graph. -/
theorem Rule.Safe.valid_ofGraph {r : Rule} {g g₀ : EGraph} (hr : r.Safe) (hg : g.Tidy)
    (hrows : g₀.rows = g.rows) (happlied : r.Applied (.ofGraph g) g.classes.find g₀) :
    r.Valid (.ofGraph g) := by
  refine ⟨hr.premises_ne_nil, fun v _ hv => ?_⟩
  have hpremise : ∀ p ∈ r.premises, p.map v ∈ g.rows := fun p hp => hg.holds_ofGraph.1 (hv p hp)
  obtain ⟨batch, hbatch, σ, hσ, hget⟩ :=
    exists_instance (g := g₀) hr.patterns fun p hp => hrows ▸ hpremise p hp
  refine (happlied batch hbatch σ hσ).congr hr.bound fun x hx => ?_
  obtain ⟨p, hp, hxp⟩ := List.mem_flatMap.1 hx
  -- the class chosen is one of a row, so it stands for itself
  have hroot : ∀ y ∈ p.vars, g.classes.find (v y) = v y := by
    have hcanonical := Row.map_eq_self.1 (hg.canonical _ (hpremise p hp))
    refine List.forall_mem_cons.2 ⟨hcanonical.1, fun y hy => hcanonical.2 _ ?_⟩
    rw [Row.map, Shape.children_map]
    exact List.mem_map_of_mem hy
  rw [hget p hp x hxp, hroot x hxp]

/-- **When rules have nothing left to change, they are valid**: whatever follows from them for the
classes of the graph is there. -/
theorem EGraph.Tidy.valid_of_idle {g : EGraph} {rules : List Rule} (hg : g.Tidy)
    (hsafe : ∀ r ∈ rules, r.Safe) (h : g.updated (g.iterate rules) = false) :
    ∀ r ∈ rules, r.Valid (.ofGraph (g.iterate rules)) := by
  have hne : ∀ r ∈ rules, r.premises ≠ [] := fun r hr => (hsafe r hr).premises_ne_nil
  have hrows : g.rows = (g.iterate rules).rows := by
    simp only [updated, Bool.or_eq_false_iff, decide_eq_false_iff_not, not_not] at h
    exact h.2
  have htidy : (g.iterate rules).Tidy := hg.iterate hne
  obtain ⟨-, happlied⟩ := Satisfies.of_iterate hg hne htidy.satisfies_ofGraph
  exact fun r hr => (hsafe r hr).valid_ofGraph htidy hrows (happlied r hr)

end WhileLang
