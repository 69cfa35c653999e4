import WhileLang.Proofs.SaturationLoop
import WhileLang.Proofs.TidyGraph

/-!
# Graphs only grow

Whatever a graph says is said by every graph that comes from it: values that satisfy the later graph
satisfy the earlier one. They satisfy more than that. If a term was added, it means the value of its
class. If rules were applied, what follows from each instance that was found is true.

Merged classes are told apart no more, and rows are taken out only to be stated again in other
words, so each operation is read backwards: what it has left behind implies what was there.

* `Satisfies.of_merge`, `Satisfies.of_put`, `Satisfies.of_rebuildFor`: merging, stating a row and
  restoring congruence.
* `Satisfies.of_addTerm`: adding a term.
* `Rule.Applied`: what follows from the instances of a rule is true; `Satisfies.of_iterate`: one
  iteration.
-/

namespace WhileLang

variable {V : Type} {I : Interpretation V} {μ : Nat → V} {c : Classes} {rows rows' : List Row}

/-- What a row says is said by every row of the same shape whose class has the same value. -/
theorem Row.Holds.of_eq {r r' : Row} (h : r.Holds I μ) (hs : r.shape = r'.shape)
    (hc : μ r.cls = μ r'.cls) : r'.Holds I μ := by
  unfold Row.Holds at h ⊢
  rw [← hs, h, hc]

/-! ## Merging -/

namespace Classes

variable {i j : Nat}

/-- After a merge, one class stands for the two. -/
theorem find_merge_eq (hfind : ∀ k, c.find (c.find k) = c.find k)
    (hi : i < c.size) (hj : j < c.size) : (c.merge i j).find i = (c.merge i j).find j := by
  have hfi := hfind i
  have hfj := hfind j
  unfold merge
  simp only
  split
  · assumption
  · simp only [find_redirect]
    grind

/-- After a merge, a class and what stood for it before are still one. -/
theorem find_merge_find (hfind : ∀ k, c.find (c.find k) = c.find k)
    (hlt : ∀ k, k < c.size → c.find k < c.size) (k : Nat) :
    (c.merge i j).find (c.find k) = (c.merge i j).find k := by
  rcases Nat.lt_or_ge k c.size with hk | hk
  · have hfk := hfind k
    have hlk := hlt k hk
    unfold merge
    simp only
    split
    · exact hfk
    · simp only [find_redirect]
      grind
  · rw [find_of_size_le hk]

end Classes

namespace Satisfies

theorem with_rows (h : Satisfies I μ c rows) (hr : ∀ r ∈ rows', r ∈ rows ∨ r.Holds I μ) :
    Satisfies I μ c rows' :=
  ⟨h.good, h.rep, fun r hm => (hr r hm).elim (h.holds r) id⟩

theorem of_fresh (h : Satisfies I μ c.fresh.1 rows) : Satisfies I μ c rows := by
  refine ⟨h.good, fun k => ?_, h.holds⟩
  rw [← c.find_fresh k]
  exact h.rep k

theorem of_merge {i j : Nat} (hfind : ∀ k, c.find (c.find k) = c.find k)
    (hlt : ∀ k, k < c.size → c.find k < c.size) (hi : i < c.size) (hj : j < c.size)
    (h : Satisfies I μ (c.merge i j) rows) : Satisfies I μ c rows ∧ μ i = μ j := by
  refine ⟨⟨h.good, fun k => ?_, h.holds⟩, ?_⟩
  · rw [← h.rep (c.find k), Classes.find_merge_find hfind hlt, h.rep]
  · rw [← h.rep i, Classes.find_merge_eq hfind hi hj, h.rep]

/-! ## Stating rows and restoring congruence -/

variable {ks : List Kind} {g : EGraph} {r : Row}

theorem of_put (hg : g.Regular ks) (hr : g.Fits ks r)
    (h : Satisfies I μ (g.put r).classes (g.put r).rows) :
    Satisfies I μ g.classes g.rows ∧ r.Holds I μ := by
  unfold EGraph.put at h
  split at h
  · rw [EGraph.rows_append] at h
    exact ⟨h.with_rows fun r' hr' => .inl (List.mem_append_left _ hr'),
      h.holds r (List.mem_append_right _ List.mem_cons_self)⟩
  · next there hthere =>
      obtain ⟨hmem, hshape⟩ := EGraph.rowOf?_eq_some hthere
      have hlt := (hg.models.fits there hmem).cls_lt
      simp only at h
      split at h
      · rw [EGraph.rows_append, EGraph.rows_remove, EGraph.rows_merge] at h
        obtain ⟨h', heq⟩ := of_merge hg.models.find_find hg.models.find_lt hlt hr.cls_lt h
        have hrow : r.Holds I μ := h'.holds r (List.mem_append_right _ List.mem_cons_self)
        refine ⟨h'.with_rows fun r' hr' => ?_, hrow⟩
        by_cases hs : r'.shape = r.shape
        · -- the one row of this shape was taken out, and says what the new one does
          obtain rfl : r' = there := by
            rw [← hs, hg.rowOf?_eq hr'] at hthere
            exact Option.some.inj hthere
          exact .inr (hrow.of_eq hshape.symm heq.symm)
        · exact .inl (List.mem_append_left _ (List.mem_filter.2 ⟨hr', by simpa using hs⟩))
      · obtain ⟨h', heq⟩ := of_merge hg.models.find_find hg.models.find_lt hlt hr.cls_lt h
        exact ⟨h', (h'.holds there hmem).of_eq hshape heq⟩

theorem of_foldl_put {rs : List Row} (hg : g.Regular ks) (hrs : ∀ r ∈ rs, g.Fits ks r)
    (h : Satisfies I μ (rs.foldl EGraph.put g).classes (rs.foldl EGraph.put g).rows) :
    Satisfies I μ g.classes g.rows ∧ ∀ r ∈ rs, r.Holds I μ := by
  induction rs generalizing g with
  | nil => exact ⟨h, fun r hr => by cases hr⟩
  | cons r rs ih =>
      obtain ⟨hr, hrs⟩ := List.forall_mem_cons.1 hrs
      obtain ⟨h₁, hholds⟩ := ih (hg.put hr) (fun r' hr' => (hrs r' hr').put) h
      obtain ⟨h₂, hrow⟩ := of_put hg hr h₁
      exact ⟨h₂, List.forall_mem_cons.2 ⟨hrow, hholds⟩⟩

theorem of_rebuildRound (hg : g.Regular ks)
    (h : Satisfies I μ g.rebuildRound.classes g.rebuildRound.rows) :
    Satisfies I μ g.classes g.rows := by
  obtain ⟨h', hrows⟩ := of_foldl_put (hg.remove _) hg.fits_restated h
  rw [EGraph.rows_remove, EGraph.classes_remove] at h'
  refine h'.with_rows fun r hr => ?_
  by_cases hs : r.isStale g.classes = true
  · have hrow := hrows _ (List.mem_map_of_mem (List.mem_filter.2 ⟨hr, hs⟩))
    rw [Row.holds_map, funext h'.rep] at hrow
    exact .inr hrow
  · exact .inl (List.mem_filter.2 ⟨hr, by simpa using hs⟩)

theorem of_rebuildFor {n : Nat} (hg : g.Regular ks)
    (h : Satisfies I μ (EGraph.rebuildFor n g).classes (EGraph.rebuildFor n g).rows) :
    Satisfies I μ g.classes g.rows := by
  induction n generalizing g with
  | zero => exact h
  | succ n ih =>
      unfold EGraph.rebuildFor at h
      split at h
      · exact of_rebuildRound hg (ih hg.rebuildRound h)
      · exact h

/-- What a draft says is said by the graph in which it has been stated. -/
theorem of_accept {d : Draft} (hg : g.Tidy)
    (hd : Models (.ofKinds g.kinds) (fun _ => ()) d.classes (d.known g.rows))
    (h : Satisfies I μ (g.accept d).classes (g.accept d).rows) :
    Satisfies I μ d.classes (g.rows ++ d.rows) := by
  obtain ⟨hstart, hfits⟩ := hg.start hd
  obtain ⟨h', hrows⟩ := of_foldl_put hstart hfits (of_rebuildFor (hstart.foldl_put hfits) h)
  refine ⟨h'.good, h'.rep, List.forall_mem_append.2 ⟨fun r hr => h'.holds r ?_, fun r hr => ?_⟩⟩
  · rw [EGraph.rows, List.append_nil]
    exact hr
  · exact hrows r (List.mem_reverse.2 hr)

/-! ## Adding terms -/

variable {s : Shape} {t : Term}

theorem of_insert (h : Satisfies I μ (g.insert s).1.classes (g.insert s).1.rows) :
    Satisfies I μ g.classes g.rows ∧ I.denote μ s = some (μ (g.insert s).2) := by
  unfold EGraph.insert at h ⊢
  split at h
  · next row hrow =>
      obtain ⟨hmem, rfl⟩ := EGraph.rowOf?_eq_some hrow
      exact ⟨h, h.holds row hmem⟩
  · rw [EGraph.rows_append] at h
    have hrow := h.holds _ (List.mem_append_right _ List.mem_cons_self)
    exact ⟨h.of_fresh.with_rows fun r hr => .inl (List.mem_append_left _ hr), hrow⟩

/-- A term that has been added means the value of its class. -/
theorem of_insertTerm (h : Satisfies I μ (g.insertTerm t).1.classes (g.insertTerm t).1.rows) :
    Satisfies I μ g.classes g.rows ∧ I.Means t (μ (g.insertTerm t).2) := by
  induction t generalizing g with
  | num n =>
      obtain ⟨h', hs⟩ := of_insert h
      exact ⟨h', .num hs (h'.good _)⟩
  | symbol s =>
      obtain ⟨h', hs⟩ := of_insert h
      exact ⟨h', .symbol hs (h'.good _)⟩
  | silent =>
      obtain ⟨h', hs⟩ := of_insert h
      exact ⟨h', .silent hs (h'.good _)⟩
  | arg t ih =>
      obtain ⟨h₁, hs⟩ := of_insert h
      obtain ⟨h₂, ht⟩ := ih h₁
      exact ⟨h₂, .arg ht hs (h₂.good _)⟩
  | bin op l r ihl ihr =>
      obtain ⟨h₁, hs⟩ := of_insert h
      obtain ⟨h₂, hr⟩ := ihr h₁
      obtain ⟨h₃, hl⟩ := ihl h₂
      exact ⟨h₃, .bin hl hr hs (h₃.good _)⟩
  | print e v ihe ihv =>
      obtain ⟨h₁, hs⟩ := of_insert h
      obtain ⟨h₂, hv⟩ := ihv h₁
      obtain ⟨h₃, he⟩ := ihe h₂
      exact ⟨h₃, .print he hv hs (h₃.good _)⟩

theorem of_addTerm (h : Satisfies I μ (g.addTerm t).1.classes (g.addTerm t).1.rows) :
    Satisfies I μ g.classes g.rows ∧ ∀ c ∈ (g.addTerm t).2, I.Means t (μ c) := by
  revert h
  unfold EGraph.addTerm
  simp only
  split
  · intro h
    obtain ⟨h', ht⟩ := of_insertTerm h
    rw [EGraph.classes_noteKinds, EGraph.rows_noteKinds] at h'
    refine ⟨h', fun c hc => ?_⟩
    obtain rfl := Option.some.inj hc
    exact ht
  · intro h
    rw [EGraph.classes_noteKinds, EGraph.rows_noteKinds] at h
    exact ⟨h, fun c hc => by cases hc⟩

end Satisfies

/-! ## Drafts -/

section

variable {ix : Index} {g : EGraph}

/-- What is kept by giving a shape a new class, by drafting a row and by merging classes is kept by
applying rules. Only constructors of the rules have to be looked at. -/
theorem Draft.foldl_applyRule_induction {P : Draft → Prop} {rules : List Rule}
    (hnew : ∀ d s, s.kind ∈ rules.flatMap Rule.kinds → P d →
      P ⟨d.classes.fresh.1, ⟨s, d.classes.size⟩ :: d.made, ⟨s, d.classes.size⟩ :: d.rows⟩)
    (hrow : ∀ d r, r.shape.kind ∈ rules.flatMap Rule.kinds → P d →
      P { d with rows := r :: d.rows })
    (hmerge : ∀ d i j, P d → P { d with classes := d.classes.merge i j })
    {d : Draft} (h : P d) : P (rules.foldl (Draft.applyRule g ix) d) := by
  have hpart : ∀ d s, s.kind ∈ rules.flatMap Rule.kinds → P d → P (d.part ix s).1 := by
    intro d s hs hd
    unfold Draft.part
    split
    · exact hd
    · split
      · exact hd
      · exact hnew d s hs hd
  have hall : ∀ p : Row, p.shape.kind ∈ rules.flatMap Rule.kinds → ∀ σs d, P d →
      P (Draft.partOfAll ix p σs d).1 := by
    intro p hp σs
    induction σs with
    | nil => exact fun d hd => hd
    | cons σ σs ih => exact fun d hd => ih _ (hpart d _ (by rwa [Shape.kind_map]) hd)
  have hconclude : ∀ r ∈ rules, ∀ d σ, P d → P (Draft.conclude ix r.conclusion d σ) := by
    intro r hr d σ hd
    unfold Draft.conclude
    split
    · next row hc =>
        simp only
        split
        · exact hd
        · refine hrow d _ (List.mem_flatMap.2 ⟨r, hr, ?_⟩) hd
          rw [Row.map, Shape.kind_map]
          exact Rule.kind_conclusion_mem hc
    · exact hmerge d _ _ hd
  have hbatch : ∀ r ∈ rules, ∀ d batch, P d → P (Draft.applyBatch ix r d batch) := by
    intro r hr d batch hd
    unfold Draft.applyBatch
    refine List.foldlRecOn _ _ ?_ fun d hd σ _ => hconclude r hr d σ hd
    refine List.foldlRecOn (motive := fun found : Draft × List Assignment => P found.1)
      r.parts _ hd ?_
    intro found hfound p hp
    exact hall p (List.mem_flatMap.2 ⟨r, hr, Rule.kind_part_mem hp⟩) found.2 found.1 hfound
  refine List.foldlRecOn rules _ h fun d hd r hr => ?_
  exact List.foldlRecOn (r.batches g) _ hd fun d hd batch _ => hbatch r hr d batch hd

/-- The rows of the parts that have been given a new class are among those that are drafted. -/
theorem EGraph.made_subset_rows (g : EGraph) (rules : List Rule) :
    ∀ r ∈ (g.draft rules).made, r ∈ (g.draft rules).rows := by
  refine Draft.foldl_applyRule_induction (P := fun d => ∀ r ∈ d.made, r ∈ d.rows) ?_ ?_ ?_ ?_
  · intro d s _ hd
    exact List.forall_mem_cons.2
      ⟨List.mem_cons_self, fun r hr => List.mem_cons_of_mem _ (hd r hr)⟩
  · exact fun d r _ hd r' hr' => List.mem_cons_of_mem _ (hd r' hr')
  · exact fun d i j hd => hd
  · exact fun r hr => by cases hr

/-- What is drafted has constructors of the rules only. -/
theorem EGraph.kind_mem_of_mem_draft (g : EGraph) (rules : List Rule) :
    ∀ r ∈ (g.draft rules).rows, r.shape.kind ∈ rules.flatMap Rule.kinds := by
  refine Draft.foldl_applyRule_induction
    (P := fun d => ∀ r ∈ d.rows, r.shape.kind ∈ rules.flatMap Rule.kinds) ?_ ?_ ?_ ?_
  · exact fun d s hs hd => List.forall_mem_cons.2 ⟨hs, hd⟩
  · exact fun d r hr hd => List.forall_mem_cons.2 ⟨hr, hd⟩
  · exact fun d i j hd => hd
  · exact fun r hr => by cases hr

/-- What follows from each instance of a rule is true of given values of the classes. -/
def Rule.Applied (I : Interpretation V) (μ : Nat → V) (g : EGraph) (r : Rule) : Prop :=
  ∀ batch ∈ r.batches g, ∀ σ ∈ batch, r.conclusion.Follows I r.parts fun x => μ (σ.get x)

theorem Rule.applied_noteKinds {ks : List Kind} {r : Rule} :
    r.Applied I μ (g.noteKinds ks) ↔ r.Applied I μ g := by
  obtain ⟨ks', h⟩ := g.noteKinds_eq ks
  rw [h]
  rfl

end

namespace Satisfies

variable {W : Type} {J : Interpretation W} {ν : Nat → W} {ix : Index} {d : Draft} {g : EGraph}
  {conclusion : Conclusion}

theorem of_part {s : Shape} (hix : ∀ s c, ix[s]? = some c → ⟨s, c⟩ ∈ rows)
    (h : Satisfies I μ (d.part ix s).1.classes ((d.part ix s).1.known rows)) :
    Satisfies I μ d.classes (d.known rows) ∧ I.denote μ s = some (μ (d.part ix s).2) := by
  revert h
  unfold Draft.part
  split
  · next c hc =>
      intro h
      exact ⟨h, h.holds _ (List.mem_append_left _ (hix s c hc))⟩
  · split
    · next row hrow =>
        intro h
        obtain rfl : row.shape = s := by simpa using List.find?_some hrow
        have hmem := List.mem_append_left d.rows (List.mem_of_find?_eq_some hrow)
        exact ⟨h, h.holds row (List.mem_append_right _ hmem)⟩
    · intro h
      refine ⟨h.of_fresh.with_rows fun r hr => .inl ?_, h.holds ⟨s, d.classes.size⟩ ?_⟩
      · simp only [Draft.known, List.mem_append, List.mem_cons] at hr ⊢
        tauto
      · simp [Draft.known]

/-- If the conclusion follows once a part has been found, it follows from this part on. -/
theorem of_partOfAll {p : Row} {parts : List Row} {σs : List Assignment}
    (hix : ∀ s c, ix[s]? = some c → ⟨s, c⟩ ∈ rows)
    (h : Satisfies I μ (d.partOfAll ix p σs).1.classes ((d.partOfAll ix p σs).1.known rows))
    (hf : ∀ σ ∈ (d.partOfAll ix p σs).2, conclusion.Follows I parts fun x => μ (σ.get x)) :
    Satisfies I μ d.classes (d.known rows) ∧
      ∀ σ ∈ σs, conclusion.Follows I (p :: parts) fun x => μ (σ.get x) := by
  induction σs generalizing d with
  | nil => exact ⟨h, fun σ hσ => by cases hσ⟩
  | cons σ σs ih =>
      obtain ⟨hfirst, hrest⟩ := List.forall_mem_cons.1 hf
      obtain ⟨h₁, hfollows⟩ := ih h hrest
      obtain ⟨h₂, hs⟩ := of_part hix h₁
      refine ⟨h₂, List.forall_mem_cons.2
        ⟨⟨μ (d.part ix (p.shape.map σ.get)).2, ?_, h₂.good _, ?_⟩, hfollows⟩⟩
      · rw [← I.denote_map, hs]
      · rw [← Assignment.comp_get_cons]
        exact hfirst

theorem of_foldl_partOfAll {parts : List Row} {σs : List Assignment}
    (hix : ∀ s c, ix[s]? = some c → ⟨s, c⟩ ∈ rows) :
    let found := parts.foldl (fun (d, σs) p => d.partOfAll ix p σs) (d, σs)
    Satisfies I μ found.1.classes (found.1.known rows) →
      (∀ σ ∈ found.2, conclusion.Holds I fun x => μ (σ.get x)) →
        Satisfies I μ d.classes (d.known rows) ∧
          ∀ σ ∈ σs, conclusion.Follows I parts fun x => μ (σ.get x) := by
  induction parts generalizing d σs with
  | nil => exact fun h hf => ⟨h, hf⟩
  | cons p parts ih =>
      intro found h hf
      obtain ⟨h₁, hf₁⟩ := ih h hf
      exact of_partOfAll hix h₁ hf₁

/-- What has been concluded is true. -/
theorem of_conclude {σ : Assignment} (hix : ∀ s c, ix[s]? = some c → ⟨s, c⟩ ∈ rows)
    (hd : Models J ν d.classes (d.known rows)) (hσ : Ready J ν d.classes.size conclusion [] σ)
    (h : Satisfies I μ (d.conclude ix conclusion σ).classes
      ((d.conclude ix conclusion σ).known rows)) :
    Satisfies I μ d.classes (d.known rows) ∧ conclusion.Holds I fun x => μ (σ.get x) := by
  revert h
  unfold Draft.conclude
  cases conclusion with
  | equal x y =>
      intro h
      exact of_merge hd.find_find hd.find_lt (hσ.get_lt x) (hσ.get_lt y) h
  | row r =>
      simp only
      split
      · next hthere =>
          intro h
          refine ⟨h, Row.holds_map.1 (h.holds _ (List.mem_append_left _ ?_))⟩
          exact hix _ _ hthere
      · intro h
        refine ⟨h.with_rows fun r' hr' => .inl ?_, Row.holds_map.1 (h.holds _ ?_)⟩
        · simp only [Draft.known, List.mem_append, List.mem_cons] at hr' ⊢
          tauto
        · simp [Draft.known]

theorem of_foldl_conclude {σs : List Assignment} (hix : ∀ s c, ix[s]? = some c → ⟨s, c⟩ ∈ rows)
    (hd : Models J ν d.classes (d.known rows))
    (hσs : ∀ σ ∈ σs, Ready J ν d.classes.size conclusion [] σ)
    (h : Satisfies I μ (σs.foldl (Draft.conclude ix conclusion) d).classes
      ((σs.foldl (Draft.conclude ix conclusion) d).known rows)) :
    Satisfies I μ d.classes (d.known rows) ∧
      ∀ σ ∈ σs, conclusion.Holds I fun x => μ (σ.get x) := by
  induction σs generalizing d with
  | nil => exact ⟨h, fun σ hσ => by cases hσ⟩
  | cons σ σs ih =>
      obtain ⟨hσ, hrest⟩ := List.forall_mem_cons.1 hσs
      obtain ⟨hd₁, hsize⟩ := hd.conclude ix hσ
      obtain ⟨h₁, hholds⟩ := ih hd₁ (fun τ hτ => hsize ▸ hrest τ hτ) h
      obtain ⟨h₂, hσholds⟩ := of_conclude hix hd hσ h₁
      exact ⟨h₂, List.forall_mem_cons.2 ⟨hσholds, hholds⟩⟩

theorem of_applyBatch {rule : Rule} {batch : List Assignment}
    (hix : ∀ s c, ix[s]? = some c → ⟨s, c⟩ ∈ rows)
    (hd : Models J ν d.classes (d.known rows))
    (hb : ∀ σ ∈ batch, Ready J ν d.classes.size rule.conclusion rule.parts σ)
    (h : Satisfies I μ (d.applyBatch ix rule batch).classes
      ((d.applyBatch ix rule batch).known rows)) :
    Satisfies I μ d.classes (d.known rows) ∧
      ∀ σ ∈ batch, rule.conclusion.Follows I rule.parts fun x => μ (σ.get x) := by
  obtain ⟨ν₁, -, hd₁, hσs⟩ := hd.foldl_partOfAll hix hb
  obtain ⟨h₁, hholds⟩ := of_foldl_conclude hix hd₁ hσs h
  exact of_foldl_partOfAll hix h₁ hholds

theorem of_foldl_applyBatch {rule : Rule} {batches : List (List Assignment)} (hv : rule.Valid J)
    (hix : ∀ s c, ix[s]? = some c → ⟨s, c⟩ ∈ g.rows)
    (hb : ∀ batch ∈ batches, batch ∈ rule.batches g) (hd : Models J ν d.classes (d.known g.rows))
    (h : Satisfies I μ (batches.foldl (Draft.applyBatch ix rule) d).classes
      ((batches.foldl (Draft.applyBatch ix rule) d).known g.rows)) :
    Satisfies I μ d.classes (d.known g.rows) ∧
      ∀ batch ∈ batches, ∀ σ ∈ batch,
        rule.conclusion.Follows I rule.parts fun x => μ (σ.get x) := by
  induction batches generalizing d ν with
  | nil => exact ⟨h, fun batch hbatch => by cases hbatch⟩
  | cons batch batches ih =>
      obtain ⟨hbatch, hrest⟩ := List.forall_mem_cons.1 hb
      have hready : ∀ σ ∈ batch, Ready J ν d.classes.size rule.conclusion rule.parts σ := by
        intro σ hσ
        exact hd.ready_of_mem_batches hv hbatch hσ
      obtain ⟨ν₁, -, hd₁⟩ := hd.applyBatch hix hready
      obtain ⟨h₁, hfollows⟩ := ih hrest hd₁ h
      obtain ⟨h₂, hfirst⟩ := of_applyBatch hix hd hready h₁
      exact ⟨h₂, List.forall_mem_cons.2 ⟨hfirst, hfollows⟩⟩

theorem of_foldl_applyRule {rules : List Rule} (hv : ∀ r ∈ rules, r.Valid J)
    (hix : ∀ s c, ix[s]? = some c → ⟨s, c⟩ ∈ g.rows) (hd : Models J ν d.classes (d.known g.rows))
    (h : Satisfies I μ (rules.foldl (Draft.applyRule g ix) d).classes
      ((rules.foldl (Draft.applyRule g ix) d).known g.rows)) :
    Satisfies I μ d.classes (d.known g.rows) ∧ ∀ r ∈ rules, r.Applied I μ g := by
  induction rules generalizing d ν with
  | nil => exact ⟨h, fun r hr => by cases hr⟩
  | cons rule rules ih =>
      obtain ⟨hrule, hrest⟩ := List.forall_mem_cons.1 hv
      obtain ⟨ν₁, hd₁⟩ := hd.foldl_applyBatch hrule hix fun _ hb => hb
      obtain ⟨h₁, happlied⟩ := ih hrest hd₁ h
      obtain ⟨h₂, hfirst⟩ := of_foldl_applyBatch hrule hix (fun _ hb => hb) hd h₁
      exact ⟨h₂, List.forall_mem_cons.2 ⟨hfirst, happlied⟩⟩

/-! ## Iterations -/

variable {rules : List Rule}

/-- What an iteration drafts says what follows from all instances of the rules. -/
theorem of_draft (hv : ∀ r ∈ rules, r.Valid J) (hg : Models J ν g.classes g.rows)
    (h : Satisfies I μ (g.draft rules).classes (g.rows ++ (g.draft rules).rows)) :
    Satisfies I μ g.classes g.rows ∧ ∀ r ∈ rules, r.Applied I μ g := by
  have hknown : Satisfies I μ (g.draft rules).classes ((g.draft rules).known g.rows) := by
    refine h.with_rows fun r hr => .inl ?_
    simp only [Draft.known, List.mem_append] at hr ⊢
    exact hr.imp_right fun hr => hr.elim (g.made_subset_rows rules r) id
  obtain ⟨h', happlied⟩ := of_foldl_applyRule (ν := ν) (d := { classes := g.classes }) hv
    (fun s c => EGraph.mem_rows_of_index) (by simpa [Draft.known] using hg) hknown
  exact ⟨by simpa [Draft.known] using h', happlied⟩

/-- **What an iteration leaves behind** says what was there before, and what follows from all
instances of the rules. -/
theorem of_iterate (hg : g.Tidy) (hne : ∀ r ∈ rules, r.premises ≠ [])
    (h : Satisfies I μ (g.iterate rules).classes (g.iterate rules).rows) :
    Satisfies I μ g.classes g.rows ∧ ∀ r ∈ rules, r.Applied I μ g := by
  unfold EGraph.iterate at h
  split at h
  · next hempty =>
      rw [List.isEmpty_iff.1 hempty]
      exact ⟨h, fun r hr => by cases hr⟩
  · have hn := hg.noteKinds (rules.flatMap Rule.kinds)
    have hv := EGraph.valid_ofKinds (g := g.noteKinds (rules.flatMap Rule.kinds)) hne
      fun k hk => EGraph.mem_kinds_noteKinds.2 (.inr hk)
    obtain ⟨h', happlied⟩ := of_draft hv hn.models (of_accept hn (hn.draft hv) h)
    rw [EGraph.classes_noteKinds, EGraph.rows_noteKinds] at h'
    exact ⟨h', fun r hr => Rule.applied_noteKinds.1 (happlied r hr)⟩

end Satisfies

/-! ## Iterations that keep a graph tidy -/

namespace EGraph

variable {g : EGraph} {rules : List Rule} {budget : Budget} {clock : Clock} {patience : Nat}

theorem Tidy.progress (hg : g.Tidy) (hne : ∀ r ∈ rules, r.premises ≠ []) :
    (Engine.progress g rules budget clock patience).graph.Tidy :=
  Engine.progress_induction (P := Tidy) (fun _ h => h.iterate hne) hg

end EGraph

end WhileLang
