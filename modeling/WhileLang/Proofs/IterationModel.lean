import WhileLang.EGraph.Iterate
import WhileLang.Proofs.GraphModel
import WhileLang.Proofs.Lookup

/-!
# Iterations keep a model

Every instance of a rule that an iteration finds really is one: under its choice of classes the
premises are rows of the graph. The premises then are true in a model, so a valid rule makes its
parts denote something and its conclusion true. A part that has no row gets a new class, which the
model gives the value of the part; the same model holds what is drafted, and stating a draft
keeps it.

* `mem_joinRows_cons`: an instance is a row for the first premise and an instance of the rest.
* `Rule.of_mem_batches`: the premises of an instance are rows.
* `Ready`: an instance whose remaining parts denote something and whose conclusion then is true.
* `Models.part`, `Models.partOfAll`, `Models.conclude`, `Models.applyBatch`: one lemma for each step
  of a draft.
* `Models.iterate`: an iteration with valid rules has a model again.
-/

namespace WhileLang

/-! ## Instances -/

namespace Assignment

/-- All choices of the first are choices of the second. -/
def Le (σ σ' : Assignment) : Prop :=
  ∀ x c, σ.lookup x = some c → σ'.lookup x = some c

/-- All classes chosen are below a number. -/
def Within (n : Nat) (σ : Assignment) : Prop :=
  ∀ x c, σ.lookup x = some c → c < n

theorem Le.trans {σ σ' σ'' : Assignment} (h : σ.Le σ') (h' : σ'.Le σ'') : σ.Le σ'' :=
  fun x c hx => h' x c (h x c hx)

theorem get_eq {σ : Assignment} {x c : Nat} (h : σ.lookup x = some c) : σ.get x = c := by
  rw [get, h]
  rfl

theorem Within.get_lt {n : Nat} {σ : Assignment} (h : σ.Within n) (hn : 0 < n) (x : Nat) :
    σ.get x < n := by
  unfold get
  cases hx : σ.lookup x with
  | none => exact hn
  | some c => exact h x c hx

theorem get_cons_self (x c : Nat) (σ : Assignment) : get ((x, c) :: σ) x = c :=
  get_eq (by simp)

theorem get_cons_of_ne {x y : Nat} (h : y ≠ x) (c : Nat) (σ : Assignment) :
    get ((x, c) :: σ) y = σ.get y := by
  rw [get, get, lookup_cons_of_ne h]

/-- The values of the variables after one more choice. -/
theorem comp_get_cons {V : Type} (μ : Nat → V) (x c : Nat) (σ : Assignment) :
    (fun y => μ (get ((x, c) :: σ) y)) = Function.update (fun y => μ (σ.get y)) x (μ c) := by
  funext y
  by_cases hy : y = x
  · rw [hy, get_cons_self, Function.update_self]
  · rw [get_cons_of_ne hy, Function.update_of_ne hy]

theorem choose?_eq_some {σ σ' : Assignment} {x c : Nat} (h : σ.choose? x c = some σ') :
    σ.Le σ' ∧ σ'.lookup x = some c ∧ ∀ n, σ.Within n → c < n → σ'.Within n := by
  unfold choose? at h
  split at h
  · next hx =>
      obtain rfl := Option.some.inj h
      refine ⟨fun y d hy => ?_, by simp, fun n hn hc y d hy => ?_⟩
      · have hyx : y ≠ x := fun heq => by simp [heq, hx] at hy
        rw [lookup_cons_of_ne hyx]
        exact hy
      · by_cases hyx : y = x
        · simp_all
        · rw [lookup_cons_of_ne hyx] at hy
          exact hn y d hy
  · next c' hx =>
      obtain ⟨rfl, hσ⟩ := Option.ite_none_right_eq_some.1 h
      obtain rfl := Option.some.inj hσ
      exact ⟨fun _ _ hy => hy, hx, fun n hn _ => hn⟩

end Assignment

/-- A premise is a given row under a choice that covers all its variables. -/
structure Row.MatchedBy (premise row : Row) (σ : Assignment) : Prop where
  map_eq : premise.map σ.get = row
  chosen : ∀ x ∈ premise.cls :: premise.shape.children, ∃ c, σ.lookup x = some c

theorem Shape.map_congr {f f' : Nat → Nat} {s : Shape} (h : ∀ x ∈ s.children, f' x = f x) :
    s.map f' = s.map f := by
  cases s <;> simp_all [map, children]

theorem Row.MatchedBy.mono {premise row : Row} {σ σ' : Assignment}
    (h : premise.MatchedBy row σ) (hle : σ.Le σ') : premise.MatchedBy row σ' := by
  have hget : ∀ x ∈ premise.cls :: premise.shape.children, σ'.get x = σ.get x := by
    intro x hx
    obtain ⟨c, hc⟩ := h.chosen x hx
    rw [Assignment.get_eq hc, Assignment.get_eq (hle x c hc)]
  obtain ⟨hcls, hchildren⟩ := List.forall_mem_cons.1 hget
  refine ⟨?_, fun x hx => ?_⟩
  · rw [← h.map_eq, Row.map, Row.map, hcls, Shape.map_congr hchildren]
  · obtain ⟨c, hc⟩ := h.chosen x hx
    exact ⟨c, hle x c hc⟩

theorem Row.matches?_eq_some {premise row : Row} {σ σ' : Assignment}
    (h : premise.matches? row σ = some σ') :
    σ.Le σ' ∧ premise.MatchedBy row σ' ∧ ∀ n, row.Within n → σ.Within n → σ'.Within n := by
  obtain ⟨shape, cls⟩ := row
  obtain ⟨pattern, l⟩ := premise
  unfold matches? at h
  split at h
  · next k m hk hm =>
      obtain ⟨rfl, hσ'⟩ := Option.ite_none_right_eq_some.1 h
      obtain ⟨hle, hl, hw⟩ := Assignment.choose?_eq_some hσ'
      simp only at hk hm
      subst hk hm
      refine ⟨hle, ⟨?_, ?_⟩, fun n hr hσ => hw n hσ hr.cls_lt⟩
      · simp [Row.map, Shape.map, Assignment.get_eq hl]
      · simp [Shape.children, hl]
  · next op x y op' a b hk hm =>
      obtain ⟨rfl, hσ'⟩ := Option.ite_none_right_eq_some.1 h
      obtain ⟨σ₁, h₁, hσ₁⟩ := Option.bind_eq_some_iff.1 hσ'
      obtain ⟨σ₂, h₂, h₃⟩ := Option.bind_eq_some_iff.1 hσ₁
      obtain ⟨hle₁, hx, hw₁⟩ := Assignment.choose?_eq_some h₁
      obtain ⟨hle₂, hy, hw₂⟩ := Assignment.choose?_eq_some h₂
      obtain ⟨hle₃, hl, hw₃⟩ := Assignment.choose?_eq_some h₃
      have hx' := hle₃ _ _ (hle₂ _ _ hx)
      have hy' := hle₃ _ _ hy
      simp only at hk hm
      subst hk hm
      refine ⟨(hle₁.trans hle₂).trans hle₃, ⟨?_, ?_⟩, fun n hr hσ => ?_⟩
      · simp [Row.map, Shape.map, Assignment.get_eq hl, Assignment.get_eq hx',
          Assignment.get_eq hy']
      · simp [Shape.children, hl, hx', hy']
      · have ha := hr.child_lt a (by simp [Shape.children])
        have hb := hr.child_lt b (by simp [Shape.children])
        exact hw₃ n (hw₂ n (hw₁ n hσ ha) hb) hr.cls_lt
  · cases h

theorem Row.kind_eq_of_matches? {premise row : Row} {σ σ' : Assignment}
    (h : premise.matches? row σ = some σ') : row.shape.kind = premise.shape.kind := by
  obtain ⟨-, hm, -⟩ := matches?_eq_some h
  rw [← hm.map_eq, Row.map]
  cases premise.shape <;> rfl

/-- An instance is a row for the first premise and an instance of the rest. Rows of another
constructor do not count, and the order in which rows are taken does not matter for this. -/
theorem mem_joinRows_cons {p : Row} {ps rows : List Row} {rest : List (List Row)}
    {σ σ' : Assignment} :
    σ' ∈ joinRows (p :: ps) (rows :: rest) σ ↔
      ∃ row ∈ rows, ∃ σ₁, p.matches? row σ = some σ₁ ∧ σ' ∈ joinRows ps rest σ₁ := by
  cases ps with
  | nil => simp [joinRows]
  | cons q qs =>
      simp only [joinRows, List.mem_flatMap, List.mem_mergeSort, List.mem_filter,
        decide_eq_true_eq]
      constructor
      · rintro ⟨row, ⟨hrow, -⟩, hσ'⟩
        split at hσ'
        · cases hσ'
        · next σ₁ hm => exact ⟨row, hrow, σ₁, hm, hσ'⟩
      · rintro ⟨row, hrow, σ₁, hm, hσ'⟩
        refine ⟨row, ⟨hrow, Row.kind_eq_of_matches? hm⟩, ?_⟩
        rw [hm]
        exact hσ'

/-- Under the choices found, every premise is one of the rows it was looked for among. -/
theorem of_mem_joinRows {rows : List Row} {ps : List Row} {sources : List (List Row)}
    {σ σ' : Assignment} (hs : ∀ source ∈ sources, ∀ r ∈ source, r ∈ rows)
    (h : σ' ∈ joinRows ps sources σ) :
    σ.Le σ' ∧ (∀ p ∈ ps, p.map σ'.get ∈ rows) ∧
      ∀ n, (∀ r ∈ rows, r.Within n) → σ.Within n → σ'.Within n := by
  induction ps generalizing sources σ with
  | nil =>
      obtain rfl : σ' = σ := by simpa [joinRows] using h
      exact ⟨fun _ _ hx => hx, by simp, fun n _ hσ => hσ⟩
  | cons p ps ih =>
      cases sources with
      | nil => simp [joinRows] at h
      | cons source rest =>
          obtain ⟨hsource, hrest⟩ := List.forall_mem_cons.1 hs
          obtain ⟨row, hrow, σ₁, hm, hσ'⟩ := mem_joinRows_cons.1 h
          obtain ⟨hle, hmatch, hw⟩ := Row.matches?_eq_some hm
          obtain ⟨hle', hps, hw'⟩ := ih hrest hσ'
          refine ⟨hle.trans hle', List.forall_mem_cons.2 ⟨?_, hps⟩, fun n hn hσ => ?_⟩
          · rw [(hmatch.mono hle').map_eq]
            exact hsource row hrow
          · exact hw' n hn (hw n (hn row (hsource row hrow)) hσ)

theorem mem_of_mem_batchSources {settled recent : List Row} {n : Nat}
    {sources : List (List Row)} (h : sources ∈ batchSources settled recent n) :
    ∀ source ∈ sources, ∀ r ∈ source, r ∈ settled ++ recent := by
  induction n generalizing sources with
  | zero =>
      obtain rfl : sources = [] := by simpa [batchSources] using h
      simp
  | succ n ih =>
      rcases List.mem_cons.1 h with rfl | h
      · intro source hsource r hr
        rcases List.mem_cons.1 hsource with rfl | hsource
        · exact List.mem_append_right settled hr
        · rw [List.eq_of_mem_replicate hsource] at hr
          exact hr
      · obtain ⟨rest, hrest, rfl⟩ := List.mem_map.1 h
        refine List.forall_mem_cons.2 ⟨fun r hr => List.mem_append_left recent hr, ih hrest⟩

/-- Under an instance of a rule, the premises are rows of the graph; the classes chosen are among
those that rows speak of. -/
theorem Rule.of_mem_batches {rule : Rule} {g : EGraph} {batch : List Assignment}
    {σ : Assignment} (hb : batch ∈ rule.batches g) (hσ : σ ∈ batch) :
    (∀ p ∈ rule.premises, p.map σ.get ∈ g.rows) ∧
      ∀ n, (∀ r ∈ g.rows, r.Within n) → σ.Within n := by
  obtain ⟨sources, hsources, rfl⟩ := List.mem_map.1 hb
  obtain ⟨-, hps, hw⟩ := of_mem_joinRows (mem_of_mem_batchSources hsources) hσ
  exact ⟨hps, fun n hn => hw n hn fun x c hx => by cases hx⟩

/-! ## Drafts -/

variable {V : Type}

/-- What the index of a graph knows is a row. -/
theorem EGraph.mem_rows_of_index {g : EGraph} {s : Shape} {c : Nat} (h : g.index[s]? = some c) :
    ⟨s, c⟩ ∈ g.rows := by
  rw [EGraph.index_getElem?] at h
  obtain ⟨row, hrow, rfl⟩ := Option.map_eq_some_iff.1 h
  obtain ⟨hmem, rfl⟩ := EGraph.rowOf?_eq_some hrow
  exact hmem

/-- What follows from an instance is drafted unless a row says it. -/
theorem Draft.conclude_index (g : EGraph) (c : Conclusion) :
    Draft.conclude g.index c = fun d σ => match c with
      | .row r =>
        if (g.rowOf? (r.map σ.get).shape).map (·.cls) = some (r.map σ.get).cls then d
        else { d with rows := r.map σ.get :: d.rows }
      | .equal x y => { d with classes := d.classes.merge (σ.get x) (σ.get y) } := by
  funext d σ
  cases c with
  | row r => simp only [conclude, EGraph.index_getElem?]
  | equal x y => rfl

/-- What an iteration drafts. -/
def EGraph.draft (g : EGraph) (rules : List Rule) : Draft :=
  rules.foldl (Draft.applyRule g g.index) { classes := g.classes }

/-- The rows that a draft knows of: those of the graph and its own. -/
def Draft.known (rows : List Row) (d : Draft) : List Row :=
  rows ++ (d.made ++ d.rows)

/-- The parts of an instance that are still to be found denote something, and what follows then is
true. -/
structure Ready (I : Interpretation V) (μ : Nat → V) (n : Nat) (c : Conclusion) (parts : List Row)
    (σ : Assignment) : Prop where
  get_lt : ∀ x, σ.get x < n
  follows : c.Follows I parts fun x => μ (σ.get x)

section

variable {I : Interpretation V} {μ μ' : Nat → V} {rows : List Row} {ix : Index} {d : Draft}
  {conclusion : Conclusion}

theorem Ready.extend {parts : List Row} {σ : Assignment} {c c' : Classes}
    (h : Ready I μ c.size conclusion parts σ) (he : Extends μ c μ' c') :
    Ready I μ' c'.size conclusion parts σ := by
  have heq : (fun x => μ' (σ.get x)) = fun x => μ (σ.get x) :=
    funext fun x => he.eq _ (h.get_lt x)
  refine ⟨fun x => Nat.lt_of_lt_of_le (h.get_lt x) he.size_le, ?_⟩
  rw [heq]
  exact h.follows

/-- An instance stays ready when its next part has been found. -/
theorem ready_cons {p : Row} {parts : List Row} {σ : Assignment} {c c' : Classes} {i : Nat}
    {m : V} (h : Ready I μ c.size conclusion (p :: parts) σ) (he : Extends μ c μ' c')
    (hi : i < c'.size) (hm : μ' i = m)
    (hf : conclusion.Follows I parts (Function.update (fun x => μ (σ.get x)) p.cls m)) :
    Ready I μ' c'.size conclusion parts ((p.cls, i) :: σ) where
  get_lt x := by
    by_cases hx : x = p.cls
    · rw [hx, Assignment.get_cons_self]
      exact hi
    · rw [Assignment.get_cons_of_ne hx]
      exact Nat.lt_of_lt_of_le (h.get_lt x) he.size_le
  follows := by
    rw [Assignment.comp_get_cons, hm, funext fun x => he.eq _ (h.get_lt x)]
    exact hf

namespace Models

theorem part {s : Shape} {m : V} (hix : ∀ s c, ix[s]? = some c → ⟨s, c⟩ ∈ rows)
    (h : Models I μ d.classes (d.known rows)) (hs : I.denote μ s = some m) (hm : I.Good m)
    (hc : ∀ i ∈ s.children, i < d.classes.size) :
    ∃ μ', Extends μ d.classes μ' (d.part ix s).1.classes ∧
      Models I μ' (d.part ix s).1.classes ((d.part ix s).1.known rows) ∧
      (d.part ix s).2 < (d.part ix s).1.classes.size ∧ μ' (d.part ix s).2 = m := by
  -- a known row of this shape has the class that is given
  have hknown : ∀ c, (⟨s, c⟩ : Row) ∈ d.known rows → c < d.classes.size ∧ μ c = m := by
    intro c hmem
    have hfit := h.fits _ hmem
    exact ⟨hfit.cls_lt, Option.some.inj (hfit.holds.symm.trans hs)⟩
  unfold Draft.part
  split
  · next c hix' =>
      exact ⟨μ, .refl μ _, h, hknown c (List.mem_append_left _ (hix s c hix'))⟩
  · split
    · next row hrow =>
        obtain rfl : row.shape = s := by simpa using List.find?_some hrow
        have hmem : row ∈ d.made ++ d.rows :=
          List.mem_append_left _ (List.mem_of_find?_eq_some hrow)
        exact ⟨μ, .refl μ _, h, hknown row.cls (List.mem_append_right _ hmem)⟩
    · obtain ⟨μ', he, hf, hrow, heq⟩ := h.fresh_row hs hm hc
      refine ⟨μ', he, hf.with_rows fun r hr => ?_, by simp, heq⟩
      simp only [Draft.known, List.mem_append, List.mem_cons] at hr ⊢
      rcases hr with hr | (rfl | hr) | rfl | hr
      · exact .inl (.inl hr)
      · exact .inr hrow
      · exact .inl (.inr (.inl hr))
      · exact .inr hrow
      · exact .inl (.inr (.inr hr))

theorem partOfAll {p : Row} {parts : List Row} {σs : List Assignment}
    (hix : ∀ s c, ix[s]? = some c → ⟨s, c⟩ ∈ rows)
    (h : Models I μ d.classes (d.known rows))
    (hσs : ∀ σ ∈ σs, Ready I μ d.classes.size conclusion (p :: parts) σ) :
    ∃ μ', Extends μ d.classes μ' (d.partOfAll ix p σs).1.classes ∧
      Models I μ' (d.partOfAll ix p σs).1.classes ((d.partOfAll ix p σs).1.known rows) ∧
      ∀ σ ∈ (d.partOfAll ix p σs).2,
        Ready I μ' (d.partOfAll ix p σs).1.classes.size conclusion parts σ := by
  induction σs generalizing d μ with
  | nil => exact ⟨μ, .refl μ _, h, fun σ hσ => by cases hσ⟩
  | cons σ σs ih =>
      obtain ⟨hσ, htail⟩ := List.forall_mem_cons.1 hσs
      obtain ⟨m, hm, hw, hfollows⟩ := hσ.follows
      rw [← I.denote_map] at hm
      have hc : ∀ i ∈ (p.shape.map σ.get).children, i < d.classes.size := by
        rw [Shape.children_map]
        exact List.forall_mem_map.2 fun x _ => hσ.get_lt x
      obtain ⟨μ₁, he₁, h₁, hlt, heq⟩ := h.part hix hm hw hc
      obtain ⟨μ₂, he₂, h₂, hσs₂⟩ := ih h₁ fun τ hτ => (htail τ hτ).extend he₁
      refine ⟨μ₂, he₁.trans he₂, h₂, List.forall_mem_cons.2 ⟨?_, hσs₂⟩⟩
      exact (ready_cons hσ he₁ hlt heq hfollows).extend he₂

/-- Drafting what follows from a ready instance keeps a model. -/
theorem conclude (ix : Index) {σ : Assignment} (h : Models I μ d.classes (d.known rows))
    (hσ : Ready I μ d.classes.size conclusion [] σ) :
    Models I μ (d.conclude ix conclusion σ).classes ((d.conclude ix conclusion σ).known rows) ∧
      (d.conclude ix conclusion σ).classes.size = d.classes.size := by
  have hfollows := hσ.follows
  unfold Draft.conclude
  cases conclusion with
  | equal x y =>
      exact ⟨h.merge (hσ.get_lt x) (hσ.get_lt y) hfollows, Classes.size_merge ..⟩
  | row r =>
      simp only
      split
      · exact ⟨h, rfl⟩
      · refine ⟨h.with_rows fun r' hr' => ?_, rfl⟩
        have hfits : (r.map σ.get).Fits I μ d.classes.size := by
          refine ⟨⟨hσ.get_lt r.cls, ?_⟩, Row.holds_map.2 hfollows⟩
          rw [Row.map, Shape.children_map]
          exact List.forall_mem_map.2 fun x _ => hσ.get_lt x
        simp only [Draft.known, List.mem_append, List.mem_cons] at hr' ⊢
        rcases hr' with hr' | hr' | rfl | hr'
        · exact .inl (.inl hr')
        · exact .inl (.inr (.inl hr'))
        · exact .inr hfits
        · exact .inl (.inr (.inr hr'))

theorem foldl_conclude (ix : Index) {σs : List Assignment} (h : Models I μ d.classes (d.known rows))
    (hσs : ∀ σ ∈ σs, Ready I μ d.classes.size conclusion [] σ) :
    Models I μ (σs.foldl (Draft.conclude ix conclusion) d).classes
      ((σs.foldl (Draft.conclude ix conclusion) d).known rows) ∧
      (σs.foldl (Draft.conclude ix conclusion) d).classes.size = d.classes.size := by
  induction σs generalizing d with
  | nil => exact ⟨h, rfl⟩
  | cons σ σs ih =>
      obtain ⟨hσ, htail⟩ := List.forall_mem_cons.1 hσs
      obtain ⟨h₁, hsize₁⟩ := h.conclude ix hσ
      obtain ⟨h₂, hsize₂⟩ := ih h₁ fun τ hτ => by
        rw [hsize₁]
        exact htail τ hτ
      exact ⟨h₂, hsize₂.trans hsize₁⟩

theorem foldl_partOfAll {parts : List Row} {σs : List Assignment}
    (hix : ∀ s c, ix[s]? = some c → ⟨s, c⟩ ∈ rows)
    (h : Models I μ d.classes (d.known rows))
    (hσs : ∀ σ ∈ σs, Ready I μ d.classes.size conclusion parts σ) :
    let found := parts.foldl (fun (d, σs) p => d.partOfAll ix p σs) (d, σs)
    ∃ μ', Extends μ d.classes μ' found.1.classes ∧
      Models I μ' found.1.classes (found.1.known rows) ∧
      ∀ σ ∈ found.2, Ready I μ' found.1.classes.size conclusion [] σ := by
  induction parts generalizing d μ σs with
  | nil => exact ⟨μ, .refl μ _, h, hσs⟩
  | cons p parts ih =>
      obtain ⟨μ₁, he₁, h₁, hσs₁⟩ := h.partOfAll hix hσs
      obtain ⟨μ₂, he₂, h₂, hσs₂⟩ := ih h₁ hσs₁
      exact ⟨μ₂, he₁.trans he₂, h₂, hσs₂⟩

theorem applyBatch {rule : Rule} {batch : List Assignment}
    (hix : ∀ s c, ix[s]? = some c → ⟨s, c⟩ ∈ rows)
    (h : Models I μ d.classes (d.known rows))
    (hb : ∀ σ ∈ batch, Ready I μ d.classes.size rule.conclusion rule.parts σ) :
    ∃ μ', Extends μ d.classes μ' (d.applyBatch ix rule batch).classes ∧
      Models I μ' (d.applyBatch ix rule batch).classes
        ((d.applyBatch ix rule batch).known rows) := by
  obtain ⟨μ₁, he₁, h₁, hσs⟩ := h.foldl_partOfAll hix hb
  obtain ⟨h₂, hsize⟩ := h₁.foldl_conclude ix hσs
  exact ⟨μ₁, he₁.trans (.of_size_eq hsize), h₂⟩

/-- An instance of a valid rule is ready in every model of the rows. -/
theorem ready_of_mem_batches {rule : Rule} {g : EGraph} {batch : List Assignment}
    {σ : Assignment} (hv : rule.Valid I) (h : Models I μ d.classes (d.known g.rows))
    (hb : batch ∈ rule.batches g) (hσ : σ ∈ batch) :
    Ready I μ d.classes.size rule.conclusion rule.parts σ := by
  have hrows : ∀ r ∈ g.rows, r.Fits I μ d.classes.size := by
    intro r hr
    exact h.fits r (List.mem_append_left _ hr)
  obtain ⟨hp, hw⟩ := Rule.of_mem_batches hb hσ
  obtain ⟨p, hmem⟩ := List.exists_mem_of_ne_nil _ hv.premises_ne_nil
  have hpos : 0 < d.classes.size := Nat.zero_lt_of_lt (hrows _ (hp p hmem)).cls_lt
  refine ⟨(hw _ fun r hr => (hrows r hr).toWithin).get_lt hpos, ?_⟩
  refine hv.follows _ (fun x => h.good _) ?_
  intro q hq
  exact Row.holds_map.1 (hrows _ (hp q hq)).holds

theorem foldl_applyBatch {rule : Rule} {g : EGraph} {batches : List (List Assignment)}
    (hv : rule.Valid I) (hix : ∀ s c, ix[s]? = some c → ⟨s, c⟩ ∈ g.rows)
    (hb : ∀ batch ∈ batches, batch ∈ rule.batches g)
    (h : Models I μ d.classes (d.known g.rows)) :
    ∃ μ', Models I μ' (batches.foldl (Draft.applyBatch ix rule) d).classes
      ((batches.foldl (Draft.applyBatch ix rule) d).known g.rows) := by
  induction batches generalizing d μ with
  | nil => exact ⟨μ, h⟩
  | cons batch batches ih =>
      obtain ⟨hbatch, hrest⟩ := List.forall_mem_cons.1 hb
      have hready : ∀ σ ∈ batch, Ready I μ d.classes.size rule.conclusion rule.parts σ := by
        intro σ hσ
        exact h.ready_of_mem_batches hv hbatch hσ
      obtain ⟨μ₁, -, h₁⟩ := h.applyBatch hix hready
      exact ih hrest h₁

theorem foldl_applyRule {rules : List Rule} {g : EGraph} (hv : ∀ r ∈ rules, r.Valid I)
    (hix : ∀ s c, ix[s]? = some c → ⟨s, c⟩ ∈ g.rows)
    (h : Models I μ d.classes (d.known g.rows)) :
    ∃ μ', Models I μ' (rules.foldl (Draft.applyRule g ix) d).classes
      ((rules.foldl (Draft.applyRule g ix) d).known g.rows) := by
  induction rules generalizing d μ with
  | nil => exact ⟨μ, h⟩
  | cons rule rules ih =>
      obtain ⟨hrule, hrest⟩ := List.forall_mem_cons.1 hv
      obtain ⟨μ₁, h₁⟩ := h.foldl_applyBatch hrule hix fun _ hb => hb
      exact ih hrest h₁

theorem accept {g : EGraph} (h : Models I μ d.classes (d.known g.rows)) :
    Models I μ (g.accept d).classes (g.accept d).rows := by
  unfold EGraph.accept
  refine (foldl_put ?_ fun r hr => h.fits r ?_).rebuild
  · refine h.with_rows fun r hr => .inl (List.mem_append_left _ ?_)
    simpa [EGraph.rows] using hr
  · rw [List.mem_reverse] at hr
    exact List.mem_append_right _ (List.mem_append_right _ hr)

/-- What an iteration drafts has a model. -/
theorem draft {g : EGraph} {rules : List Rule} (hv : ∀ r ∈ rules, r.Valid I)
    (h : Models I μ g.classes g.rows) :
    ∃ μ', Models I μ' (g.draft rules).classes ((g.draft rules).known g.rows) := by
  refine Models.foldl_applyRule (μ := μ) (d := { classes := g.classes }) hv ?_ ?_
  · exact fun s c hc => EGraph.mem_rows_of_index hc
  · simpa [Draft.known] using h

/-- **After an iteration with valid rules there is a model**, if there was one before. -/
theorem iterate {g : EGraph} {rules : List Rule} (hv : ∀ r ∈ rules, r.Valid I)
    (h : Models I μ g.classes g.rows) :
    ∃ μ', Models I μ' (g.iterate rules).classes (g.iterate rules).rows := by
  unfold EGraph.iterate
  split
  · exact ⟨μ, h⟩
  · obtain ⟨μ', h'⟩ := (h.noteKinds (rules.flatMap Rule.kinds)).draft hv
    exact ⟨μ', h'.accept⟩

end Models

end

end WhileLang
