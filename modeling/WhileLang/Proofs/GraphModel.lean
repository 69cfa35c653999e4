import WhileLang.EGraph.Congruence
import WhileLang.Proofs.Interpretation

/-!
# Models of a graph

A model of a graph gives every class a value so that every row is true: its shape denotes the value
of its class. What stands for a class has the value of the class, so merging keeps a model if the
two classes have one value, and restoring congruence always does. A new class can be given any
value, because no row speaks of it yet.

* `Satisfies`: values of the classes satisfy what classes and rows say; `Models`: they are a model.
* `Models.merge`, `Models.fresh_row`, `Models.put`, `Models.rebuild`: what keeps a model, and how
  one grows with a new class.
* `Models.addTerm`, `Models.union`: adding a term gives a class with the value that the term means,
  and terms that mean the same may be declared equal.
-/

namespace WhileLang

/-! ## Classes and rows under the operations -/

namespace Classes

theorem find_of_size_le {c : Classes} {i : Nat} (h : c.size ≤ i) : c.find i = i := by
  unfold find
  rw [Array.getD_eq_getD_getElem?, Array.getElem?_eq_none h]
  rfl

@[simp] theorem size_fresh (c : Classes) : c.fresh.1.size = c.size + 1 :=
  Array.size_push _

@[simp] theorem snd_fresh (c : Classes) : c.fresh.2 = c.size := rfl

/-- A new class stands for itself, as every number that has not been given does. -/
@[simp] theorem find_fresh (c : Classes) (i : Nat) : c.fresh.1.find i = c.find i := by
  unfold find fresh
  simp only [Array.getD_eq_getD_getElem?, Array.getElem?_push]
  split
  · next h => rw [h, Array.getElem?_eq_none (Nat.le_refl _)]; rfl
  · rfl

theorem find_redirect (c : Classes) (keep drop i : Nat) :
    (c.redirect keep drop).find i =
      if i < c.size ∧ c.find i = drop then keep else c.find i := by
  unfold find redirect size
  simp only [Array.getD_eq_getD_getElem?, Array.getElem?_map]
  by_cases h : i < c.reps.size
  · simp [h]
  · simp [h]

@[simp] theorem size_merge (c : Classes) (i j : Nat) : (c.merge i j).size = c.size := by
  unfold merge
  simp only
  split
  · rfl
  · exact Array.size_map

/-- After a merge, what stands for a class is what stood for it, or it stood for one of the two
and what stands for it is what stood for the other. -/
theorem find_merge_cases (c : Classes) (i j k : Nat) :
    (c.merge i j).find k = c.find k ∨
      c.find k = c.find i ∧ (c.merge i j).find k = c.find j ∨
      c.find k = c.find j ∧ (c.merge i j).find k = c.find i := by
  unfold merge
  simp only
  split
  · exact .inl rfl
  · rw [find_redirect]
    split
    · next h => grind
    · exact .inl rfl

/-- What stands for a class stands for itself: this is kept by a merge. -/
theorem find_find_merge {c : Classes} (h : ∀ k, c.find (c.find k) = c.find k) (i j k : Nat) :
    (c.merge i j).find ((c.merge i j).find k) = (c.merge i j).find k := by
  have hi := h i
  have hj := h j
  have hk := h k
  have hout : ∀ l, c.size ≤ l → c.find l = l := fun l hl => find_of_size_le hl
  unfold merge
  simp only
  split
  · exact hk
  · simp only [find_redirect]
    grind

end Classes

namespace EGraph

@[simp] theorem rows_append (g : EGraph) (r : Row) : (g.append r).rows = g.rows ++ [r] :=
  (List.append_assoc ..).symm

@[simp] theorem rows_remove (g : EGraph) (p : Row → Bool) :
    (g.remove p).rows = g.rows.filter (!p ·) :=
  (List.filter_append ..).symm

@[simp] theorem rows_merge (g : EGraph) (i j : Nat) : (g.merge i j).rows = g.rows := rfl

@[simp] theorem classes_merge (g : EGraph) (i j : Nat) :
    (g.merge i j).classes = g.classes.merge i j := rfl

@[simp] theorem classes_append (g : EGraph) (r : Row) : (g.append r).classes = g.classes := rfl

@[simp] theorem classes_remove (g : EGraph) (p : Row → Bool) :
    (g.remove p).classes = g.classes := rfl

theorem noteKind_eq (g : EGraph) (k : Kind) : ∃ ks, g.noteKind k = { g with kinds := ks } := by
  unfold noteKind
  split
  · exact ⟨g.kinds, rfl⟩
  · exact ⟨_, rfl⟩

theorem noteKinds_eq (g : EGraph) (ks : List Kind) :
    ∃ ks', g.noteKinds ks = { g with kinds := ks' } := by
  unfold noteKinds
  induction ks generalizing g with
  | nil => exact ⟨g.kinds, rfl⟩
  | cons k ks ih =>
      obtain ⟨ks₁, h₁⟩ := noteKind_eq g k
      obtain ⟨ks₂, h₂⟩ := ih (g.noteKind k)
      exact ⟨ks₂, by rw [List.foldl_cons, h₂, h₁]⟩

@[simp] theorem classes_noteKinds (g : EGraph) (ks : List Kind) :
    (g.noteKinds ks).classes = g.classes := by
  obtain ⟨ks', h⟩ := noteKinds_eq g ks
  rw [h]

@[simp] theorem rows_noteKinds (g : EGraph) (ks : List Kind) :
    (g.noteKinds ks).rows = g.rows := by
  obtain ⟨ks', h⟩ := noteKinds_eq g ks
  rw [h]
  rfl

theorem rowOf?_eq_some {g : EGraph} {s : Shape} {r : Row} (h : g.rowOf? s = some r) :
    r ∈ g.rows ∧ r.shape = s :=
  ⟨List.mem_of_find?_eq_some h, by simpa using List.find?_some h⟩

@[simp] theorem size_put (g : EGraph) (r : Row) :
    (g.put r).classes.size = g.classes.size := by
  unfold put
  split
  · rfl
  · simp only
    split <;> simp

end EGraph

@[simp] theorem Shape.children_map (f : Nat → Nat) (s : Shape) :
    (s.map f).children = s.children.map f := by
  cases s <;> rfl

/-! ## Models -/

variable {V : Type}

/-- A row speaks only of classes below a number. -/
structure Row.Within (n : Nat) (r : Row) : Prop where
  cls_lt : r.cls < n
  child_lt : ∀ i ∈ r.shape.children, i < n

/-- A row is true of given values, and speaks only of classes below a number. -/
structure Row.Fits (I : Interpretation V) (μ : Nat → V) (n : Nat) (r : Row) : Prop
    extends r.Within n where
  holds : r.Holds I μ

/-- The values `μ` satisfy what classes and rows say. -/
structure Satisfies (I : Interpretation V) (μ : Nat → V) (c : Classes) (rows : List Row) :
    Prop where
  /-- All values count. -/
  good : ∀ i, I.Good (μ i)
  /-- What stands for a class has the same value. -/
  rep : ∀ i, μ (c.find i) = μ i
  /-- All rows are true. -/
  holds : ∀ r ∈ rows, r.Holds I μ

/-- The values `μ` are a model of classes and rows: they satisfy what these say, and nothing is said
of numbers that have not been given. -/
structure Models (I : Interpretation V) (μ : Nat → V) (c : Classes) (rows : List Row) : Prop where
  /-- All values count. -/
  good : ∀ i, I.Good (μ i)
  /-- What stands for a class has the same value. -/
  rep : ∀ i, μ (c.find i) = μ i
  /-- What stands for a class stands for itself. -/
  find_find : ∀ i, c.find (c.find i) = c.find i
  /-- What stands for a class is a class. -/
  find_lt : ∀ i, i < c.size → c.find i < c.size
  /-- All rows are true. -/
  fits : ∀ r ∈ rows, r.Fits I μ c.size

/-- The values `μ'` of the classes of `c'` extend the values `μ` of those of `c`. -/
structure Extends (μ : Nat → V) (c : Classes) (μ' : Nat → V) (c' : Classes) :
    Prop where
  size_le : c.size ≤ c'.size
  eq : ∀ i, i < c.size → μ' i = μ i

section

variable {I : Interpretation V} {μ μ' μ'' : Nat → V} {c c' c'' : Classes} {rows rows' : List Row}

theorem Extends.refl (μ : Nat → V) (c : Classes) : Extends μ c μ c :=
  ⟨Nat.le_refl _, fun _ _ => rfl⟩

theorem Extends.trans (h : Extends μ c μ' c') (h' : Extends μ' c' μ'' c'') :
    Extends μ c μ'' c'' where
  size_le := Nat.le_trans h.size_le h'.size_le
  eq i hi := (h'.eq i (Nat.lt_of_lt_of_le hi h.size_le)).trans (h.eq i hi)

theorem Extends.of_size_eq (h : c'.size = c.size) : Extends μ c μ c' :=
  ⟨Nat.le_of_eq h.symm, fun _ _ => rfl⟩

theorem Row.Fits.extend {r : Row} (h : r.Fits I μ c.size) (he : Extends μ c μ' c') :
    r.Fits I μ' c'.size where
  holds := by
    have hs : I.denote μ' r.shape = I.denote μ r.shape :=
      I.denote_congr fun i hi => he.eq i (h.child_lt i hi)
    show I.denote μ' r.shape = some (μ' r.cls)
    rw [hs, he.eq r.cls h.cls_lt]
    exact h.holds
  cls_lt := Nat.lt_of_lt_of_le h.cls_lt he.size_le
  child_lt i hi := Nat.lt_of_lt_of_le (h.child_lt i hi) he.size_le

/-- Two true rows of one shape have classes of one value. -/
theorem Row.Fits.cls_eq {r r' : Row} {n n' : Nat} (h : r.Fits I μ n) (h' : r'.Fits I μ n')
    (hs : r.shape = r'.shape) : μ r.cls = μ r'.cls := by
  have h₁ := h.holds
  have h₂ := h'.holds
  unfold Row.Holds at h₁ h₂
  rw [hs, h₂] at h₁
  exact (Option.some.inj h₁).symm

namespace Models

theorem satisfies (h : Models I μ c rows) : Satisfies I μ c rows :=
  ⟨h.good, h.rep, fun r hr => (h.fits r hr).holds⟩

/-- Rows may be dropped and true ones added. -/
theorem with_rows (h : Models I μ c rows)
    (hr : ∀ r ∈ rows', r ∈ rows ∨ r.Fits I μ c.size) : Models I μ c rows' where
  good := h.good
  find_find := h.find_find
  rep := h.rep
  find_lt := h.find_lt
  fits r hm := (hr r hm).elim (h.fits r) id

theorem append_row {r : Row} (h : Models I μ c rows) (hr : r.Fits I μ c.size) :
    Models I μ c (rows ++ [r]) :=
  h.with_rows fun r' hr' => (List.mem_append.1 hr').imp_right fun hs => by
    rw [List.mem_singleton.1 hs]
    exact hr

theorem filter_rows (p : Row → Bool) (h : Models I μ c rows) :
    Models I μ c (rows.filter p) :=
  h.with_rows fun _ hr => .inl (List.mem_filter.1 hr).1

/-- Classes of one value may be merged. -/
theorem merge {i j : Nat} (h : Models I μ c rows) (hi : i < c.size) (hj : j < c.size)
    (hij : μ i = μ j) : Models I μ (c.merge i j) rows where
  good := h.good
  find_find := Classes.find_find_merge h.find_find i j
  rep k := by
    rcases c.find_merge_cases i j k with hk | ⟨hk, hm⟩ | ⟨hk, hm⟩
    · rw [hk, h.rep]
    · rw [hm, h.rep, ← hij, ← h.rep i, ← hk, h.rep]
    · rw [hm, h.rep, hij, ← h.rep j, ← hk, h.rep]
  find_lt k hk := by
    rw [Classes.size_merge] at hk ⊢
    rcases c.find_merge_cases i j k with hm | ⟨-, hm⟩ | ⟨-, hm⟩
    · rw [hm]
      exact h.find_lt k hk
    · rw [hm]
      exact h.find_lt j hj
    · rw [hm]
      exact h.find_lt i hi
  fits r hr := by
    rw [Classes.size_merge]
    exact h.fits r hr

/-- A new class can be given any value. -/
theorem fresh {m : V} (h : Models I μ c rows) (hm : I.Good m) :
    Models I (Function.update μ c.size m) c.fresh.1 rows ∧
      Extends μ c (Function.update μ c.size m) c.fresh.1 := by
  have he : Extends μ c (Function.update μ c.size m) c.fresh.1 :=
    ⟨by simp, fun i hi => Function.update_of_ne (Nat.ne_of_lt hi) _ _⟩
  refine ⟨⟨fun i => ?_, fun i => ?_, fun i => ?_, fun i hi => ?_,
    fun r hr => (h.fits r hr).extend he⟩, he⟩
  · by_cases hi : i = c.size
    · rw [hi, Function.update_self]
      exact hm
    · rw [Function.update_of_ne hi]
      exact h.good i
  · rw [Classes.find_fresh]
    rcases Nat.lt_or_ge i c.size with hi | hi
    · rw [he.eq _ (h.find_lt i hi), he.eq i hi, h.rep]
    · rw [Classes.find_of_size_le hi]
  · rw [Classes.find_fresh, Classes.find_fresh, h.find_find]
  · rw [Classes.find_fresh, Classes.size_fresh]
    rcases Nat.lt_or_ge i c.size with hi' | hi'
    · exact Nat.lt_succ_of_lt (h.find_lt i hi')
    · rw [Classes.find_of_size_le hi']
      simpa using hi

/-- A shape that denotes something can be given a new class. -/
theorem fresh_row {s : Shape} {m : V} (h : Models I μ c rows)
    (hs : I.denote μ s = some m) (hm : I.Good m) (hc : ∀ i ∈ s.children, i < c.size) :
    ∃ μ', Extends μ c μ' c.fresh.1 ∧ Models I μ' c.fresh.1 rows ∧
      (⟨s, c.size⟩ : Row).Fits I μ' c.fresh.1.size ∧ μ' c.size = m := by
  obtain ⟨hf, he⟩ := h.fresh hm
  have hself : Function.update μ c.size m c.size = m := Function.update_self ..
  refine ⟨_, he, hf, ⟨⟨by simp, fun i hi => ?_⟩, ?_⟩, hself⟩
  · exact Nat.lt_of_lt_of_le (hc i hi) he.size_le
  · show I.denote _ s = some _
    rw [hself, I.denote_congr fun i hi => he.eq i (hc i hi), hs]

/-! ## Stating rows and restoring congruence -/

variable {g : EGraph}

theorem put {r : Row} (h : Models I μ g.classes g.rows) (hr : r.Fits I μ g.classes.size) :
    Models I μ (g.put r).classes (g.put r).rows := by
  unfold EGraph.put
  split
  · rw [EGraph.rows_append]
    exact h.append_row hr
  · next there hthere =>
      obtain ⟨hmem, hshape⟩ := EGraph.rowOf?_eq_some hthere
      have hfit := h.fits there hmem
      have hm : Models I μ (g.classes.merge there.cls r.cls) g.rows :=
        h.merge hfit.cls_lt hr.cls_lt (hfit.cls_eq hr hshape)
      simp only
      split
      · rw [EGraph.rows_append, EGraph.rows_remove]
        exact (hm.filter_rows _).append_row (by simpa using hr)
      · exact hm

theorem foldl_put {rs : List Row} (h : Models I μ g.classes g.rows)
    (hrs : ∀ r ∈ rs, r.Fits I μ g.classes.size) :
    Models I μ (rs.foldl EGraph.put g).classes (rs.foldl EGraph.put g).rows := by
  induction rs generalizing g with
  | nil => exact h
  | cons r rs ih =>
      refine ih (h.put (hrs r List.mem_cons_self)) fun r' hr' => ?_
      rw [EGraph.size_put]
      exact hrs r' (List.mem_cons_of_mem r hr')

/-- A row stated anew in terms of what stands for its classes is still true. -/
theorem fits_map_find {r : Row} (h : Models I μ c rows) (hr : r.Fits I μ c.size) :
    (r.map c.find).Fits I μ c.size where
  holds := by
    rw [Row.holds_map, funext h.rep]
    exact hr.holds
  cls_lt := h.find_lt r.cls hr.cls_lt
  child_lt i hi := by
    rw [Row.map, Shape.children_map] at hi
    obtain ⟨j, hj, rfl⟩ := List.mem_map.1 hi
    exact h.find_lt j (hr.child_lt j hj)

theorem rebuildRound (h : Models I μ g.classes g.rows) :
    Models I μ g.rebuildRound.classes g.rebuildRound.rows := by
  unfold EGraph.rebuildRound
  refine foldl_put ?_ fun r hr => ?_
  · rw [EGraph.rows_remove]
    exact h.filter_rows _
  · obtain ⟨r', hr', rfl⟩ := List.mem_map.1 hr
    exact h.fits_map_find (h.fits r' (List.mem_filter.1 hr').1)

theorem rebuildFor (n : Nat) (h : Models I μ g.classes g.rows) :
    Models I μ (EGraph.rebuildFor n g).classes (EGraph.rebuildFor n g).rows := by
  induction n generalizing g with
  | zero => exact h
  | succ n ih =>
      unfold EGraph.rebuildFor
      split
      · exact ih h.rebuildRound
      · exact h

/-- Restoring congruence keeps every model. -/
theorem rebuild (h : Models I μ g.classes g.rows) :
    Models I μ g.rebuild.classes g.rebuild.rows :=
  h.rebuildFor _

end Models

end

/-! ## Adding terms -/

/-- A class with the value `m` has been added or found, and the graph has a model with it. -/
structure Denotes (I : Interpretation V) (μ : Nat → V) (g : EGraph) (c : Nat) (m : V) :
    Prop where
  models : Models I μ g.classes g.rows
  lt : c < g.classes.size
  eq : μ c = m

section

variable {I : Interpretation V} {μ : Nat → V} {g : EGraph}

theorem Models.insert {s : Shape} {m : V} (h : Models I μ g.classes g.rows)
    (hs : I.denote μ s = some m) (hm : I.Good m) (hc : ∀ i ∈ s.children, i < g.classes.size) :
    ∃ μ', Extends μ g.classes μ' (g.insert s).1.classes ∧
      Denotes I μ' (g.insert s).1 (g.insert s).2 m := by
  unfold EGraph.insert
  split
  · next row hrow =>
      obtain ⟨hmem, rfl⟩ := EGraph.rowOf?_eq_some hrow
      have hfit := h.fits row hmem
      have heq : μ row.cls = m := Option.some.inj (hfit.holds.symm.trans hs)
      exact ⟨μ, .refl μ _, h, hfit.cls_lt, heq⟩
  · obtain ⟨μ', he, hf, hrow, heq⟩ := h.fresh_row hs hm hc
    refine ⟨μ', he, ?_, by simp, heq⟩
    rw [EGraph.rows_append]
    exact hf.append_row hrow

/-- Adding a term that means something gives a class with that value. -/
theorem Models.insertTerm {t : Term} {m : V} (h : Models I μ g.classes g.rows)
    (ht : I.Means t m) :
    ∃ μ', Extends μ g.classes μ' (g.insertTerm t).1.classes ∧
      Denotes I μ' (g.insertTerm t).1 (g.insertTerm t).2 m := by
  induction ht generalizing g μ with
  | @num n ν m hs hm =>
      have hs : I.denote μ (.num n) = some m := (I.denote_congr fun i hi => by cases hi).trans hs
      exact h.insert hs hm fun i hi => by cases hi
  | @symbol s ν m hs hm =>
      have hs : I.denote μ (.symbol s) = some m :=
        (I.denote_congr fun i hi => by cases hi).trans hs
      exact h.insert hs hm fun i hi => by cases hi
  | @silent ν m hs hm =>
      have hs : I.denote μ .silent = some m := (I.denote_congr fun i hi => by cases hi).trans hs
      exact h.insert hs hm fun i hi => by cases hi
  | arg _ hs hm ih =>
      obtain ⟨μ₁, he₁, h₁⟩ := ih h
      rw [← I.denote_arg h₁.eq] at hs
      obtain ⟨μ₂, he₂, h₂⟩ := h₁.models.insert hs hm (List.forall_mem_singleton.2 h₁.lt)
      exact ⟨μ₂, he₁.trans he₂, h₂⟩
  | bin _ _ hs hm ihl ihr =>
      obtain ⟨μ₁, he₁, h₁⟩ := ihl h
      obtain ⟨μ₂, he₂, h₂⟩ := ihr h₁.models
      have hl := Nat.lt_of_lt_of_le h₁.lt he₂.size_le
      rw [← I.denote_bin ((he₂.eq _ h₁.lt).trans h₁.eq) h₂.eq] at hs
      obtain ⟨μ₃, he₃, h₃⟩ := h₂.models.insert hs hm (by simp [Shape.children, hl, h₂.lt])
      exact ⟨μ₃, (he₁.trans he₂).trans he₃, h₃⟩
  | print _ _ hs hm ihe ihv =>
      obtain ⟨μ₁, he₁, h₁⟩ := ihe h
      obtain ⟨μ₂, he₂, h₂⟩ := ihv h₁.models
      have hl := Nat.lt_of_lt_of_le h₁.lt he₂.size_le
      rw [← I.denote_print ((he₂.eq _ h₁.lt).trans h₁.eq) h₂.eq] at hs
      obtain ⟨μ₃, he₃, h₃⟩ := h₂.models.insert hs hm (by simp [Shape.children, hl, h₂.lt])
      exact ⟨μ₃, (he₁.trans he₂).trans he₃, h₃⟩

theorem Models.noteKinds (ks : List Kind) (h : Models I μ g.classes g.rows) :
    Models I μ (g.noteKinds ks).classes (g.noteKinds ks).rows := by
  rw [EGraph.classes_noteKinds, EGraph.rows_noteKinds]
  exact h

/-- What is known after adding a term: a class with the value that the term means, if the term was
added at all. -/
theorem Models.addTerm {t : Term} {m : V} (h : Models I μ g.classes g.rows)
    (ht : t.inWords = true → I.Means t m) :
    ∃ μ', Models I μ' (g.addTerm t).1.classes (g.addTerm t).1.rows ∧
      ∀ c ∈ (g.addTerm t).2, μ' c = m := by
  unfold EGraph.addTerm
  simp only
  split
  · next hw =>
      obtain ⟨μ', -, h'⟩ := (h.noteKinds t.wordKinds).insertTerm (ht hw)
      refine ⟨μ', h'.models, fun c hc => ?_⟩
      obtain rfl := Option.some.inj hc
      exact h'.eq
  · exact ⟨μ, h.noteKinds _, fun c hc => by cases hc⟩

/-- Declaring two terms that mean the same equal keeps a model. -/
theorem Models.union {l r : Term} {m : V} (h : Models I μ g.classes g.rows)
    (hl : l.inWords = true → I.Means l m) (hr : r.inWords = true → I.Means r m) :
    ∃ μ', Models I μ' (g.union l r).1.classes (g.union l r).1.rows := by
  unfold EGraph.union
  split
  · next hlw =>
      have hn := (h.noteKinds l.wordKinds).noteKinds r.wordKinds
      simp only
      split
      · next hrw =>
          obtain ⟨μ₁, -, h₁⟩ := hn.insertTerm (hl hlw)
          obtain ⟨μ₂, he₂, h₂⟩ := h₁.models.insertTerm (hr hrw)
          have heq := (he₂.eq _ h₁.lt).trans (h₁.eq.trans h₂.eq.symm)
          exact ⟨μ₂, (h₂.models.merge (Nat.lt_of_lt_of_le h₁.lt he₂.size_le) h₂.lt heq).rebuild⟩
      · exact ⟨μ, hn⟩
  · exact ⟨μ, h.noteKinds _⟩

end

end WhileLang
