import Mathlib.Data.Finset.Card
import WhileLang.Proofs.IterationModel

/-!
# Tidy graphs

A graph is regular if nothing is said of numbers that have not been given, every constructor of a
row has been noted, and no shape has two rows. All operations keep this. It is tidy if, besides, no
row is stale: every row speaks of classes that stand for themselves. Merging makes rows stale, and
restoring congruence makes the graph tidy again. The rounds are enough for that, because a round
that leaves stale rows has merged something, and there are fewer classes after each merge.

* `Interpretation.ofKinds`: everything denotes one value, if its constructor has been noted. A model
  by it is what the bounds and the noted constructors amount to.
* `EGraph.Regular`, `EGraph.Tidy`.
* `Classes.roots`: the classes that stand for themselves; `Classes.merge_eq_or_card_roots_lt`: there
  are fewer of them after a merge.
* `EGraph.Regular.rebuild`: restoring congruence makes a regular graph tidy.
* `EGraph.Tidy.addTerm`, `EGraph.Tidy.union`, `EGraph.Tidy.iterate`: adding a term, declaring terms
  equal and an iteration leave a tidy graph.
-/

namespace WhileLang

/-! ## Rows in terms of representatives -/

theorem Shape.map_eq_self {f : Nat → Nat} {s : Shape} :
    s.map f = s ↔ ∀ i ∈ s.children, f i = i := by
  cases s <;> simp [map, children]

theorem Row.map_eq_self {f : Nat → Nat} {r : Row} :
    r.map f = r ↔ f r.cls = r.cls ∧ ∀ i ∈ r.shape.children, f i = i := by
  obtain ⟨s, k⟩ := r
  simp only [Row.map, Row.mk.injEq, Shape.map_eq_self]
  exact and_comm

/-- A row that is not stale is the same in terms of what stands for its classes. -/
theorem Row.isStale_eq_false {c : Classes} {r : Row} : r.isStale c = false ↔ r.map c.find = r := by
  simp [isStale, Row.map_eq_self]

@[simp] theorem Shape.kind_map (f : Nat → Nat) (s : Shape) : (s.map f).kind = s.kind := by
  cases s <;> rfl

/-! ## The interpretation by constructors -/

/-- Shapes of the given constructors denote the one value that there is. -/
def Interpretation.ofKinds (ks : List Kind) : Interpretation Unit where
  denote _ s := if s.kind ∈ ks then some () else none
  Good _ := True
  denote_map _ f s := by rw [s.kind_map f]
  denote_congr _ := rfl

variable {ks : List Kind}

theorem Row.holds_ofKinds {μ : Nat → Unit} {r : Row} :
    r.Holds (.ofKinds ks) μ ↔ r.shape.kind ∈ ks := by
  simp [Row.Holds, Interpretation.ofKinds]

theorem Conclusion.follows_ofKinds {c : Conclusion} {parts : List Row} {v : Nat → Unit}
    (hparts : ∀ p ∈ parts, p.shape.kind ∈ ks) (hc : ∀ r, c = .row r → r.shape.kind ∈ ks) :
    c.Follows (.ofKinds ks) parts v := by
  induction parts generalizing v with
  | nil =>
      cases c with
      | row r => exact Row.holds_ofKinds.2 (hc r rfl)
      | equal x y => rfl
  | cons p parts ih =>
      obtain ⟨hp, hparts⟩ := List.forall_mem_cons.1 hparts
      exact ⟨(), if_pos hp, trivial, ih hparts⟩

namespace Rule

variable {r : Rule} {p row : Row}

theorem kind_part_mem (h : p ∈ r.parts) : p.shape.kind ∈ r.kinds := by
  simp only [kinds, List.map_append, List.mem_append, List.mem_map]
  exact .inl (.inr ⟨p, h, rfl⟩)

theorem kind_conclusion_mem (h : r.conclusion = .row row) : row.shape.kind ∈ r.kinds := by
  simp only [kinds, h, List.map_append, List.mem_append, List.mem_map]
  exact .inr ⟨row, List.mem_cons_self, rfl⟩

/-- A rule whose constructors have been noted is valid by constructors. -/
theorem valid_ofKinds (hne : r.premises ≠ []) (h : ∀ k ∈ r.kinds, k ∈ ks) :
    r.Valid (.ofKinds ks) := by
  refine ⟨hne, fun v _ _ => Conclusion.follows_ofKinds ?_ ?_⟩
  · exact fun p hp => h _ (kind_part_mem hp)
  · exact fun row hrow => h _ (kind_conclusion_mem hrow)

end Rule

/-! ## Regular graphs -/

namespace EGraph

/-- Nothing is said of numbers that have not been given, only the given constructors occur, and no
shape has two rows. -/
structure Regular (ks : List Kind) (g : EGraph) : Prop where
  models : Models (.ofKinds ks) (fun _ => ()) g.classes g.rows
  nodup : (g.rows.map (·.shape)).Nodup

/-- A row that may be stated in a regular graph. -/
abbrev Fits (ks : List Kind) (g : EGraph) (r : Row) : Prop :=
  r.Fits (.ofKinds ks) (fun _ => ()) g.classes.size

variable {g : EGraph} {r : Row} {rs : List Row}

theorem Fits.put {r' : Row} (h : g.Fits ks r') : (g.put r).Fits ks r' := by
  rw [Fits, size_put]
  exact h

theorem shape_ne_of_rowOf?_eq_none {s : Shape} (h : g.rowOf? s = none) :
    ∀ r ∈ g.rows, r.shape ≠ s := by
  simpa [rowOf?] using h

theorem Regular.rowOf?_eq (h : g.Regular ks) (hr : r ∈ g.rows) : g.rowOf? r.shape = some r := by
  cases hf : g.rowOf? r.shape with
  | none => exact absurd rfl (shape_ne_of_rowOf?_eq_none hf r hr)
  | some r' =>
      obtain ⟨hr', hs⟩ := rowOf?_eq_some hf
      rw [List.inj_on_of_nodup_map h.nodup hr' hr hs]

/-- Values that satisfy what a regular graph says are a model of it. -/
theorem Regular.models_of_satisfies {V : Type} {I : Interpretation V} {μ : Nat → V}
    (h : g.Regular ks) (hs : Satisfies I μ g.classes g.rows) : Models I μ g.classes g.rows where
  good := hs.good
  rep := hs.rep
  find_find := h.models.find_find
  find_lt := h.models.find_lt
  fits r hr := ⟨(h.models.fits r hr).toWithin, hs.holds r hr⟩

/-- A row of a new shape may be added. -/
theorem nodup_concat {rows : List Row} (h : (rows.map (·.shape)).Nodup)
    (hr : ∀ r' ∈ rows, r'.shape ≠ r.shape) : ((rows ++ [r]).map (·.shape)).Nodup := by
  rw [List.map_append, List.nodup_append]
  refine ⟨h, List.nodup_singleton _, ?_⟩
  intro s hs s' hs'
  obtain ⟨r', hr', rfl⟩ := List.mem_map.1 hs
  obtain rfl := List.mem_singleton.1 hs'
  exact hr r' hr'

theorem nodup_put (h : (g.rows.map (·.shape)).Nodup) : ((g.put r).rows.map (·.shape)).Nodup := by
  unfold put
  split
  · next hnone =>
      rw [rows_append]
      exact nodup_concat h (shape_ne_of_rowOf?_eq_none hnone)
  · simp only
    split
    · rw [rows_append, rows_remove]
      refine nodup_concat (h.sublist (List.filter_sublist.map _)) fun r' hr' => ?_
      simpa using (List.mem_filter.1 hr').2
    · exact h

theorem mem_rows_put {r' : Row} (h : r' ∈ (g.put r).rows) : r' ∈ g.rows ∨ r' = r := by
  unfold put at h
  split at h
  · simpa using h
  · simp only at h
    split at h
    · rw [rows_append, rows_remove, List.mem_append, List.mem_filter, List.mem_singleton] at h
      exact h.imp_left And.left
    · exact .inl h

theorem mem_rows_foldl_put {r' : Row} (h : r' ∈ (rs.foldl put g).rows) :
    r' ∈ g.rows ∨ r' ∈ rs := by
  induction rs generalizing g with
  | nil => exact .inl h
  | cons r rs ih =>
      rcases ih h with h | h
      · refine (mem_rows_put h).imp_right fun heq => ?_
        rw [heq]
        exact List.mem_cons_self
      · exact .inr (List.mem_cons_of_mem r h)

/-- Stating a row merges nothing, or two classes. -/
theorem classes_put_cases (g : EGraph) (r : Row) : (g.put r).classes = g.classes ∨
    ∃ there ∈ g.rows, (g.put r).classes = g.classes.merge there.cls r.cls := by
  unfold put
  split
  · exact .inl rfl
  · next there hthere =>
      refine .inr ⟨there, (rowOf?_eq_some hthere).1, ?_⟩
      simp only
      split <;> rfl

namespace Regular

theorem put (h : g.Regular ks) (hr : g.Fits ks r) : (g.put r).Regular ks :=
  ⟨h.models.put hr, nodup_put h.nodup⟩

theorem foldl_put (h : g.Regular ks) (hrs : ∀ r ∈ rs, g.Fits ks r) :
    (rs.foldl EGraph.put g).Regular ks := by
  induction rs generalizing g with
  | nil => exact h
  | cons r rs ih =>
      obtain ⟨hr, hrs⟩ := List.forall_mem_cons.1 hrs
      exact ih (h.put hr) fun r' hr' => (hrs r' hr').put

theorem remove (h : g.Regular ks) (p : Row → Bool) : (g.remove p).Regular ks := by
  refine ⟨?_, ?_⟩
  · rw [rows_remove]
    exact h.models.filter_rows _
  · rw [rows_remove]
    exact h.nodup.sublist (List.filter_sublist.map _)

/-- The rows that are stated anew in a round may be stated. -/
theorem fits_restated (h : g.Regular ks) {p : Row → Bool} :
    ∀ r ∈ (g.rows.filter p).map (·.map g.classes.find), g.Fits ks r := by
  intro r hr
  obtain ⟨r', hr', rfl⟩ := List.mem_map.1 hr
  exact h.models.fits_map_find (h.models.fits r' (List.mem_filter.1 hr').1)

theorem rebuildRound (h : g.Regular ks) : g.rebuildRound.Regular ks :=
  (h.remove _).foldl_put h.fits_restated

end Regular

end EGraph

/-! ## Restoring congruence -/

namespace Classes

/-- The classes that stand for themselves. -/
def roots (c : Classes) : Finset Nat :=
  {i ∈ Finset.range c.size | c.find i = i}

theorem mem_roots {c : Classes} {i : Nat} : i ∈ c.roots ↔ i < c.size ∧ c.find i = i := by
  rw [roots, Finset.mem_filter, Finset.mem_range]

theorem card_roots_le (c : Classes) : c.roots.card ≤ c.size := by
  have h := Finset.card_filter_le (Finset.range c.size) (fun i => c.find i = i)
  rwa [Finset.card_range] at h

theorem merge_of_find_eq {c : Classes} {i j : Nat} (h : c.find i = c.find j) : c.merge i j = c :=
  if_pos h

/-- A merge changes nothing, or there are fewer classes that stand for themselves after it. -/
theorem merge_eq_or_card_roots_lt {c : Classes} {i j : Nat}
    (hfind : ∀ k, c.find (c.find k) = c.find k) (hlt : ∀ k, k < c.size → c.find k < c.size)
    (hi : i < c.size) (hj : j < c.size) :
    c.merge i j = c ∨ (c.merge i j).roots.card < c.roots.card := by
  by_cases heq : c.find i = c.find j
  · exact .inl (merge_of_find_eq heq)
  · right
    have hmerge : c.merge i j =
        c.redirect (min (c.find i) (c.find j)) (max (c.find i) (c.find j)) := if_neg heq
    have hsize := c.size_merge i j
    have hfi := hfind i
    have hfj := hfind j
    have hli := hlt i hi
    have hlj := hlt j hj
    refine Finset.card_lt_card (Finset.ssubset_iff_subset_ne.2 ⟨fun k hk => ?_, fun hsame => ?_⟩)
    · rw [mem_roots, hsize] at hk
      rw [hmerge, find_redirect] at hk
      rw [mem_roots]
      grind
    · -- the larger of the two stood for itself, and does so no longer
      have hdrop : max (c.find i) (c.find j) ∈ c.roots := by
        rw [mem_roots]
        grind
      rw [← hsame, mem_roots, hmerge, find_redirect] at hdrop
      grind

end Classes

namespace EGraph

variable {g : EGraph} {r : Row} {rs : List Row}

/-- A graph without stale rows: every row speaks of classes that stand for themselves. -/
structure Tidy (g : EGraph) : Prop extends g.Regular g.kinds where
  canonical : ∀ r ∈ g.rows, r.map g.classes.find = r

namespace Regular

/-- Stating rows merges nothing, or leaves fewer classes that stand for themselves. -/
theorem foldl_put_classes (h : g.Regular ks) (hrs : ∀ r ∈ rs, g.Fits ks r) :
    (rs.foldl EGraph.put g).classes = g.classes ∨
      (rs.foldl EGraph.put g).classes.roots.card < g.classes.roots.card := by
  induction rs generalizing g with
  | nil => exact .inl rfl
  | cons r rs ih =>
      obtain ⟨hr, hrs⟩ := List.forall_mem_cons.1 hrs
      have hput : (g.put r).classes = g.classes ∨
          (g.put r).classes.roots.card < g.classes.roots.card := by
        rcases g.classes_put_cases r with hc | ⟨there, hthere, hc⟩
        · exact .inl hc
        · rw [hc]
          exact Classes.merge_eq_or_card_roots_lt h.models.find_find h.models.find_lt
            (h.models.fits there hthere).cls_lt hr.cls_lt
      have hrest := ih (h.put hr) fun r' hr' => (hrs r' hr').put
      rw [List.foldl_cons]
      rcases hput with hput | hput
      · rwa [hput] at hrest
      · rcases hrest with hrest | hrest
        · rw [hrest]
          exact .inr hput
        · exact .inr (Nat.lt_trans hrest hput)

/-- A round that merges nothing leaves no stale row. -/
theorem canonical_rebuildRound (h : g.Regular ks) (hc : g.rebuildRound.classes = g.classes) :
    ∀ r ∈ g.rebuildRound.rows, r.map g.rebuildRound.classes.find = r := by
  intro r hr
  rw [hc]
  rcases mem_rows_foldl_put hr with hr | hr
  · rw [rows_remove, List.mem_filter, Bool.not_eq_true'] at hr
    exact Row.isStale_eq_false.1 hr.2
  · obtain ⟨r', -, rfl⟩ := List.mem_map.1 hr
    rw [Row.map_eq_self]
    refine ⟨h.models.find_find _, fun i hi => ?_⟩
    rw [Row.map, Shape.children_map] at hi
    obtain ⟨j, -, rfl⟩ := List.mem_map.1 hi
    exact h.models.find_find j

end Regular

theorem isStale_eq_false : g.isStale = false ↔ ∀ r ∈ g.rows, r.map g.classes.find = r := by
  simp [isStale, Row.isStale_eq_false]

theorem rebuildFor_of_not_stale (h : g.isStale = false) (n : Nat) : rebuildFor n g = g := by
  cases n with
  | zero => rfl
  | succ n => rw [rebuildFor, h]; rfl

/-- Rounds leave no stale row, if there are more of them than classes that stand for themselves. -/
theorem Regular.rebuildFor {n : Nat} (h : g.Regular ks) (hn : g.classes.roots.card < n) :
    (EGraph.rebuildFor n g).Regular ks ∧ (EGraph.rebuildFor n g).isStale = false := by
  induction n generalizing g with
  | zero => exact absurd hn (Nat.not_lt_zero _)
  | succ n ih =>
      rw [EGraph.rebuildFor]
      by_cases hstale : g.isStale = true
      · rw [if_pos hstale]
        rcases (h.remove _).foldl_put_classes h.fits_restated with hsame | hfewer
        · have hround := isStale_eq_false.2 (h.canonical_rebuildRound hsame)
          rw [rebuildFor_of_not_stale hround]
          exact ⟨h.rebuildRound, hround⟩
        · exact ih h.rebuildRound (Nat.lt_of_lt_of_le hfewer (Nat.le_of_lt_succ hn))
      · rw [if_neg hstale]
        exact ⟨h, by simpa using hstale⟩

@[simp] theorem kinds_put (g : EGraph) (r : Row) : (g.put r).kinds = g.kinds := by
  unfold put
  split
  · rfl
  · simp only
    split <;> rfl

@[simp] theorem kinds_foldl_put (g : EGraph) (rs : List Row) :
    (rs.foldl put g).kinds = g.kinds := by
  induction rs generalizing g with
  | nil => rfl
  | cons r rs ih => rw [List.foldl_cons, ih, kinds_put]

@[simp] theorem kinds_rebuildFor (n : Nat) (g : EGraph) : (rebuildFor n g).kinds = g.kinds := by
  induction n generalizing g with
  | zero => rfl
  | succ n ih =>
      rw [rebuildFor]
      split
      · rw [ih, rebuildRound, kinds_foldl_put]
        rfl
      · rfl

/-- **Restoring congruence makes a regular graph tidy.** -/
theorem Regular.rebuild (h : g.Regular g.kinds) : g.rebuild.Tidy := by
  obtain ⟨hreg, hstale⟩ := h.rebuildFor (Nat.lt_succ_of_le g.classes.card_roots_le)
  have hkinds : g.rebuild.kinds = g.kinds := kinds_rebuildFor _ g
  refine ⟨?_, isStale_eq_false.1 hstale⟩
  rw [hkinds]
  exact hreg

/-! ## Adding terms -/

theorem mem_kinds_noteKind {k l : Kind} : l ∈ (g.noteKind k).kinds ↔ l ∈ g.kinds ∨ l = k := by
  unfold noteKind
  split
  · next hk =>
      refine ⟨.inl, ?_⟩
      rintro (hl | rfl)
      · exact hl
      · exact hk
  · simp

theorem mem_kinds_noteKinds {ls : List Kind} {l : Kind} :
    l ∈ (g.noteKinds ls).kinds ↔ l ∈ g.kinds ∨ l ∈ ls := by
  unfold noteKinds
  induction ls generalizing g with
  | nil => simp
  | cons k ls ih => rw [List.foldl_cons, ih, mem_kinds_noteKind, List.mem_cons, or_assoc]

/-- More constructors may be noted than occur. -/
theorem Regular.mono {ks' : List Kind} (h : g.Regular ks) (hks : ∀ k ∈ ks, k ∈ ks') :
    g.Regular ks' where
  models :=
    { good _ := trivial
      rep _ := rfl
      find_find := h.models.find_find
      find_lt := h.models.find_lt
      fits r hr :=
        { toWithin := (h.models.fits r hr).toWithin
          holds := Row.holds_ofKinds.2 (hks _ (Row.holds_ofKinds.1 (h.models.fits r hr).holds)) } }
  nodup := h.nodup

theorem tidy_empty : ({} : EGraph).Tidy where
  models := { good _ := trivial, rep _ := rfl, find_find _ := rfl,
              find_lt _ hi := absurd hi (Nat.not_lt_zero _), fits _ hr := by cases hr }
  nodup := List.nodup_nil
  canonical _ hr := by cases hr

/-- A graph is tidy or not whatever constructors are noted besides. -/
theorem Tidy.noteKinds (h : g.Tidy) (ls : List Kind) : (g.noteKinds ls).Tidy := by
  have hreg := h.toRegular.mono fun k hk => mem_kinds_noteKinds.2 (.inl hk : k ∈ g.kinds ∨ k ∈ ls)
  refine ⟨⟨hreg.models.noteKinds ls, ?_⟩, ?_⟩
  · rw [rows_noteKinds]
    exact h.nodup
  · rw [rows_noteKinds, classes_noteKinds]
    exact h.canonical

/-- A class that stands for itself has been found in a tidy graph, or added to it. -/
structure Found (g : EGraph) (p : EGraph × Nat) : Prop where
  tidy : p.1.Tidy
  kinds : p.1.kinds = g.kinds
  roots : g.classes.roots ⊆ p.1.classes.roots
  root : p.2 ∈ p.1.classes.roots

theorem Tidy.cls_mem_roots (h : g.Tidy) (hr : r ∈ g.rows) : r.cls ∈ g.classes.roots := by
  rw [Classes.mem_roots]
  exact ⟨(h.models.fits r hr).cls_lt, (Row.map_eq_self.1 (h.canonical r hr)).1⟩

theorem Tidy.child_mem_roots (h : g.Tidy) (hr : r ∈ g.rows) :
    ∀ i ∈ r.shape.children, i ∈ g.classes.roots := by
  intro i hi
  rw [Classes.mem_roots]
  exact ⟨(h.models.fits r hr).child_lt i hi, (Row.map_eq_self.1 (h.canonical r hr)).2 i hi⟩

/-- The class of a shape of classes that stand for themselves does so too. -/
theorem Tidy.insert {s : Shape} (h : g.Tidy) (hk : s.kind ∈ g.kinds)
    (hs : ∀ i ∈ s.children, i ∈ g.classes.roots) : g.Found (g.insert s) := by
  have hdenote : (Interpretation.ofKinds g.kinds).denote (fun _ => ()) s = some () := if_pos hk
  obtain ⟨ν, -, hmodel⟩ :=
    h.models.insert hdenote trivial fun i hi => (Classes.mem_roots.1 (hs i hi)).1
  unfold EGraph.insert at hmodel ⊢
  split at hmodel
  · next row hrow =>
      exact ⟨h, rfl, Finset.Subset.refl _, h.cls_mem_roots (rowOf?_eq_some hrow).1⟩
  · next hnone =>
      have hgiven : ∀ i, i ∈ g.classes.roots → i ∈ g.classes.fresh.1.roots := by
        intro i hi
        rw [Classes.mem_roots, Classes.size_fresh, Classes.find_fresh]
        exact (Classes.mem_roots.1 hi).imp_left Nat.lt_succ_of_lt
      have hnew : g.classes.size ∈ g.classes.fresh.1.roots := by
        rw [Classes.mem_roots, Classes.size_fresh, Classes.find_fresh]
        exact ⟨Nat.lt_succ_self _, Classes.find_of_size_le (Nat.le_refl _)⟩
      refine ⟨⟨⟨hmodel.models, ?_⟩, fun r hr => ?_⟩, rfl, hgiven, hnew⟩
      · rw [rows_append]
        exact nodup_concat h.nodup (shape_ne_of_rowOf?_eq_none hnone)
      · rw [Row.map_eq_self]
        simp only [rows_append, List.mem_append, List.mem_singleton, classes_append] at hr ⊢
        rcases hr with hr | rfl
        · simp only [Classes.find_fresh]
          exact Row.map_eq_self.1 (h.canonical r hr)
        · exact ⟨(Classes.mem_roots.1 hnew).2,
            fun i hi => (Classes.mem_roots.1 (hgiven i (hs i hi))).2⟩

theorem Found.trans {p q : EGraph × Nat} (h : g.Found p) (h' : p.1.Found q) : g.Found q :=
  ⟨h'.tidy, h'.kinds.trans h.kinds, h.roots.trans h'.roots, h'.root⟩

/-- Adding a term whose constructors have been noted leaves a tidy graph. -/
theorem Tidy.insertTerm {t : Term} (h : g.Tidy) (ht : ∀ k ∈ t.kinds, k ∈ g.kinds) :
    g.Found (g.insertTerm t) := by
  induction t generalizing g with
  | num n => exact h.insert (ht _ List.mem_cons_self) fun i hi => by cases hi
  | symbol s => exact h.insert (ht _ List.mem_cons_self) fun i hi => by cases hi
  | silent => exact h.insert (ht _ List.mem_cons_self) fun i hi => by cases hi
  | arg t ih =>
      obtain ⟨hk, ht⟩ := List.forall_mem_cons.1 ht
      have h₁ := ih h ht
      rw [← h₁.kinds] at hk
      exact h₁.trans (h₁.tidy.insert hk (List.forall_mem_singleton.2 h₁.root))
  | bin op l r ihl ihr =>
      obtain ⟨hk, hlr⟩ := List.forall_mem_cons.1 ht
      obtain ⟨hl, hr⟩ := List.forall_mem_append.1 hlr
      have h₁ := ihl h hl
      have h₂ := ihr h₁.tidy fun k hk => h₁.kinds ▸ hr k hk
      rw [← h₁.kinds, ← h₂.kinds] at hk
      refine (h₁.trans h₂).trans (h₂.tidy.insert hk ?_)
      simp [Shape.children, h₂.roots h₁.root, h₂.root]
  | print e v ihe ihv =>
      obtain ⟨hk, hev⟩ := List.forall_mem_cons.1 ht
      obtain ⟨he, hv⟩ := List.forall_mem_append.1 hev
      have h₁ := ihe h he
      have h₂ := ihv h₁.tidy fun k hk => h₁.kinds ▸ hv k hk
      rw [← h₁.kinds, ← h₂.kinds] at hk
      refine (h₁.trans h₂).trans (h₂.tidy.insert hk ?_)
      simp [Shape.children, h₂.roots h₁.root, h₂.root]

/-- **Adding a term leaves a tidy graph.** -/
theorem Tidy.addTerm (h : g.Tidy) (t : Term) : (g.addTerm t).1.Tidy := by
  unfold EGraph.addTerm
  simp only
  split
  · next hw =>
      refine ((h.noteKinds t.wordKinds).insertTerm fun k hk => ?_).tidy
      rw [← Term.wordKinds_eq_kinds hw] at hk
      exact mem_kinds_noteKinds.2 (.inr hk)
  · exact h.noteKinds t.wordKinds

theorem Regular.merge {i j : Nat} (h : g.Regular ks) (hi : i < g.classes.size)
    (hj : j < g.classes.size) : (g.merge i j).Regular ks :=
  ⟨h.models.merge hi hj rfl, h.nodup⟩

/-- Two terms that are to be declared equal have been added, each with a class. -/
theorem Tidy.insertTerm_insertTerm {l r : Term} (h : g.Tidy) (hl : l.inWords = true)
    (hr : r.inWords = true) :
    let p := ((g.noteKinds l.wordKinds).noteKinds r.wordKinds).insertTerm l
    let q := p.1.insertTerm r
    q.1.Tidy ∧ p.2 < q.1.classes.size ∧ q.2 < q.1.classes.size := by
  intro p q
  have hn := (h.noteKinds l.wordKinds).noteKinds r.wordKinds
  have hp := hn.insertTerm (t := l) fun k hk => by
    rw [← Term.wordKinds_eq_kinds hl] at hk
    exact mem_kinds_noteKinds.2 (.inl (mem_kinds_noteKinds.2 (.inr hk)))
  have hq := hp.tidy.insertTerm (t := r) fun k hk => by
    rw [← Term.wordKinds_eq_kinds hr] at hk
    rw [hp.kinds]
    exact mem_kinds_noteKinds.2 (.inr hk)
  exact ⟨hq.tidy, (Classes.mem_roots.1 (hq.roots hp.root)).1, (Classes.mem_roots.1 hq.root).1⟩

/-- **Declaring two terms equal leaves a tidy graph.** -/
theorem Tidy.union (h : g.Tidy) (l r : Term) : (g.union l r).1.Tidy := by
  unfold EGraph.union
  split
  · next hl =>
      simp only
      split
      · next hr =>
          obtain ⟨htidy, hlt, hlt'⟩ := h.insertTerm_insertTerm hl hr
          exact (htidy.toRegular.merge hlt hlt').rebuild
      · exact (h.noteKinds l.wordKinds).noteKinds r.wordKinds
  · exact h.noteKinds l.wordKinds

/-! ## Iterations -/

/-- Rules whose constructors have been noted are valid by constructors. -/
theorem valid_ofKinds {rules : List Rule} (hne : ∀ r ∈ rules, r.premises ≠ [])
    (hk : ∀ k ∈ rules.flatMap Rule.kinds, k ∈ g.kinds) :
    ∀ r ∈ rules, r.Valid (.ofKinds g.kinds) := by
  intro r hr
  exact Rule.valid_ofKinds (hne r hr) fun k hkr => hk k (List.mem_flatMap.2 ⟨r, hr, hkr⟩)

/-- What an iteration drafts may be stated in the graph. -/
theorem Tidy.draft {rules : List Rule} (h : g.Tidy)
    (hv : ∀ r ∈ rules, r.Valid (.ofKinds g.kinds)) :
    Models (.ofKinds g.kinds) (fun _ => ()) (g.draft rules).classes
      ((g.draft rules).known g.rows) := by
  obtain ⟨ν, hmodel⟩ := h.models.draft hv
  exact hmodel

/-- The graph in which a draft is stated is regular, and so is what is drafted. -/
theorem Tidy.start {d : Draft} (h : g.Tidy)
    (hd : Models (.ofKinds g.kinds) (fun _ => ()) d.classes (d.known g.rows)) :
    ({ g with classes := d.classes, settled := g.rows, recent := [] } : EGraph).Regular g.kinds ∧
      ∀ r ∈ d.rows.reverse, r.Fits (.ofKinds g.kinds) (fun _ => ()) d.classes.size := by
  refine ⟨⟨hd.with_rows fun r hr => ?_, ?_⟩, fun r hr => hd.fits r ?_⟩
  · rw [rows, List.append_nil] at hr
    exact .inl (List.mem_append_left _ hr)
  · rw [rows, List.append_nil]
    exact h.nodup
  · exact List.mem_append_right _ (List.mem_append_right _ (List.mem_reverse.1 hr))

theorem Tidy.accept {d : Draft} (h : g.Tidy)
    (hd : Models (.ofKinds g.kinds) (fun _ => ()) d.classes (d.known g.rows)) :
    (g.accept d).Tidy := by
  obtain ⟨hstart, hrows⟩ := h.start hd
  refine Regular.rebuild ?_
  rw [kinds_foldl_put]
  exact hstart.foldl_put hrows

/-- **An iteration leaves a tidy graph.** -/
theorem Tidy.iterate {rules : List Rule} (h : g.Tidy) (hne : ∀ r ∈ rules, r.premises ≠ []) :
    (g.iterate rules).Tidy := by
  unfold EGraph.iterate
  split
  · exact h
  · have hn := h.noteKinds (rules.flatMap Rule.kinds)
    exact hn.accept (hn.draft (valid_ofKinds hne fun k hk => mem_kinds_noteKinds.2 (.inr hk)))

end EGraph

end WhileLang
