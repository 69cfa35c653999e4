import Mathlib.Algebra.Order.BigOperators.Group.List
import Mathlib.Algebra.Order.Ring.Nat
import Mathlib.Data.List.Forall2
import Mathlib.Logic.Function.Iterate
import Mathlib.Order.WellFounded
import WhileLang.Proofs.RepresentedTerms
import WhileLang.Proofs.TidyGraph

/-!
# The term read off is a cheapest one

Sweeps over the rows lower the costs of the classes. A class that has a cost has a term of this
cost. The other way round, once the classes that have a cheaper term than a given one have their
least cost, the next sweep gives the class of this term its cost or less; as there are no more such
classes than classes at all, the sweeps are enough for every term.

In the end some row gives a class its least cost by way of classes that got theirs before, so it can
be followed down to the leaves, and the term found has that cost.

* `Shape.exists_toTerm`: terms for the children of a shape make a term of it.
* `Marks.visit_cases`: what the visit of a row does.
* `EGraph.Marked`: each cost is that of a term, and a row accounts for it.
* `EGraph.Tidy.atMost_marks`: after the sweeps, no term of a class is cheaper than the mark.
* `EGraph.Tidy.exists_accepted`: every class that has a mark has a row that can be followed.
* `EGraph.Tidy.extract_cheapest`: the term read off is a cheapest one of its class.
-/

namespace WhileLang

/-! ## Terms and shapes -/

/-- The term of a shape, given terms for its children. -/
def Shape.toTerm (f : Nat → Term) : Shape → Term
  | num n => .num n
  | symbol s => .symbol s
  | bin op l r => .bin op (f l) (f r)
  | arg i => .arg (f i)
  | silent => .silent
  | print e v => .print (f e) (f v)

theorem Kind.weight_pos (k : Kind) : 0 < k.weight := by
  cases k <;> exact Nat.succ_pos _

theorem Shape.cost_toTerm (f : Nat → Term) (s : Shape) :
    (s.toTerm f).cost = s.kind.weight + (s.children.map fun i => (f i).cost).sum := by
  cases s <;> simp [toTerm, Term.cost, kind, Kind.weight, children] <;> omega

/-- Terms for the children of a shape make a term of it, whose cost is the sum of theirs and the
weight. -/
theorem Shape.exists_toTerm {s : Shape} {P : Nat → Term → Prop} {cost : Nat → Nat}
    (h : ∀ i ∈ s.children, ∃ t, P i t ∧ t.cost = cost i) :
    ∃ f : Nat → Term, (∀ i ∈ s.children, P i (f i)) ∧
      (s.toTerm f).cost = s.kind.weight + (s.children.map cost).sum := by
  have hterm : ∀ i, ∃ t, i ∈ s.children → P i t ∧ t.cost = cost i := by
    intro i
    by_cases hi : i ∈ s.children
    · obtain ⟨t, ht⟩ := h i hi
      exact ⟨t, fun _ => ht⟩
    · exact ⟨.silent, fun hi' => absurd hi' hi⟩
  choose f hf using hterm
  refine ⟨f, fun i hi => (hf i hi).1, ?_⟩
  rw [cost_toTerm, List.map_congr_left fun i hi => (hf i hi).2]

namespace EGraph

variable {g : EGraph} {t : Term} {c : Nat}

theorem represents_toTerm {r : Row} {f : Nat → Term} (hr : r ∈ g.rows)
    (hf : ∀ i ∈ r.shape.children, g.Represents (f i) i) :
    g.Represents (r.shape.toTerm f) r.cls := by
  obtain ⟨s, k⟩ := r
  cases s with
  | num n => exact .num hr rfl
  | symbol s => exact .symbol hr rfl
  | silent => exact .silent hr rfl
  | arg i => exact .arg hr rfl (hf i (by simp [Shape.children]))
  | bin op l r =>
      exact .bin hr rfl (hf l (by simp [Shape.children])) (hf r (by simp [Shape.children]))
  | print e v =>
      exact .print hr rfl (hf e (by simp [Shape.children])) (hf v (by simp [Shape.children]))

/-- A represented term has a row, terms represented in the classes of the row, and the sum of their
costs and the weight of the row. -/
theorem Represents.exists_row (h : g.Represents t c) :
    ∃ r ∈ g.rows, g.classes.find r.cls = g.classes.find c ∧
      ∃ ts, List.Forall₂ g.Represents ts r.shape.children ∧
        t.cost = r.shape.kind.weight + (ts.map Term.cost).sum := by
  cases h with
  | num h hc => exact ⟨_, h, hc, [], .nil, rfl⟩
  | symbol h hc => exact ⟨_, h, hc, [], .nil, rfl⟩
  | silent h hc => exact ⟨_, h, hc, [], .nil, rfl⟩
  | arg h hc ht => exact ⟨_, h, hc, [_], .cons ht .nil, rfl⟩
  | bin h hc hl hr =>
      exact ⟨_, h, hc, [_, _], .cons hl (.cons hr .nil), Nat.add_assoc ..⟩
  | print h hc he hv =>
      exact ⟨_, h, hc, [_, _], .cons he (.cons hv .nil), Nat.add_assoc ..⟩

end EGraph

/-! ## Marks -/

namespace Marks

variable {m m' : Marks} {r : Row} {s : Shape} {c k : Nat}

/-- The cost of a class; zero if it has none. -/
def costOf (m : Marks) (c : Nat) : Nat :=
  ((m.get? c).map (·.cost)).getD 0

theorem costOf_eq {mark : Mark} (h : m.get? c = some mark) : m.costOf c = mark.cost := by
  rw [costOf, h]
  rfl

/-- The cost of a shape is its weight and the costs of its children. -/
theorem shapeCost?_eq_some : m.shapeCost? s = some k ↔
    (∀ i ∈ s.children, ∃ mark, m.get? i = some mark) ∧
      k = s.kind.weight + (s.children.map m.costOf).sum := by
  have hfold : ∀ (is : List Nat) (total : Nat),
      is.foldlM (fun total c => (m.get? c).map (total + ·.cost)) total = some k ↔
        (∀ i ∈ is, ∃ mark, m.get? i = some mark) ∧ k = total + (is.map m.costOf).sum := by
    intro is
    induction is with
    | nil => simp [eq_comm]
    | cons i is ih =>
        intro total
        rw [List.foldlM_cons, List.forall_mem_cons]
        cases hi : m.get? i with
        | none => simp
        | some mark => simp [ih, costOf_eq hi, Nat.add_assoc]
  exact hfold s.children s.kind.weight

/-- A class has at most a given cost. -/
def AtMost (m : Marks) (c k : Nat) : Prop :=
  ∃ mark, m.get? c = some mark ∧ mark.cost ≤ k

theorem AtMost.trans {k' : Nat} (h : m.AtMost c k) (hk : k ≤ k') : m.AtMost c k' := by
  obtain ⟨mark, hmark, hle⟩ := h
  exact ⟨mark, hmark, Nat.le_trans hle hk⟩

theorem exists_shapeCost? {ks : List Nat}
    (h : List.Forall₂ (fun k i => m.AtMost i k) ks s.children) :
    ∃ l, m.shapeCost? s = some l ∧ l ≤ s.kind.weight + ks.sum := by
  have hsum : ∀ {ks is : List Nat}, List.Forall₂ (fun k i => m.AtMost i k) ks is →
      (∀ i ∈ is, ∃ mark, m.get? i = some mark) ∧ (is.map m.costOf).sum ≤ ks.sum := by
    intro ks is h
    induction h with
    | nil => simp
    | cons hi _ ih =>
        obtain ⟨mark, hmark, hle⟩ := hi
        refine ⟨List.forall_mem_cons.2 ⟨⟨mark, hmark⟩, ih.1⟩, ?_⟩
        rw [List.map_cons, List.sum_cons, List.sum_cons, costOf_eq hmark]
        exact Nat.add_le_add hle ih.2
  obtain ⟨hmarks, hle⟩ := hsum h
  exact ⟨_, shapeCost?_eq_some.2 ⟨hmarks, rfl⟩, Nat.add_le_add_left hle _⟩

/-! ## The visit of a row -/

/-- `m'` is `m` after a row has given its class its first cost or a lower one. -/
structure Improved (m : Marks) (r : Row) (k : Nat) (m' : Marks) : Prop where
  cost : m.shapeCost? r.shape = some k
  lower : ∀ mark, m.get? r.cls = some mark → k < mark.cost
  next : m'.next = m.next + 1
  get? : ∀ c, m'.get? c = if c = r.cls then some ⟨k, m.next⟩ else m.get? c

/-- The visit of a row changes nothing if the class of the row costs no more than the row; otherwise
the class gets the cost of the row. -/
theorem visit_cases (hr : r.cls < m.marks.size) :
    (m.visit r = m ∧ ∀ k, m.shapeCost? r.shape = some k → m.AtMost r.cls k) ∨
      ∃ k, m.Improved r k (m.visit r) := by
  unfold visit
  cases hcost : m.shapeCost? r.shape with
  | none => exact .inl ⟨rfl, fun k hk => by cases hk⟩
  | some k =>
      simp only
      split
      · next hall =>
          refine .inr ⟨k, hcost, fun mark hmark => ?_, rfl, fun c => ?_⟩
          · simpa [hmark] using hall
          · simp only [get?, Array.getD_eq_getD_getElem?, Array.getElem?_setIfInBounds]
            by_cases hc : c = r.cls
            · simp [hc, hr]
            · simp [hc, Ne.symm hc]
      · next hall =>
          refine .inl ⟨rfl, fun l hl => ?_⟩
          obtain rfl := Option.some.inj hl
          cases hmark : m.get? r.cls with
          | none => simp [hmark] at hall
          | some mark => exact ⟨mark, hmark, by simpa [hmark] using hall⟩

@[simp] theorem size_visit (m : Marks) (r : Row) : (m.visit r).marks.size = m.marks.size := by
  unfold visit
  split
  · rfl
  · split
    · exact Array.size_setIfInBounds
    · rfl

namespace Improved

theorem get?_cls (h : m.Improved r k m') : m'.get? r.cls = some ⟨k, m.next⟩ := by
  rw [h.get?, if_pos rfl]

theorem get?_of_ne (h : m.Improved r k m') (hc : c ≠ r.cls) : m'.get? c = m.get? c := by
  rw [h.get?, if_neg hc]

/-- A row that refers to its own class never lowers its cost. -/
theorem cls_not_mem (h : m.Improved r k m') : r.cls ∉ r.shape.children := by
  intro hmem
  obtain ⟨hmarks, hk⟩ := shapeCost?_eq_some.1 h.cost
  obtain ⟨mark, hmark⟩ := hmarks _ hmem
  have hlt := h.lower mark hmark
  have hle : m.costOf r.cls ≤ (r.shape.children.map m.costOf).sum :=
    List.single_le_sum (fun _ _ => Nat.zero_le _) _ (List.mem_map_of_mem hmem)
  rw [costOf_eq hmark] at hle
  omega

/-- A shape that does not refer to the class costs what it did. -/
theorem shapeCost?_of_not_mem {l : Nat} (h : m.Improved r k m') (hs : r.cls ∉ s.children)
    (hl : m.shapeCost? s = some l) : m'.shapeCost? s = some l := by
  have hget : ∀ i ∈ s.children, m'.get? i = m.get? i := by
    intro i hi
    exact h.get?_of_ne fun heq => hs (heq ▸ hi)
  rw [shapeCost?_eq_some] at hl ⊢
  refine ⟨fun i hi => hget i hi ▸ hl.1 i hi, ?_⟩
  have hcosts : s.children.map m'.costOf = s.children.map m.costOf := by
    exact List.map_congr_left fun i hi => by rw [costOf, costOf, hget i hi]
  rw [hcosts]
  exact hl.2

/-- A shape that refers to the class has become cheaper. -/
theorem shapeCost?_of_mem {l : Nat} (h : m.Improved r k m') (hs : r.cls ∈ s.children)
    (hl : m.shapeCost? s = some l) : ∃ l' < l, m'.shapeCost? s = some l' := by
  obtain ⟨hmarks, hl⟩ := shapeCost?_eq_some.1 hl
  have hlower : m'.costOf r.cls < m.costOf r.cls := by
    obtain ⟨mark, hmark⟩ := hmarks _ hs
    rw [costOf_eq h.get?_cls, costOf_eq hmark]
    exact h.lower mark hmark
  have hle : ∀ i ∈ s.children, m'.costOf i ≤ m.costOf i := by
    intro i _
    by_cases hi : i = r.cls
    · rw [hi]
      exact Nat.le_of_lt hlower
    · rw [costOf, costOf, h.get?_of_ne hi]
  refine ⟨_, ?_, shapeCost?_eq_some.2 ⟨fun i hi => ?_, rfl⟩⟩
  · rw [hl]
    exact Nat.add_lt_add_left (List.sum_lt_sum _ _ hle ⟨_, hs, hlower⟩) _
  · rw [h.get?]
    split
    · exact ⟨_, rfl⟩
    · exact hmarks i hi

end Improved

theorem AtMost.visit {l : Nat} (h : m.AtMost c l) (hr : r.cls < m.marks.size) :
    (m.visit r).AtMost c l := by
  rcases visit_cases hr with ⟨hsame, -⟩ | ⟨k, hnew⟩
  · rw [hsame]
    exact h
  · obtain ⟨mark, hmark, hle⟩ := h
    by_cases hc : c = r.cls
    · rw [hc] at hmark ⊢
      exact ⟨_, hnew.get?_cls, Nat.le_trans (Nat.le_of_lt (hnew.lower mark hmark)) hle⟩
    · exact ⟨mark, (hnew.get?_of_ne hc).trans hmark, hle⟩

/-- After the visit of a row, its class costs no more than the row. -/
theorem atMost_visit (hr : r.cls < m.marks.size) (hk : m.shapeCost? r.shape = some k) :
    (m.visit r).AtMost r.cls k := by
  rcases visit_cases hr with ⟨hsame, hle⟩ | ⟨l, hnew⟩
  · rw [hsame]
    exact hle k hk
  · obtain rfl : k = l := Option.some.inj (hk.symm.trans hnew.cost)
    exact ⟨_, hnew.get?_cls, Nat.le_refl _⟩

/-! ## Sweeps -/

variable {rows : List Row}

theorem AtMost.sweep {l : Nat} (h : m.AtMost c l) (hrows : ∀ r ∈ rows, r.cls < m.marks.size) :
    (rows.foldl Marks.visit m).AtMost c l := by
  induction rows generalizing m with
  | nil => exact h
  | cons r rows ih =>
      obtain ⟨hr, hrows⟩ := List.forall_mem_cons.1 hrows
      exact ih (h.visit hr) (by simpa using hrows)

/-- After a sweep, the class of a row costs no more than what the row cost before. -/
theorem atMost_sweep {ks : List Nat} (hrows : ∀ r ∈ rows, r.cls < m.marks.size) (hr : r ∈ rows)
    (hks : List.Forall₂ (fun k i => m.AtMost i k) ks r.shape.children) :
    (rows.foldl visit m).AtMost r.cls (r.shape.kind.weight + ks.sum) := by
  induction rows generalizing m with
  | nil => cases hr
  | cons r' rows ih =>
      obtain ⟨hr', hrows⟩ := List.forall_mem_cons.1 hrows
      have hrows' : ∀ r ∈ rows, r.cls < (m.visit r').marks.size := by simpa using hrows
      rcases List.mem_cons.1 hr with rfl | hr
      · obtain ⟨l, hl, hle⟩ := exists_shapeCost? hks
        exact ((atMost_visit hr' hl).trans hle).sweep hrows'
      · exact ih hrows' hr (hks.imp fun k i h => h.visit hr')

theorem visit_eq_or_lt (hr : r.cls < m.marks.size) : m.visit r = m ∨ m.next < (m.visit r).next := by
  rcases visit_cases hr with ⟨hsame, -⟩ | ⟨k, hnew⟩
  · exact .inl hsame
  · rw [hnew.next]
    exact .inr (Nat.lt_succ_self _)

/-- A sweep that counts no change has changed nothing. -/
theorem sweep_eq_or_lt (hrows : ∀ r ∈ rows, r.cls < m.marks.size) :
    rows.foldl visit m = m ∨ m.next < (rows.foldl visit m).next := by
  induction rows generalizing m with
  | nil => exact .inl rfl
  | cons r rows ih =>
      obtain ⟨hr, hrows⟩ := List.forall_mem_cons.1 hrows
      rw [List.foldl_cons]
      have hrest := ih (m := m.visit r) (by simpa using hrows)
      rcases visit_eq_or_lt hr with hsame | hlt
      · rwa [hsame] at hrest ⊢
      · rcases hrest with hrest | hrest
        · rw [hrest]
          exact .inr hlt
        · exact .inr (Nat.lt_trans hlt hrest)

theorem size_sweep (rows : List Row) (m : Marks) :
    (rows.foldl visit m).marks.size = m.marks.size := by
  induction rows generalizing m with
  | nil => rfl
  | cons r rows ih => rw [List.foldl_cons, ih, size_visit]

/-- Stopping early makes no difference. -/
theorem sweepFor_eq_iterate (n : Nat) (hrows : ∀ r ∈ rows, r.cls < m.marks.size) :
    sweepFor rows n m = (rows.foldl visit)^[n] m := by
  induction n generalizing m with
  | zero => rfl
  | succ n ih =>
      rw [sweepFor, Function.iterate_succ_apply]
      split
      · next hnext =>
          have hsame : rows.foldl visit m = m :=
            (sweep_eq_or_lt hrows).resolve_right (hnext ▸ Nat.lt_irrefl _)
          rw [hsame, Function.iterate_fixed hsame]
      · refine ih fun r hr => ?_
        rw [size_sweep]
        exact hrows r hr

end Marks

/-! ## What marks say -/

/-- A row accounts for the mark of its class: it costs no more, and if it costs as much, the classes
that it refers to had their costs before. -/
def Marks.Accounts (m : Marks) (r : Row) (mark : Mark) : Prop :=
  ∃ k ≤ mark.cost, m.shapeCost? r.shape = some k ∧
    (k = mark.cost → ∀ i ∈ r.shape.children,
      ∃ mark', m.get? i = some mark' ∧ mark'.rank < mark.rank)

/-- The mark of a class is the cost of one of its terms, a row accounts for it, and it has been
counted. -/
structure EGraph.Marked (g : EGraph) (m : Marks) : Prop where
  term : ∀ c mark, m.get? c = some mark → ∃ t, g.Represents t c ∧ t.cost = mark.cost
  row : ∀ c mark, m.get? c = some mark → ∃ r ∈ g.rows, r.cls = c ∧ m.Accounts r mark
  rank_lt : ∀ c mark, m.get? c = some mark → mark.rank < m.next

namespace EGraph

variable {g : EGraph} {m : Marks} {r : Row} {t : Term} {c : Nat}

/-- A row whose children have a cost has a term of its cost. -/
theorem Marked.exists_term {k : Nat} (h : g.Marked m) (hr : r ∈ g.rows)
    (hk : m.shapeCost? r.shape = some k) : ∃ t, g.Represents t r.cls ∧ t.cost = k := by
  obtain ⟨hmarks, rfl⟩ := Marks.shapeCost?_eq_some.1 hk
  have hterm : ∀ i ∈ r.shape.children, ∃ t, g.Represents t i ∧ t.cost = m.costOf i := by
    intro i hi
    obtain ⟨mark, hmark⟩ := hmarks i hi
    rw [Marks.costOf_eq hmark]
    exact h.term i mark hmark
  obtain ⟨f, hf, hcost⟩ := Shape.exists_toTerm (P := fun i t => g.Represents t i) hterm
  exact ⟨_, represents_toTerm hr hf, hcost⟩

theorem Marked.visit (h : g.Marked m) (hr : r ∈ g.rows) (hlt : r.cls < m.marks.size) :
    g.Marked (m.visit r) := by
  rcases Marks.visit_cases hlt with ⟨hsame, -⟩ | ⟨k, hnew⟩
  · rw [hsame]
    exact h
  -- what is to be shown is known for the class of the row, and was so before for the others
  have hcases : ∀ {P : Nat → Mark → Prop}, P r.cls ⟨k, m.next⟩ →
      (∀ c mark, c ≠ r.cls → m.get? c = some mark → P c mark) →
        ∀ c mark, (m.visit r).get? c = some mark → P c mark := by
    intro P hself hother c mark hmark
    by_cases hc : c = r.cls
    · rw [hc, hnew.get?_cls] at hmark
      rw [hc, ← Option.some.inj hmark]
      exact hself
    · rw [hnew.get?_of_ne hc] at hmark
      exact hother c mark hc hmark
  refine ⟨hcases (h.exists_term hr hnew.cost) fun c mark _ => h.term c mark, hcases ?_ ?_,
    hcases ?_ ?_⟩
  · refine ⟨r, hr, rfl, k, Nat.le_refl _, hnew.shapeCost?_of_not_mem hnew.cls_not_mem hnew.cost, ?_⟩
    intro _ i hi
    obtain ⟨mark, hmark⟩ := (Marks.shapeCost?_eq_some.1 hnew.cost).1 i hi
    rw [hnew.get?_of_ne fun heq => hnew.cls_not_mem (heq ▸ hi)]
    exact ⟨mark, hmark, h.rank_lt i mark hmark⟩
  · intro c mark hc hmark
    obtain ⟨r', hr', hcls, l, hle, hl, hranks⟩ := h.row c mark hmark
    refine ⟨r', hr', hcls, ?_⟩
    by_cases hmem : r.cls ∈ r'.shape.children
    · obtain ⟨l', hlt, hl'⟩ := hnew.shapeCost?_of_mem hmem hl
      refine ⟨l', Nat.le_of_lt (Nat.lt_of_lt_of_le hlt hle), hl', fun heq => ?_⟩
      exact absurd heq (Nat.ne_of_lt (Nat.lt_of_lt_of_le hlt hle))
    · refine ⟨l, hle, hnew.shapeCost?_of_not_mem hmem hl, fun heq i hi => ?_⟩
      rw [hnew.get?_of_ne fun heq => hmem (heq ▸ hi)]
      exact hranks heq i hi
  · rw [hnew.next]
    exact Nat.lt_succ_self _
  · intro c mark _ hmark
    rw [hnew.next]
    exact Nat.lt_succ_of_lt (h.rank_lt c mark hmark)

theorem Marked.sweep {rows : List Row} (h : g.Marked m) (hrows : ∀ r ∈ rows, r ∈ g.rows)
    (hlt : ∀ r ∈ rows, r.cls < m.marks.size) : g.Marked (rows.foldl Marks.visit m) := by
  induction rows generalizing m with
  | nil => exact h
  | cons r rows ih =>
      obtain ⟨hr, hrows⟩ := List.forall_mem_cons.1 hrows
      obtain ⟨hltr, hlt⟩ := List.forall_mem_cons.1 hlt
      exact ih (h.visit hr hltr) hrows (by simpa using hlt)

/-! ## After the sweeps -/

/-- The marks after a number of sweeps. -/
def sweeps (g : EGraph) (n : Nat) : Marks :=
  (g.orderedRows.foldl Marks.visit)^[n] { marks := Array.replicate g.classes.size none }

theorem sweeps_succ (g : EGraph) (n : Nat) :
    g.sweeps (n + 1) = g.orderedRows.foldl Marks.visit (g.sweeps n) :=
  Function.iterate_succ_apply' ..

theorem size_sweeps (g : EGraph) (n : Nat) : (g.sweeps n).marks.size = g.classes.size := by
  induction n with
  | zero => exact Array.size_replicate
  | succ n ih => rw [sweeps_succ, Marks.size_sweep, ih]

theorem get?_sweeps_zero (g : EGraph) (c : Nat) : (g.sweeps 0).get? c = none := by
  show (Array.replicate g.classes.size none).getD c none = none
  rw [Array.getD_eq_getD_getElem?, Array.getElem?_replicate]
  split <;> rfl

namespace Tidy

theorem mem_orderedRows (h : g.Tidy) : r ∈ g.orderedRows ↔ r ∈ g.rows := by
  refine ⟨mem_rows_of_mem_orderedRows, fun hr => List.mem_flatMap.2 ⟨r.shape.kind, ?_, ?_⟩⟩
  · exact Row.holds_ofKinds.1 (h.models.fits r hr).holds
  · exact List.mem_filter.2 ⟨hr, by simp⟩

theorem cls_lt (h : g.Tidy) (n : Nat) : ∀ r ∈ g.orderedRows, r.cls < (g.sweeps n).marks.size := by
  intro r hr
  rw [size_sweeps]
  exact (h.models.fits r (h.mem_orderedRows.1 hr)).cls_lt

theorem marks_eq (h : g.Tidy) : g.marks = g.sweeps (g.classes.size + 1) :=
  Marks.sweepFor_eq_iterate _ (h.cls_lt 0)

theorem marked_sweeps (h : g.Tidy) (n : Nat) : g.Marked (g.sweeps n) := by
  induction n with
  | zero =>
      have hnone : ∀ {P : Nat → Mark → Prop} c mark,
          (g.sweeps 0).get? c = some mark → P c mark := by
        intro P c mark hmark
        rw [get?_sweeps_zero] at hmark
        cases hmark
      exact ⟨hnone, hnone, hnone⟩
  | succ n ih =>
      rw [sweeps_succ]
      exact ih.sweep (fun r hr => h.mem_orderedRows.1 hr) (h.cls_lt n)

end Tidy

open Classical in
/-- The classes that have a cheaper term than a given cost. -/
noncomputable def cheaper (g : EGraph) (k : Nat) : Finset Nat :=
  {c ∈ Finset.range g.classes.size | ∃ t, g.Represents t c ∧ t.cost < k}

theorem mem_cheaper {k : Nat} :
    c ∈ g.cheaper k ↔ c < g.classes.size ∧ ∃ t, g.Represents t c ∧ t.cost < k := by
  simp [cheaper]

theorem exists_cheapest (h : g.Represents t c) :
    ∃ u, g.Represents u c ∧ ∀ t, g.Represents t c → u.cost ≤ t.cost := by
  obtain ⟨u, hu, hmin⟩ := (measure Term.cost).wf.has_min {t | g.Represents t c} ⟨t, h⟩
  exact ⟨u, hu, fun t ht => Nat.le_of_not_lt (hmin t ht)⟩

/-- More classes have a cheaper term than `t` than have one than the cheapest of a class with a
cheaper term. -/
theorem card_cheaper_lt {u : Term} (hc : c < g.classes.size) (hu : g.Represents u c)
    (hmin : ∀ t, g.Represents t c → u.cost ≤ t.cost) (hlt : u.cost < t.cost) :
    (g.cheaper u.cost).card < (g.cheaper t.cost).card := by
  refine Finset.card_lt_card (Finset.ssubset_iff_of_subset ?_ |>.2 ⟨c, ?_, ?_⟩)
  · intro d hd
    obtain ⟨hdlt, t', ht', hlt'⟩ := mem_cheaper.1 hd
    exact mem_cheaper.2 ⟨hdlt, t', ht', Nat.lt_trans hlt' hlt⟩
  · exact mem_cheaper.2 ⟨hc, u, hu, hlt⟩
  · intro hmem
    obtain ⟨-, t', ht', hlt'⟩ := mem_cheaper.1 hmem
    exact absurd (hmin t' ht') (Nat.not_le_of_lt hlt')

namespace Tidy

/-- After more sweeps than classes have a cheaper term, the class of a term costs no more than the
term. -/
theorem atMost_sweeps {n : Nat} (h : g.Tidy) (ht : g.Represents t c)
    (hn : (g.cheaper t.cost).card < n) :
    (g.sweeps n).AtMost (g.classes.find c) t.cost := by
  induction n generalizing t c with
  | zero => exact absurd hn (Nat.not_lt_zero _)
  | succ n ih =>
      obtain ⟨r, hr, hcls, ts, hts, hcost⟩ := ht.exists_row
      rw [← hcls, (Classes.mem_roots.1 (h.cls_mem_roots hr)).2, sweeps_succ, hcost]
      refine Marks.atMost_sweep (h.cls_lt n) (h.mem_orderedRows.2 hr) ?_
      rw [List.forall₂_map_left_iff]
      -- the cheapest term of a child has fewer classes below it, so it has been reached before
      have hchild : ∀ t' ∈ ts, ∀ i ∈ r.shape.children, g.Represents t' i →
          (g.sweeps n).AtMost i t'.cost := by
        intro t' ht' i hi hrep
        obtain ⟨hlt, hroot⟩ := Classes.mem_roots.1 (h.child_mem_roots hr i hi)
        obtain ⟨u, hu, hmin⟩ := exists_cheapest hrep
        have hle : t'.cost ≤ (ts.map Term.cost).sum :=
          List.single_le_sum (fun _ _ => Nat.zero_le _) _ (List.mem_map_of_mem ht')
        have hweight := r.shape.kind.weight_pos
        have hcard := card_cheaper_lt (t := t) hlt hu hmin (by have := hmin t' hrep; omega)
        have hatMost := ih hu (by omega)
        rw [hroot] at hatMost
        exact hatMost.trans (hmin t' hrep)
      rw [List.forall₂_iff_get] at hts ⊢
      exact ⟨hts.1, fun i hi hi' => hchild _ (List.get_mem ..) _ (List.get_mem ..) (hts.2 i hi hi')⟩

/-- **After the last sweep no term of a class is cheaper than its mark.** -/
theorem atMost_marks (h : g.Tidy) (ht : g.Represents t c) :
    g.marks.AtMost (g.classes.find c) t.cost := by
  rw [h.marks_eq]
  refine h.atMost_sweeps ht (Nat.lt_succ_of_le ?_)
  have hsub : g.cheaper t.cost ⊆ Finset.range g.classes.size :=
    fun d hd => Finset.mem_range.2 (mem_cheaper.1 hd).1
  simpa using Finset.card_le_card hsub

end Tidy

end EGraph

/-! ## Following rows down -/

theorem Marks.accepts_iff {m : Marks} {r : Row} : m.accepts r = true ↔
    ∃ mark, m.get? r.cls = some mark ∧ m.shapeCost? r.shape = some mark.cost ∧
      ∀ i ∈ r.shape.children, ∃ mark', m.get? i = some mark' ∧ mark'.rank < mark.rank := by
  unfold accepts
  cases hmark : m.get? r.cls with
  | none => simp
  | some mark =>
      cases hcost : m.shapeCost? r.shape with
      | none => simp
      | some k => simp [Option.any_eq_true]

namespace EGraph

variable {g : EGraph} {m : Marks} {c : Nat}

/-- A class that has a mark in the end has a row that is accepted. -/
theorem Tidy.exists_accepted {mark : Mark} (h : g.Tidy) (hmark : g.marks.get? c = some mark) :
    ∃ r ∈ g.rows, r.cls = c ∧ g.marks.accepts r = true := by
  have hmarked : g.Marked g.marks := h.marks_eq ▸ h.marked_sweeps _
  obtain ⟨r, hr, rfl, k, hle, hk, hranks⟩ := hmarked.row c mark hmark
  obtain ⟨t, ht, rfl⟩ := hmarked.exists_term hr hk
  obtain ⟨mark', hmark', hge⟩ := h.atMost_marks ht
  rw [(Classes.mem_roots.1 (h.cls_mem_roots hr)).2, hmark] at hmark'
  obtain rfl := Option.some.inj hmark'
  have heq : t.cost = mark.cost := Nat.le_antisymm hle hge
  exact ⟨r, hr, rfl, Marks.accepts_iff.2 ⟨mark, hmark, heq ▸ hk, hranks heq⟩⟩

/-- A row is entered into the table if it is accepted and its class has no entry. -/
theorem getD_enter {table : Array (Option Shape)} (m : Marks) (r : Row) (hc : c < table.size) :
    (if (table.getD r.cls none).isNone && m.accepts r then
        table.setIfInBounds r.cls (some r.shape)
      else table).getD c none =
      (table.getD c none).or (if r.cls = c ∧ m.accepts r = true then some r.shape else none) := by
  by_cases hcls : r.cls = c
  · subst hcls
    cases hentry : table.getD r.cls none with
    | none =>
        cases m.accepts r with
        | false => simpa using hentry
        | true => simp [Array.getD_eq_getD_getElem?, hc]
    | some s => simpa using hentry
  · have hno : ¬(r.cls = c ∧ m.accepts r = true) := fun h => hcls h.1
    rw [if_neg hno, Option.or_none]
    by_cases henter : (table.getD r.cls none).isNone && m.accepts r
    · rw [if_pos henter, Array.getD_eq_getD_getElem?, Array.getD_eq_getD_getElem?,
        Array.getElem?_setIfInBounds_ne hcls]
    · rw [if_neg henter]

/-- The table holds for each class the shape of the first row that is accepted. -/
theorem getD_chosen (g : EGraph) (m : Marks) (hc : c < g.classes.size) :
    (g.chosen m).getD c none =
      (g.orderedRows.find? fun r => r.cls = c ∧ m.accepts r = true).map (·.shape) := by
  have hfold : ∀ (rows : List Row) (table : Array (Option Shape)), c < table.size →
      (rows.foldl (fun table r =>
        if (table.getD r.cls none).isNone && m.accepts r then
          table.setIfInBounds r.cls (some r.shape)
        else table) table).getD c none =
        (table.getD c none).or
          ((rows.find? fun r => r.cls = c ∧ m.accepts r = true).map (·.shape)) := by
    intro rows
    induction rows with
    | nil => simp
    | cons r rows ih =>
        intro table htable
        have hsize : c < (if (table.getD r.cls none).isNone && m.accepts r then
            table.setIfInBounds r.cls (some r.shape) else table).size := by
          split
          · simpa using htable
          · exact htable
        rw [List.foldl_cons, ih _ hsize, getD_enter m r htable, List.find?_cons, Option.or_assoc]
        by_cases hr : r.cls = c ∧ m.accepts r = true
        · simp [hr]
        · simp [hr]
  rw [chosen, hfold _ _ (by simpa using hc), Array.getD_eq_getD_getElem?]
  simp [hc]

/-- Following the shape of a class down is following those of its children. -/
theorem follow_succ {table : Array (Option Shape)} {s : Shape} {n : Nat} {f : Nat → Term}
    (hs : table.getD c none = some s) (hf : ∀ i ∈ s.children, follow table n i = some (f i)) :
    follow table (n + 1) c = some (s.toTerm f) := by
  rw [follow, hs]
  cases s with
  | num | symbol | silent => rfl
  | arg i => simp [hf i (by simp [Shape.children]), Shape.toTerm]
  | bin op i j | print i j =>
      simp [hf i (by simp [Shape.children]), hf j (by simp [Shape.children]), Shape.toTerm]

/-- If every class that has a mark has an accepted shape in the table, a class is followed down to a
term of its cost. The ranks get lower on the way down. -/
theorem exists_follow {table : Array (Option Shape)} {n : Nat} {mark : Mark}
    (htable : ∀ c mark, m.get? c = some mark →
      ∃ s, table.getD c none = some s ∧ m.accepts ⟨s, c⟩ = true)
    (hmark : m.get? c = some mark) (hn : mark.rank < n) :
    ∃ t, follow table n c = some t ∧ t.cost = mark.cost := by
  induction n generalizing c mark with
  | zero => exact absurd hn (Nat.not_lt_zero _)
  | succ n ih =>
      obtain ⟨s, hs, haccepts⟩ := htable c mark hmark
      obtain ⟨mark', hmark', hcost, hranks⟩ := Marks.accepts_iff.1 haccepts
      obtain rfl : mark = mark' := Option.some.inj (hmark.symm.trans hmark')
      have hchild : ∀ i ∈ s.children, ∃ t, follow table n i = some t ∧ t.cost = m.costOf i := by
        intro i hi
        obtain ⟨mark', hmark', hlt⟩ := hranks i hi
        rw [Marks.costOf_eq hmark']
        exact ih hmark' (Nat.lt_of_lt_of_le hlt (Nat.le_of_lt_succ hn))
      obtain ⟨f, hf, hfcost⟩ :=
        Shape.exists_toTerm (P := fun i t => follow table n i = some t) hchild
      exact ⟨_, follow_succ hs hf, hfcost.trans (Marks.shapeCost?_eq_some.1 hcost).2.symm⟩

theorem Tidy.exists_chosen {mark : Mark} (h : g.Tidy) (hmark : g.marks.get? c = some mark) :
    ∃ s, (g.chosen g.marks).getD c none = some s ∧ g.marks.accepts ⟨s, c⟩ = true := by
  obtain ⟨r, hr, rfl, haccepts⟩ := h.exists_accepted hmark
  rw [getD_chosen g _ (h.models.fits r hr).cls_lt]
  cases hfind : g.orderedRows.find? fun r' => r'.cls = r.cls ∧ g.marks.accepts r' = true with
  | none =>
      have hnone := List.find?_eq_none.1 hfind r (h.mem_orderedRows.2 hr)
      simp [haccepts] at hnone
  | some r' =>
      have hfound := List.find?_some hfind
      simp only [decide_eq_true_eq] at hfound
      refine ⟨r'.shape, rfl, ?_⟩
      rw [← hfound.1]
      exact hfound.2

/-- **The term read off is a cheapest one of its class**, and its cost is the cost given. -/
theorem Tidy.extract_cheapest {t : Term} (h : g.Tidy) (ht : g.Represents t c) :
    ∃ u, g.extract? c = some (u, u.cost) ∧ ∀ t, g.Represents t c → u.cost ≤ t.cost := by
  obtain ⟨mark, hmark, -⟩ := h.atMost_marks ht
  have hmarked : g.Marked g.marks := h.marks_eq ▸ h.marked_sweeps _
  obtain ⟨u, hu, hcost⟩ :=
    exists_follow (fun _ _ hc => h.exists_chosen hc) hmark (hmarked.rank_lt _ _ hmark)
  refine ⟨u, ?_, fun t ht => ?_⟩
  · simp [extract?, hmark, hu, hcost]
  · obtain ⟨mark', hmark', hle⟩ := h.atMost_marks ht
    obtain rfl : mark = mark' := Option.some.inj (hmark.symm.trans hmark')
    exact hcost ▸ hle

end EGraph

end WhileLang
