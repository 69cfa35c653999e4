import WhileLang.EGraph.Engine
import WhileLang.Proofs.GraphModel

/-!
# Represented terms

A class of a graph stands for many terms: a term is represented in it if a row of the class has its
constructor and the classes of the row represent its parts. By whatever values a graph is true, a
represented term means the value of its class. What is read off a class is represented in it.

* `EGraph.Represents`: a term is represented in a class; `EGraph.SameClass`: two terms are in the
  same.
* `Satisfies.means_of_represents`: it means the value of the class.
* `EGraph.represents_of_follow`, `EGraph.represents_of_extract`: the terms that are read off are
  represented.
-/

namespace WhileLang

/-! ## Represented terms -/

/-- A term is represented in a class: a row of its constructor belongs to the class, or to one
that has the same representative, and its parts are represented in the classes of the row. -/
inductive EGraph.Represents (g : EGraph) : Term → Nat → Prop where
  | num {n : Int} {k c : Nat} (h : ⟨.num n, k⟩ ∈ g.rows)
      (hc : g.classes.find k = g.classes.find c) : g.Represents (.num n) c
  | symbol {s : String} {k c : Nat} (h : ⟨.symbol s, k⟩ ∈ g.rows)
      (hc : g.classes.find k = g.classes.find c) : g.Represents (.symbol s) c
  | bin {op : BinOp} {i j k c : Nat} {l r : Term} (h : ⟨.bin op i j, k⟩ ∈ g.rows)
      (hc : g.classes.find k = g.classes.find c) (hl : g.Represents l i)
      (hr : g.Represents r j) : g.Represents (.bin op l r) c
  | arg {i k c : Nat} {t : Term} (h : ⟨.arg i, k⟩ ∈ g.rows)
      (hc : g.classes.find k = g.classes.find c) (ht : g.Represents t i) :
      g.Represents (.arg t) c
  | silent {k c : Nat} (h : ⟨.silent, k⟩ ∈ g.rows)
      (hc : g.classes.find k = g.classes.find c) : g.Represents .silent c
  | print {i j k c : Nat} {e v : Term} (h : ⟨.print i j, k⟩ ∈ g.rows)
      (hc : g.classes.find k = g.classes.find c) (he : g.Represents e i)
      (hv : g.Represents v j) : g.Represents (.print e v) c

section

variable {V : Type} {I : Interpretation V} {μ : Nat → V} {g : EGraph} {t root : Term} {c c' : Nat}

theorem Satisfies.eq_of_find_eq {rows : List Row} {classes : Classes} {k c : Nat}
    (h : Satisfies I μ classes rows) (hc : classes.find k = classes.find c) : μ k = μ c := by
  rw [← h.rep k, hc, h.rep]

/-- If what a graph says is true, a represented term means the value of its class. -/
theorem Satisfies.means_of_represents (h : Satisfies I μ g.classes g.rows)
    (ht : g.Represents t c) : I.Means t (μ c) := by
  induction ht with
  | num hr hc =>
      rw [← h.eq_of_find_eq hc]
      exact .num (h.holds _ hr) (h.good _)
  | symbol hr hc =>
      rw [← h.eq_of_find_eq hc]
      exact .symbol (h.holds _ hr) (h.good _)
  | silent hr hc =>
      rw [← h.eq_of_find_eq hc]
      exact .silent (h.holds _ hr) (h.good _)
  | bin hr hc _ _ ihl ihr =>
      rw [← h.eq_of_find_eq hc]
      exact .bin ihl ihr (h.holds _ hr) (h.good _)
  | arg hr hc _ ih =>
      rw [← h.eq_of_find_eq hc]
      exact .arg ih (h.holds _ hr) (h.good _)
  | print hr hc _ _ ihe ihv =>
      rw [← h.eq_of_find_eq hc]
      exact .print ihe ihv (h.holds _ hr) (h.good _)

namespace EGraph

theorem Represents.of_find_eq (h : g.Represents t c)
    (hc : g.classes.find c = g.classes.find c') : g.Represents t c' := by
  cases h with
  | num h hk => exact .num h (hk.trans hc)
  | symbol h hk => exact .symbol h (hk.trans hc)
  | silent h hk => exact .silent h (hk.trans hc)
  | arg h hk ht => exact .arg h (hk.trans hc) ht
  | bin h hk hl hr => exact .bin h (hk.trans hc) hl hr
  | print h hk he hv => exact .print h (hk.trans hc) he hv

/-- Two terms are in one class. -/
def SameClass (g : EGraph) (t u : Term) : Prop :=
  ∃ c, g.Represents t c ∧ g.Represents u c

/-! ## Reading off -/

theorem mem_rows_of_mem_orderedRows {r : Row} (h : r ∈ g.orderedRows) : r ∈ g.rows := by
  obtain ⟨k, -, hr⟩ := List.mem_flatMap.1 h
  exact (List.mem_filter.1 hr).1

/-- All entries of a table of shapes by class are rows. -/
def Tabulates (g : EGraph) (table : Array (Option Shape)) : Prop :=
  ∀ c s, table.getD c none = some s → ⟨s, c⟩ ∈ g.rows

theorem Tabulates.set {table : Array (Option Shape)} {r : Row} (h : g.Tabulates table)
    (hr : r ∈ g.rows) : g.Tabulates (table.setIfInBounds r.cls (some r.shape)) := by
  intro c s hs
  rw [Array.getD_eq_getD_getElem?, Array.getElem?_setIfInBounds] at hs
  split at hs
  · next hc =>
      subst hc
      split at hs
      · obtain rfl : r.shape = s := Option.some.inj hs
        exact hr
      · cases hs
  · rw [← Array.getD_eq_getD_getElem?] at hs
    exact h c s hs

/-- The shape that a class is followed down by is one of its rows. -/
theorem tabulates_chosen (m : Marks) : g.Tabulates (g.chosen m) := by
  refine List.foldlRecOn g.orderedRows _ ?_ ?_
  · intro c s hs
    rw [Array.getD_eq_getD_getElem?, Array.getElem?_replicate] at hs
    split at hs <;> cases hs
  · intro table htable r hr
    split
    · exact htable.set (mem_rows_of_mem_orderedRows hr)
    · exact htable

/-- Following rows down gives a represented term. -/
theorem represents_of_follow {table : Array (Option Shape)} (htable : g.Tabulates table) {n : Nat}
    (h : follow table n c = some t) : g.Represents t c := by
  induction n generalizing c t with
  | zero => cases h
  | succ n ih =>
      unfold follow at h
      split at h
      · cases h
      · next v hs =>
          obtain rfl := Option.some.inj h
          exact .num (htable _ _ hs) rfl
      · next s hs =>
          obtain rfl := Option.some.inj h
          exact .symbol (htable _ _ hs) rfl
      · next op i j hs =>
          obtain ⟨l, hl, h⟩ := Option.bind_eq_some_iff.1 h
          obtain ⟨r, hr, h⟩ := Option.bind_eq_some_iff.1 h
          obtain rfl := Option.some.inj h
          exact .bin (htable _ _ hs) rfl (ih hl) (ih hr)
      · next i hs =>
          obtain ⟨a, ha, h⟩ := Option.bind_eq_some_iff.1 h
          obtain rfl := Option.some.inj h
          exact .arg (htable _ _ hs) rfl (ih ha)
      · next hs =>
          obtain rfl := Option.some.inj h
          exact .silent (htable _ _ hs) rfl
      · next i j hs =>
          obtain ⟨e, he, h⟩ := Option.bind_eq_some_iff.1 h
          obtain ⟨v, hv, h⟩ := Option.bind_eq_some_iff.1 h
          obtain rfl := Option.some.inj h
          exact .print (htable _ _ hs) rfl (ih he) (ih hv)

/-- The term that is read off a class is represented in what stands for the class. -/
theorem represents_of_extract {cost : Nat} (h : g.extract? c = some (t, cost)) :
    g.Represents t (g.classes.find c) := by
  obtain ⟨mark, -, h⟩ := Option.bind_eq_some_iff.1 h
  obtain ⟨t', ht', h⟩ := Option.bind_eq_some_iff.1 h
  obtain ⟨rfl, -⟩ := Prod.mk.inj (Option.some.inj h)
  exact represents_of_follow (tabulates_chosen _) ht'

/-- A term is read off for a root whose numbers are words. -/
theorem readOff_ne_none (hw : root.inWords = true) (g : EGraph) :
    (Engine.readOff g root).2 ≠ none := by
  show (g.readOff root).2 ≠ none
  simp [readOff, addTerm, hw]

end EGraph

end

end WhileLang
