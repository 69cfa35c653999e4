import Mathlib.Logic.Function.Basic
import WhileLang.EGraph.Rule

/-!
# Interpretations

The rows of a graph are statements about its classes. An interpretation gives them a meaning: it
says what a shape denotes once its classes have values. Numbers and lists of printed values are one
choice of values, the classes of another graph are a second one, and a single value that stands for
everything is a third.

* `Interpretation`: what shapes denote, and which values count.
* `Interpretation.Means`: what a term denotes; `Interpretation.Same`: two terms denote the same.
* `Row.Holds`: a row is true of given values of its classes; `Conclusion.Holds` likewise.
* `Conclusion.Follows`: the parts denote something and the conclusion holds.
* `Rule.Valid`: the conclusion follows from the premises.
* `Rule.Safe`: premises can be looked for, and all variables occur in them or in earlier parts.
-/

namespace WhileLang

/-- What shapes denote, once their classes have values. -/
structure Interpretation (V : Type) where
  /-- What a shape denotes, if it denotes anything. -/
  denote : (Nat → V) → Shape → Option V
  /-- The values that count. -/
  Good : V → Prop
  denote_map : ∀ μ f s, denote μ (s.map f) = denote (fun i => μ (f i)) s
  denote_congr : ∀ {μ μ' s}, (∀ i ∈ s.children, μ' i = μ i) → denote μ' s = denote μ s

variable {V : Type} {I : Interpretation V} {μ ν : Nat → V}

namespace Interpretation

/-- What a shape denotes depends on the values of its classes only. -/
theorem denote_map_eq {s : Shape} {f e : Nat → Nat} (h : ∀ x ∈ s.children, μ (f x) = ν (e x)) :
    I.denote μ (s.map f) = I.denote ν (s.map e) := by
  rw [I.denote_map, I.denote_map]
  exact I.denote_congr h

theorem denote_bin {op : BinOp} {a b i j : Nat} (ha : μ a = ν i) (hb : μ b = ν j) :
    I.denote μ (.bin op a b) = I.denote ν (.bin op i j) := by
  refine denote_map_eq (s := .bin op 0 1) (f := fun x => if x = 0 then a else b)
    (e := fun x => if x = 0 then i else j) ?_
  simp [Shape.children, ha, hb]

theorem denote_arg {a i : Nat} (ha : μ a = ν i) : I.denote μ (.arg a) = I.denote ν (.arg i) := by
  refine denote_map_eq (s := .arg 0) (f := fun _ => a) (e := fun _ => i) ?_
  simp [Shape.children, ha]

theorem denote_print {a b i j : Nat} (ha : μ a = ν i) (hb : μ b = ν j) :
    I.denote μ (.print a b) = I.denote ν (.print i j) := by
  refine denote_map_eq (s := .print 0 1) (f := fun x => if x = 0 then a else b)
    (e := fun x => if x = 0 then i else j) ?_
  simp [Shape.children, ha, hb]

/-- What a term denotes, if all its parts denote values that count. -/
inductive Means (I : Interpretation V) : Term → V → Prop where
  | num {n : Int} {μ : Nat → V} {m : V} (h : I.denote μ (.num n) = some m) (hm : I.Good m) :
      I.Means (.num n) m
  | symbol {s : String} {μ : Nat → V} {m : V} (h : I.denote μ (.symbol s) = some m)
      (hm : I.Good m) : I.Means (.symbol s) m
  | bin {op : BinOp} {l r : Term} {μ : Nat → V} {i j : Nat} {m : V} (hl : I.Means l (μ i))
      (hr : I.Means r (μ j)) (h : I.denote μ (.bin op i j) = some m) (hm : I.Good m) :
      I.Means (.bin op l r) m
  | arg {t : Term} {μ : Nat → V} {i : Nat} {m : V} (ht : I.Means t (μ i))
      (h : I.denote μ (.arg i) = some m) (hm : I.Good m) : I.Means (.arg t) m
  | silent {μ : Nat → V} {m : V} (h : I.denote μ .silent = some m) (hm : I.Good m) :
      I.Means .silent m
  | print {e v : Term} {μ : Nat → V} {i j : Nat} {m : V} (he : I.Means e (μ i))
      (hv : I.Means v (μ j)) (h : I.denote μ (.print i j) = some m) (hm : I.Good m) :
      I.Means (.print e v) m

theorem Means.good {t : Term} {m : V} (h : I.Means t m) : I.Good m := by
  cases h <;> assumption

/-- A term means one value at most. -/
theorem Means.unique {t : Term} {m m' : V} (h : I.Means t m) (h' : I.Means t m') : m = m' := by
  have hleaf : ∀ {s : Shape} {μ ν : Nat → V} {m m' : V}, s.children = [] →
      I.denote μ s = some m → I.denote ν s = some m' → m = m' := by
    intro s μ ν m m' hs hm hm'
    have hsame : I.denote ν s = I.denote μ s := I.denote_congr fun i hi => by simp [hs] at hi
    exact Option.some.inj (hm.symm.trans (hsame.symm.trans hm'))
  induction h generalizing m' with
  | num hm | symbol hm | silent hm =>
      cases h' with
      | _ hm' => exact hleaf rfl hm hm'
  | arg _ hm _ ih =>
      cases h' with
      | arg ht' hm' =>
          rw [I.denote_arg (ih ht')] at hm
          exact Option.some.inj (hm.symm.trans hm')
  | bin _ _ hm _ ihl ihr =>
      cases h' with
      | bin hl' hr' hm' =>
          rw [I.denote_bin (ihl hl') (ihr hr')] at hm
          exact Option.some.inj (hm.symm.trans hm')
  | print _ _ hm _ ihe ihv =>
      cases h' with
      | print he' hv' hm' =>
          rw [I.denote_print (ihe he') (ihv hv')] at hm
          exact Option.some.inj (hm.symm.trans hm')

/-- By an interpretation, two terms mean the same. -/
def Same (I : Interpretation V) (t u : Term) : Prop :=
  ∃ m, I.Means t m ∧ I.Means u m

end Interpretation

/-- A row is true of given values: its shape denotes the value of its class. -/
def Row.Holds (I : Interpretation V) (μ : Nat → V) (r : Row) : Prop :=
  I.denote μ r.shape = some (μ r.cls)

theorem Row.holds_map {f : Nat → Nat} {r : Row} :
    (r.map f).Holds I μ ↔ r.Holds I fun i => μ (f i) := by
  unfold Holds Row.map
  rw [I.denote_map]

namespace Conclusion

/-- What follows is true of given values. -/
def Holds (I : Interpretation V) (v : Nat → V) : Conclusion → Prop
  | row r => r.Holds I v
  | equal x y => v x = v y

/-- The parts denote values that count one after the other, and what follows is true once the
variable of each part has the value that the part denotes. -/
def Follows (I : Interpretation V) (c : Conclusion) : List Row → (Nat → V) → Prop
  | [], v => c.Holds I v
  | p :: ps, v =>
    ∃ m, I.denote v p.shape = some m ∧ I.Good m ∧ c.Follows I ps (Function.update v p.cls m)

end Conclusion

/-- A rule is valid if there are premises to be met and what follows is true whenever they are. -/
structure Rule.Valid (I : Interpretation V) (r : Rule) : Prop where
  premises_ne_nil : r.premises ≠ []
  follows : ∀ v : Nat → V, (∀ x, I.Good (v x)) → (∀ p ∈ r.premises, p.Holds I v) →
    r.conclusion.Follows I r.parts v

/-! ## Safe rules -/

/-- The variables of a row. -/
def Row.vars (r : Row) : List Nat :=
  r.cls :: r.shape.children

/-- Whether a row is a premise that can be looked for: a number or an operator. -/
def Row.isPattern (r : Row) : Bool :=
  match r.shape with
  | .num _ | .bin _ _ _ => true
  | _ => false

namespace Conclusion

/-- The variables of what follows. -/
def vars : Conclusion → List Nat
  | row r => r.vars
  | equal x y => [x, y]

/-- Whether the variables of parts and of what follows are given ones, or those of earlier parts. -/
def isBound (c : Conclusion) : List Row → List Nat → Bool
  | [], xs => c.vars.all (· ∈ xs)
  | p :: ps, xs => p.shape.children.all (· ∈ xs) && c.isBound ps (p.cls :: xs)

theorem Holds.congr {c : Conclusion} {v w : Nat → V} (h : c.Holds I v)
    (hw : ∀ x ∈ c.vars, w x = v x) : c.Holds I w := by
  cases c with
  | row r =>
      obtain ⟨hcls, hchildren⟩ := List.forall_mem_cons.1 hw
      show I.denote w r.shape = some (w r.cls)
      rw [I.denote_congr hchildren, hcls]
      exact h
  | equal x y =>
      show w x = w y
      rw [hw x (by simp [vars]), hw y (by simp [vars])]
      exact h

/-- Only the values of the given variables matter. -/
theorem Follows.congr {c : Conclusion} {parts : List Row} {xs : List Nat} {v w : Nat → V}
    (hbound : c.isBound parts xs = true) (hw : ∀ x ∈ xs, w x = v x) (h : c.Follows I parts v) :
    c.Follows I parts w := by
  induction parts generalizing xs v w with
  | nil =>
      refine Holds.congr h fun x hx => hw x ?_
      simpa using List.all_eq_true.1 hbound x hx
  | cons p parts ih =>
      obtain ⟨hp, hrest⟩ := Bool.and_eq_true_iff.1 hbound
      obtain ⟨m, hm, hgood, hfollows⟩ := h
      have hchildren : ∀ x ∈ p.shape.children, w x = v x := by
        intro x hx
        exact hw x (by simpa using List.all_eq_true.1 hp x hx)
      refine ⟨m, (I.denote_congr hchildren).trans hm, hgood, ih hrest ?_ hfollows⟩
      intro x hx
      by_cases hxp : x = p.cls
      · rw [hxp, Function.update_self, Function.update_self]
      · rw [Function.update_of_ne hxp, Function.update_of_ne hxp]
        exact hw x ((List.mem_cons.1 hx).resolve_left hxp)

end Conclusion

/-- A rule is safe if there are premises, they can be looked for, and the variables of parts and of
what follows occur in premises or are those of earlier parts. -/
structure Rule.Safe (r : Rule) : Prop where
  premises_ne_nil : r.premises ≠ []
  patterns : ∀ p ∈ r.premises, p.isPattern = true
  bound : r.conclusion.isBound r.parts (r.premises.flatMap Row.vars) = true

instance (r : Rule) : Decidable r.Safe :=
  decidable_of_iff (r.premises ≠ [] ∧ (∀ p ∈ r.premises, p.isPattern = true) ∧
      r.conclusion.isBound r.parts (r.premises.flatMap Row.vars) = true)
    ⟨fun h => ⟨h.1, h.2.1, h.2.2⟩, fun h => ⟨h.1, h.2, h.3⟩⟩

theorem arithmeticRules_safe : ∀ r ∈ arithmeticRules, r.Safe := by
  decide

theorem arithmeticRules_premises : ∀ r ∈ arithmeticRules, r.premises ≠ [] := by
  intro r hr
  exact (arithmeticRules_safe r hr).premises_ne_nil

end WhileLang
