import Mathlib.Data.Finset.Card
import Mathlib.Logic.Relation
import WhileLang.Proofs.Sharing

/-!
# The shared form of a term has no node too many

Every node of the shared form unfolds to a subterm, and every subterm has a node. It has one only:
two nodes that unfold to the same term would have the same constructor, the same label and, going
down the term, the same children, and no node occurs twice. So nodes and distinct subterms are in
one-to-one correspondence, and all nodes can be reached from the root.

* `Node.IsLabelled`: numbers and symbols have a label of their kind, and other nodes have none.
* `Compact`: no node occurs twice, and all are labelled; `Compact.flattenInto`: the nodes of a term
  keep a list compact.
* `Compact.index_unique`: in a compact list, one position at most unfolds to a term.
* `Refers`: a position refers to another; `Unfolds.reaches_subterm`: from a position that unfolds to
  a term, one can get to each of its subterms.
* `Flattening.run_visit`: with a stack, the nodes of a term are added as by recursion;
  `Term.flattenWithStack_eq`: the shared form is the same.
* `Term.flatten_maximally_shared`: the shared form is lossless and has one node for each subterm.
-/

namespace WhileLang

/-! ## Compact node lists -/

/-- Whether a node is labelled as its constructor demands: a number by an integer, a symbol by a
text, and any other node not at all. -/
def Node.IsLabelled (n : Node) : Prop :=
  match n.kind, n.label with
  | .num, some (.int _) => True
  | .symbol, some (.text _) => True
  | .num, _ => False
  | .symbol, _ => False
  | _, label => label = none

/-- No node occurs twice, and all are labelled. -/
structure Compact (nodes : List Node) : Prop where
  nodup : nodes.Nodup
  labelled : ∀ n ∈ nodes, n.IsLabelled

namespace Compact

variable {nodes : List Node} {n : Node} {i j : Nat} {t : Term}

theorem nil : Compact [] :=
  ⟨List.nodup_nil, fun n hn => by cases hn⟩

/-- A node is added only if it is not there. -/
theorem internNode (h : Compact nodes) (hn : n.IsLabelled) :
    Compact (internNode nodes n).1 := by
  rcases internNode_cases nodes n with ⟨i, heq, -⟩ | ⟨heq, hnew⟩
  · rw [heq]
    exact h
  · rw [heq]
    refine ⟨?_, ?_⟩
    · exact h.nodup.append (List.nodup_singleton n) (by simpa using hnew)
    · intro n' hn'
      rcases List.mem_append.1 hn' with hn' | hn'
      · exact h.labelled n' hn'
      · rw [List.mem_singleton.1 hn']
        exact hn

theorem flattenInto (h : Compact nodes) (t : Term) : Compact (t.flattenInto nodes).1 := by
  induction t generalizing nodes with
  | num n => exact h.internNode trivial
  | symbol s => exact h.internNode trivial
  | silent => exact h.internNode rfl
  | arg i ih => exact (ih h).internNode rfl
  | bin op l r ihl ihr => exact (ihr (ihl h)).internNode rfl
  | print e v ihe ihv => exact (ihv (ihe h)).internNode rfl

theorem isLabelled (h : Compact nodes) (hn : nodes[i]? = some n) : n.IsLabelled :=
  h.labelled n (List.mem_of_getElem? hn)

theorem eq_of_getElem? (h : Compact nodes) (hi : nodes[i]? = some n) (hj : nodes[j]? = some n) :
    i = j :=
  (List.getElem?_inj (List.getElem?_eq_some_iff.1 hi).1 h.nodup).1 (hi.trans hj.symm)

/-- The label of a node that unfolds to a number is this number. -/
theorem label_num {label : Option Label} {v : Int} (h : Compact nodes)
    (hn : nodes[i]? = some ⟨.num, label, []⟩) (hv : Label.number label = .ok v) :
    label = some (.int v) := by
  have hl := h.isLabelled hn
  cases label with
  | none => cases hl
  | some l =>
      cases l with
      | int w => rw [Except.ok.inj hv]
      | text s => cases hl

theorem label_symbol {label : Option Label} (h : Compact nodes)
    (hn : nodes[i]? = some ⟨.symbol, label, []⟩) : label = some (.text (Label.name label)) := by
  have hl := h.isLabelled hn
  cases label with
  | none => cases hl
  | some l =>
      cases l with
      | int w => cases hl
      | text s => rfl

/-- A node that is neither a number nor a symbol is determined by its constructor and its
children. -/
theorem eq_of_unlabelled {kind : Kind} {label label' : Option Label} {children : List Int}
    (h : Compact nodes) (hk : kind ≠ .num ∧ kind ≠ .symbol)
    (hi : nodes[i]? = some ⟨kind, label, children⟩)
    (hj : nodes[j]? = some ⟨kind, label', children⟩) : i = j := by
  have hnone : ∀ l : Option Label, Node.IsLabelled ⟨kind, l, children⟩ → l = none := by
    intro l hl
    cases kind with
    | num => exact absurd rfl hk.1
    | symbol => exact absurd rfl hk.2
    | bin op => exact hl
    | arg => exact hl
    | silent => exact hl
    | print => exact hl
  rw [hnone label (h.isLabelled hi)] at hi
  rw [hnone label' (h.isLabelled hj)] at hj
  exact h.eq_of_getElem? hi hj

/-- **One position at most unfolds to a term.** -/
theorem index_unique (h : Compact nodes) (hi : Unfolds nodes i t) (hj : Unfolds nodes j t) :
    i = j := by
  induction hi generalizing j with
  | num hn hv =>
      cases hj with
      | num hn' hv' =>
          rw [h.label_num hn hv] at hn
          rw [h.label_num hn' hv'] at hn'
          exact h.eq_of_getElem? hn hn'
  | @symbol i label hn =>
      generalize hs : Label.name label = s at hj
      cases hj with
      | symbol hn' =>
          rw [h.label_symbol hn, hs] at hn
          rw [h.label_symbol hn'] at hn'
          exact h.eq_of_getElem? hn hn'
  | silent hn =>
      cases hj with
      | silent hn' => exact h.eq_of_unlabelled (by simp) hn hn'
  | arg hn _ _ ih =>
      cases hj with
      | arg hn' _ ht =>
          rw [ih ht] at hn
          exact h.eq_of_unlabelled (by simp) hn hn'
  | bin hn _ _ _ _ ihl ihr =>
      cases hj with
      | bin hn' _ _ hl hr =>
          rw [ihl hl, ihr hr] at hn
          exact h.eq_of_unlabelled (by simp) hn hn'
  | print hn _ _ _ _ ihe ihv =>
      cases hj with
      | print hn' _ _ he hv =>
          rw [ihe he, ihv hv] at hn
          exact h.eq_of_unlabelled (by simp) hn hn'

end Compact

/-! ## Getting from node to node -/

/-- The node at a position refers to another position. -/
def Refers (nodes : List Node) (i j : Nat) : Prop :=
  ∃ node, nodes[i]? = some node ∧ (j : Int) ∈ node.children

/-- From a position that unfolds to a term, references lead to a position for each subterm. -/
theorem Unfolds.reaches_subterm {nodes : List Node} {i : Nat} {t u : Term} (h : Unfolds nodes i t)
    (hu : u ∈ t.subterms) : ∃ j, Relation.ReflTransGen (Refers nodes) i j ∧ Unfolds nodes j u := by
  induction h with
  | num hn hv =>
      rw [List.mem_singleton.1 hu]
      exact ⟨_, .refl, .num hn hv⟩
  | symbol hn =>
      rw [List.mem_singleton.1 hu]
      exact ⟨_, .refl, .symbol hn⟩
  | silent hn =>
      rw [List.mem_singleton.1 hu]
      exact ⟨_, .refl, .silent hn⟩
  | arg hn hj ht ih =>
      rcases List.mem_cons.1 hu with rfl | hu
      · exact ⟨_, .refl, .arg hn hj ht⟩
      · obtain ⟨m, hm, hum⟩ := ih hu
        exact ⟨m, hm.head ⟨_, hn, by simp⟩, hum⟩
  | bin hn hj hk hl hr ihl ihr =>
      rcases List.mem_cons.1 hu with rfl | hu
      · exact ⟨_, .refl, .bin hn hj hk hl hr⟩
      · rcases List.mem_append.1 hu with hu | hu
        · obtain ⟨m, hm, hum⟩ := ihl hu
          exact ⟨m, hm.head ⟨_, hn, by simp⟩, hum⟩
        · obtain ⟨m, hm, hum⟩ := ihr hu
          exact ⟨m, hm.head ⟨_, hn, by simp⟩, hum⟩
  | print hn hj hk he hv ihe ihv =>
      rcases List.mem_cons.1 hu with rfl | hu
      · exact ⟨_, .refl, .print hn hj hk he hv⟩
      · rcases List.mem_append.1 hu with hu | hu
        · obtain ⟨m, hm, hum⟩ := ihe hu
          exact ⟨m, hm.head ⟨_, hn, by simp⟩, hum⟩
        · obtain ⟨m, hm, hum⟩ := ihv hu
          exact ⟨m, hm.head ⟨_, hn, by simp⟩, hum⟩

/-! ## Sharing with a stack -/

namespace Flattening

/-- A round more at the beginning makes no difference. -/
theorem run_step (f : Flattening) : f.step.run = f.run := by
  by_cases h : f.tasks = []
  · have hstep : f.step = f := by simp only [step, h]
    rw [hstep]
  · conv => rhs; rw [run, if_neg h]

/-- **One round** at a node whose children are the last results. -/
theorem step_build (nodes : List Node) (results children : List Int) (kind : Kind)
    (rest : List Task) :
    step ⟨nodes, results ++ children, .build kind children.length :: rest⟩ =
      intern ⟨nodes, results, rest⟩ { kind, children } := by
  simp [step]

/-- **All rounds for a term** add its nodes, and leave the position of its root as the last
result. -/
theorem run_visit (t : Term) (nodes : List Node) (results : List Int) (rest : List Task) :
    run ⟨nodes, results, .visit t :: rest⟩ =
      run ⟨(t.flattenInto nodes).1, results ++ [((t.flattenInto nodes).2 : Int)], rest⟩ := by
  induction t generalizing nodes results rest with
  | num | symbol =>
      rw [← run_step]
      rfl
  | silent =>
      rw [← run_step, ← run_step]
      have hbuild := step_build nodes results [] .silent rest
      rw [List.append_nil] at hbuild
      exact congrArg run hbuild
  | arg i ih =>
      rw [← run_step]
      refine (ih nodes results _).trans ?_
      rw [← run_step]
      exact congrArg run (step_build _ results [_] .arg rest)
  | bin op l r ihl ihr | print l r ihl ihr =>
      rw [← run_step]
      refine (ihl nodes results _).trans ((ihr _ _ _).trans ?_)
      rw [← run_step, List.append_assoc]
      exact congrArg run (step_build _ results [_, _] _ rest)

end Flattening

/-- The shared form that is made with a stack is the one by recursion. -/
theorem Term.flattenWithStack_eq (t : Term) : t.flattenWithStack = t.flatten := by
  rw [flattenWithStack, Flattening.run_visit, Flattening.run, if_pos rfl]
  rfl

/-! ## Shared forms -/

namespace Term

theorem flatten_compact (t : Term) : Compact t.flatten :=
  Compact.nil.flattenInto t

/-- Children stand before their parent in the shared form of a term. -/
theorem child_lt_of_flatten {t : Term} {i : Nat} {node : Node} (h : t.flatten[i]? = some node)
    {c : Int} (hc : c ∈ node.children) : ∃ j : Nat, c = j ∧ j < i := by
  obtain ⟨u, hu⟩ := t.flatten_wellFormed i (List.getElem?_eq_some_iff.1 h).1
  exact hu.child_lt h hc

/-- The shared form of a term has as many nodes as the term has distinct subterms. -/
theorem length_flatten (t : Term) : t.flatten.length = t.subterms.toFinset.card := by
  choose f hf using t.flatten_wellFormed
  rw [← Finset.card_range t.flatten.length]
  refine Finset.card_bij (fun i hi => f i (Finset.mem_range.1 hi)) ?_ ?_ ?_
  · intro i hi
    exact List.mem_toFinset.2 (mem_subterms_of_unfolds (hf i _))
  · intro i hi j hj heq
    have hfj := hf j (Finset.mem_range.1 hj)
    rw [← heq] at hfj
    exact t.flatten_compact.index_unique (hf i _) hfj
  · intro u hu
    obtain ⟨j, -, hj⟩ := t.flatten_unfolds.reaches_subterm (List.mem_toFinset.1 hu)
    exact ⟨j, Finset.mem_range.2 hj.lt, (hf j hj.lt).unique hj⟩

/-- All nodes of the shared form of a term can be reached from its root. -/
theorem flatten_reaches (t : Term) {i : Nat} (hi : i < t.flatten.length) :
    Relation.ReflTransGen (Refers t.flatten) (t.flatten.length - 1) i := by
  obtain ⟨u, hu⟩ := t.flatten_wellFormed i hi
  obtain ⟨j, hreach, hj⟩ := t.flatten_unfolds.reaches_subterm (mem_subterms_of_unfolds hu)
  rw [t.flatten_compact.index_unique hu hj]
  exact hreach

/-- **The shared form of a term is lossless and maximally shared.** Made with a stack or by
recursion, it is the same. Children stand before their parents, no node occurs twice, and there are
as many nodes as the term has distinct subterms. All nodes can be reached from the last one, to
which none refers and which unfolds to the term and to nothing else. -/
theorem flatten_maximally_shared (t : Term) :
    t.flattenWithStack = t.flatten ∧
    (∀ (i : Nat) (node : Node), t.flatten[i]? = some node →
      ∀ c ∈ node.children, 0 ≤ c ∧ c < i) ∧
    t.flatten.Nodup ∧
    t.flatten.length = t.subterms.toFinset.card ∧
    (∀ i < t.flatten.length,
      Relation.ReflTransGen (Refers t.flatten) (t.flatten.length - 1) i) ∧
    (∀ i, ¬ Refers t.flatten i (t.flatten.length - 1)) ∧
    ∀ u, Unfolds t.flatten (t.flatten.length - 1) u ↔ u = t := by
  refine ⟨t.flattenWithStack_eq, ?_, t.flatten_compact.nodup, t.length_flatten,
    fun i hi => t.flatten_reaches hi, ?_, ?_⟩
  · intro i node hn c hc
    obtain ⟨j, rfl, hj⟩ := child_lt_of_flatten hn hc
    omega
  · rintro i ⟨node, hn, hc⟩
    have hi := (List.getElem?_eq_some_iff.1 hn).1
    obtain ⟨j, heq, hj⟩ := child_lt_of_flatten hn hc
    omega
  · intro u
    constructor
    · intro hu
      exact hu.unique t.flatten_unfolds
    · rintro rfl
      exact u.flatten_unfolds

/-- The square of a double is four nodes, though its tree has eleven. -/
example :
    let double : Term := .bin .add (.arg (.num 0)) (.arg (.num 0))
    (bin .mul double double).flatten.length = 4 := by
  decide

end Term

end WhileLang
