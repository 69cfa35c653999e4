import Mathlib.Tactic.Common
import WhileLang.EGraph.Extract
import WhileLang.Term.Node

/-!
# Node lists and the terms they unfold to

A position of a node list unfolds to a term if the node there is made of its constructor, and the
positions it refers to stand before it and unfold to the parts. A position unfolds to one term at
most, and equal nodes unfold to equal terms, which is why sharing loses nothing: the shared form
of a term has a node for each subterm, and its last node unfolds to the whole.

* `Term.subterms`: the subterms of a term, itself included; `Term.isValue`: no effect is among them.
* `Unfolds`: a position of a node list unfolds to a term.
* `WellFormed`: all positions of a node list unfold.
* `Term.flattenInto_spec`: what adding the nodes of a term does.
* `Term.flatten_unfolds`, `Term.flatten_wellFormed`: the last node of the shared form unfolds to
  the term, and every node to a subterm.
-/

namespace WhileLang

/-! ## Subterms -/

/-- The subterms of a term, itself included. -/
def Term.subterms : Term → List Term
  | num n => [num n]
  | symbol s => [symbol s]
  | bin op l r => bin op l r :: (l.subterms ++ r.subterms)
  | arg i => arg i :: i.subterms
  | silent => [silent]
  | print e v => print e v :: (e.subterms ++ v.subterms)

theorem Term.self_mem_subterms (t : Term) : t ∈ t.subterms := by
  cases t <;> exact List.mem_cons_self

/-- What passes from a term to its parts holds of all its subterms. -/
theorem Term.of_mem_subterms {P : Term → Prop} (harg : ∀ {i : Term}, P (arg i) → P i)
    (hbin : ∀ {op : BinOp} {l r : Term}, P (bin op l r) → P l ∧ P r)
    (hprint : ∀ {e v : Term}, P (print e v) → P e ∧ P v) {t u : Term} (h : P t)
    (hu : u ∈ t.subterms) : P u := by
  induction t with
  | num | symbol | silent =>
      rw [List.mem_singleton.1 hu]
      exact h
  | arg i ih =>
      rcases List.mem_cons.1 hu with rfl | hu
      · exact h
      · exact ih (harg h) hu
  | bin op l r ihl ihr =>
      rcases List.mem_cons.1 hu with rfl | hu
      · exact h
      · rcases List.mem_append.1 hu with hu | hu
        · exact ihl (hbin h).1 hu
        · exact ihr (hbin h).2 hu
  | print e v ihe ihv =>
      rcases List.mem_cons.1 hu with rfl | hu
      · exact h
      · rcases List.mem_append.1 hu with hu | hu
        · exact ihe (hprint h).1 hu
        · exact ihv (hprint h).2 hu

/-- Whether no effect occurs in a term. -/
def Term.isValue : Term → Bool
  | num _ | symbol _ => true
  | bin _ l r => l.isValue && r.isValue
  | arg i => i.isValue
  | silent | print _ _ => false

theorem Term.isValue_of_mem_subterms {t u : Term} (h : t.isValue = true) (hu : u ∈ t.subterms) :
    u.isValue = true := by
  refine of_mem_subterms (P := fun u => u.isValue = true) ?_ ?_ ?_ h hu
  · exact fun h => h
  · exact fun h => Bool.and_eq_true_iff.1 h
  · intro e v h
    cases h

theorem Term.cost_le_of_mem_subterms {t u : Term} (h : u ∈ t.subterms) : u.cost ≤ t.cost := by
  refine of_mem_subterms (P := fun u => u.cost ≤ t.cost) ?_ ?_ ?_ (Nat.le_refl _) h
  all_goals
    intros
    simp only [cost] at *
    omega

/-! ## Unfolding -/

/-- A position of a node list unfolds to a term. -/
inductive Unfolds (nodes : List Node) : Nat → Term → Prop where
  | num {i : Nat} {label : Option Label} {n : Int} (h : nodes[i]? = some ⟨.num, label, []⟩)
      (hn : Label.number label = .ok n) : Unfolds nodes i (.num n)
  | symbol {i : Nat} {label : Option Label} (h : nodes[i]? = some ⟨.symbol, label, []⟩) :
      Unfolds nodes i (.symbol (Label.name label))
  | bin {i j k : Nat} {op : BinOp} {label : Option Label} {l r : Term}
      (h : nodes[i]? = some ⟨.bin op, label, [(j : Int), (k : Int)]⟩) (hj : j < i) (hk : k < i)
      (hl : Unfolds nodes j l) (hr : Unfolds nodes k r) : Unfolds nodes i (.bin op l r)
  | arg {i j : Nat} {label : Option Label} {t : Term}
      (h : nodes[i]? = some ⟨.arg, label, [(j : Int)]⟩) (hj : j < i) (ht : Unfolds nodes j t) :
      Unfolds nodes i (.arg t)
  | silent {i : Nat} {label : Option Label} (h : nodes[i]? = some ⟨.silent, label, []⟩) :
      Unfolds nodes i .silent
  | print {i j k : Nat} {label : Option Label} {e v : Term}
      (h : nodes[i]? = some ⟨.print, label, [(j : Int), (k : Int)]⟩) (hj : j < i) (hk : k < i)
      (he : Unfolds nodes j e) (hv : Unfolds nodes k v) : Unfolds nodes i (.print e v)

/-- All positions of a node list unfold. -/
def WellFormed (nodes : List Node) : Prop :=
  ∀ i, i < nodes.length → ∃ t, Unfolds nodes i t

theorem wellFormed_nil : WellFormed [] := by
  intro i hi
  cases hi

namespace Unfolds

variable {nodes more : List Node} {i j : Nat} {t u : Term}

theorem lt (h : Unfolds nodes i t) : i < nodes.length := by
  cases h <;> exact (List.getElem?_eq_some_iff.1 ‹_›).1

/-- Children stand before their parent. -/
theorem child_lt (h : Unfolds nodes i t) {node : Node} (hn : nodes[i]? = some node) {c : Int}
    (hc : c ∈ node.children) : ∃ j : Nat, c = j ∧ j < i := by
  cases h with
  | num h _ | symbol h | silent h =>
      obtain rfl := Option.some.inj (hn.symm.trans h)
      cases hc
  | arg h hj _ =>
      obtain rfl := Option.some.inj (hn.symm.trans h)
      exact ⟨_, List.mem_singleton.1 hc, hj⟩
  | bin h hj hk _ _ | print h hj hk _ _ =>
      obtain rfl := Option.some.inj (hn.symm.trans h)
      rcases List.mem_cons.1 hc with rfl | hc
      · exact ⟨_, rfl, hj⟩
      · exact ⟨_, List.mem_singleton.1 hc, hk⟩

/-- The node of a value is no effect. -/
theorem kind_of_isValue (h : Unfolds nodes i t) (ht : t.isValue = true) {node : Node}
    (hn : nodes[i]? = some node) : node.kind ≠ .silent ∧ node.kind ≠ .print := by
  cases h with
  | silent _ | print _ _ _ _ _ => cases ht
  | num h _ | symbol h | arg h _ _ | bin h _ _ _ _ =>
      obtain rfl := Option.some.inj (hn.symm.trans h)
      simp

/-- Only the nodes up to a position matter for what it unfolds to. -/
theorem congr (h : Unfolds nodes i t) (hn : ∀ j, j ≤ i → more[j]? = nodes[j]?) :
    Unfolds more i t := by
  induction h with
  | num h hn' => exact .num ((hn _ (Nat.le_refl _)).trans h) hn'
  | symbol h => exact .symbol ((hn _ (Nat.le_refl _)).trans h)
  | bin h hj hk _ _ ihl ihr =>
      refine .bin ((hn _ (Nat.le_refl _)).trans h) hj hk (ihl ?_) (ihr ?_)
      · exact fun m hm => hn m (Nat.le_trans hm (Nat.le_of_lt hj))
      · exact fun m hm => hn m (Nat.le_trans hm (Nat.le_of_lt hk))
  | arg h hj _ ih =>
      refine .arg ((hn _ (Nat.le_refl _)).trans h) hj (ih ?_)
      exact fun m hm => hn m (Nat.le_trans hm (Nat.le_of_lt hj))
  | silent h => exact .silent ((hn _ (Nat.le_refl _)).trans h)
  | print h hj hk _ _ ihe ihv =>
      refine .print ((hn _ (Nat.le_refl _)).trans h) hj hk (ihe ?_) (ihv ?_)
      · exact fun m hm => hn m (Nat.le_trans hm (Nat.le_of_lt hj))
      · exact fun m hm => hn m (Nat.le_trans hm (Nat.le_of_lt hk))

/-- Nodes added at the end change nothing for the positions before them. -/
theorem append (h : Unfolds nodes i t) : Unfolds (nodes ++ more) i t :=
  h.congr fun _ hj => List.getElem?_append_left (Nat.lt_of_le_of_lt hj h.lt)

theorem of_append (h : Unfolds (nodes ++ more) i t) (hi : i < nodes.length) :
    Unfolds nodes i t :=
  h.congr fun _ hj => (List.getElem?_append_left (Nat.lt_of_le_of_lt hj hi)).symm

/-- Equal nodes unfold to equal terms. -/
theorem eq_of_node_eq (h : Unfolds nodes i t) (h' : Unfolds nodes j u)
    (hn : nodes[i]? = nodes[j]?) : t = u := by
  induction h generalizing j u with
  | num h hn' => cases h' <;> simp_all
  | symbol h => cases h' <;> simp_all
  | silent h => cases h' <;> simp_all
  | arg h _ _ ih =>
      cases h' with
      | arg h₂ _ ht =>
          rw [h, h₂] at hn
          simp only [Option.some.injEq, Node.mk.injEq, List.cons.injEq, Int.natCast_inj] at hn
          obtain ⟨-, -, rfl, -⟩ := hn
          rw [ih ht rfl]
      | _ => simp_all
  | bin h _ _ _ _ ihl ihr =>
      cases h' with
      | bin h₂ _ _ hl hr =>
          rw [h, h₂] at hn
          simp only [Option.some.injEq, Node.mk.injEq, Kind.bin.injEq, List.cons.injEq,
            Int.natCast_inj] at hn
          obtain ⟨rfl, -, rfl, rfl, -⟩ := hn
          rw [ihl hl rfl, ihr hr rfl]
      | _ => simp_all
  | print h _ _ _ _ ihe ihv =>
      cases h' with
      | print h₂ _ _ he hv =>
          rw [h, h₂] at hn
          simp only [Option.some.injEq, Node.mk.injEq, List.cons.injEq, Int.natCast_inj] at hn
          obtain ⟨-, -, rfl, rfl, -⟩ := hn
          rw [ihe he rfl, ihv hv rfl]
      | _ => simp_all

/-- A position unfolds to one term at most. -/
theorem unique (h : Unfolds nodes i t) (h' : Unfolds nodes i u) : t = u :=
  h.eq_of_node_eq h' rfl

/-- The node of an operator unfolds to the operator on what its children unfold to. -/
theorem of_bin {k : Nat} {op : BinOp} {label : Option Label} (h : Unfolds nodes i t)
    (hn : nodes[i]? = some ⟨.bin op, label, [(j : Int), (k : Int)]⟩) :
    ∃ l r, t = .bin op l r ∧ Unfolds nodes j l ∧ Unfolds nodes k r := by
  cases h with
  | bin h _ _ hl hr =>
      rw [hn] at h
      simp only [Option.some.injEq, Node.mk.injEq, Kind.bin.injEq, List.cons.injEq,
        Int.natCast_inj] at h
      obtain ⟨rfl, -, rfl, rfl, -⟩ := h
      exact ⟨_, _, rfl, hl, hr⟩
  | _ => simp_all

theorem of_arg {label : Option Label} (h : Unfolds nodes i t)
    (hn : nodes[i]? = some ⟨.arg, label, [(j : Int)]⟩) : ∃ u, t = .arg u ∧ Unfolds nodes j u := by
  cases h with
  | arg h _ hu =>
      rw [hn] at h
      simp only [Option.some.injEq, Node.mk.injEq, List.cons.injEq, Int.natCast_inj] at h
      obtain ⟨-, -, rfl, -⟩ := h
      exact ⟨_, rfl, hu⟩
  | _ => simp_all

theorem of_print {k : Nat} {label : Option Label} (h : Unfolds nodes i t)
    (hn : nodes[i]? = some ⟨.print, label, [(j : Int), (k : Int)]⟩) :
    ∃ e v, t = .print e v ∧ Unfolds nodes j e ∧ Unfolds nodes k v := by
  cases h with
  | print h _ _ he hv =>
      rw [hn] at h
      simp only [Option.some.injEq, Node.mk.injEq, List.cons.injEq, Int.natCast_inj] at h
      obtain ⟨-, -, rfl, rfl, -⟩ := h
      exact ⟨_, _, rfl, he, hv⟩
  | _ => simp_all

end Unfolds

/-! ## The shared form of a term -/

/-- A node is found, or added at the end. -/
theorem internNode_cases (nodes : List Node) (n : Node) :
    (∃ i, internNode nodes n = (nodes, i) ∧ nodes[i]? = some n) ∨
      internNode nodes n = (nodes ++ [n], nodes.length) ∧ n ∉ nodes := by
  unfold internNode
  split
  · next i hi =>
      obtain ⟨hlt, heq, -⟩ := List.idxOf?_eq_some_iff.1 hi
      exact .inl ⟨i, rfl, by simpa [hlt] using heq⟩
  · next hi => exact .inr ⟨rfl, by simpa using hi⟩

/-- What adding the nodes of a term to a node list comes to. -/
structure Flattened (t : Term) (nodes : List Node) (out : List Node × Nat) : Prop where
  /-- Nodes are added at the end. -/
  grows : ∃ more, out.1 = nodes ++ more
  wellFormed : WellFormed out.1
  /-- The position given unfolds to the term. -/
  root : Unfolds out.1 out.2 t
  /-- What is added unfolds to subterms. -/
  only : ∀ i u, Unfolds out.1 i u → Unfolds nodes i u ∨ u ∈ t.subterms

/-- Interning a node that would unfold to `t`. -/
theorem internNode_spec {nodes : List Node} {n : Node} {t : Term} (hw : WellFormed nodes)
    (hn : Unfolds (nodes ++ [n]) nodes.length t) : Flattened t nodes (internNode nodes n) := by
  rcases internNode_cases nodes n with ⟨i, heq, hi⟩ | ⟨heq, -⟩
  · obtain ⟨u, hu⟩ := hw i (List.getElem?_eq_some_iff.1 hi).1
    -- the node is there, so what it unfolds to is what the added one would
    have hut : u = t := by
      have hu' : Unfolds (nodes ++ [n]) i u := hu.append
      refine hu'.eq_of_node_eq hn ?_
      rw [List.getElem?_append_left hu.lt, hi, List.getElem?_concat_length]
    rw [heq]
    exact ⟨⟨[], (List.append_nil _).symm⟩, hw, hut ▸ hu, fun j v hv => .inl hv⟩
  · rw [heq]
    have hold : ∀ i u, Unfolds (nodes ++ [n]) i u → Unfolds nodes i u ∨ u = t := by
      intro i u hu
      by_cases hi : i < nodes.length
      · exact .inl (hu.of_append hi)
      · have hlt := hu.lt
        rw [List.length_append, List.length_singleton] at hlt
        obtain rfl : i = nodes.length := by omega
        exact .inr (hu.unique hn)
    refine ⟨⟨[n], rfl⟩, fun i hi => ?_, hn, fun i u hu => ?_⟩
    · rw [List.length_append, List.length_singleton] at hi
      by_cases hlt : i < nodes.length
      · obtain ⟨u, hu⟩ := hw i hlt
        exact ⟨u, hu.append⟩
      · obtain rfl : i = nodes.length := by omega
        exact ⟨t, hn⟩
    · refine (hold i u hu).imp_right fun h => ?_
      rw [h]
      exact t.self_mem_subterms

namespace Flattened

variable {t u : Term} {nodes : List Node} {out out' : List Node × Nat}

/-- What unfolded before still does. -/
theorem keeps (h : Flattened t nodes out) {i : Nat} (hu : Unfolds nodes i u) :
    Unfolds out.1 i u := by
  obtain ⟨more, hmore⟩ := h.grows
  rw [hmore]
  exact hu.append

/-- The nodes of a subterm first, then those of the term. -/
theorem trans (h : Flattened u nodes out) (h' : Flattened t out.1 out')
    (hsub : ∀ v ∈ u.subterms, v ∈ t.subterms) : Flattened t nodes out' where
  grows := by
    obtain ⟨more, hmore⟩ := h.grows
    obtain ⟨more', hmore'⟩ := h'.grows
    exact ⟨more ++ more', by rw [hmore', hmore, List.append_assoc]⟩
  wellFormed := h'.wellFormed
  root := h'.root
  only i v hv := by
    rcases h'.only i v hv with hv | hv
    · exact (h.only i v hv).imp_right (hsub v)
    · exact .inr hv

end Flattened

theorem getElem?_concat_self (nodes : List Node) (n : Node) :
    (nodes ++ [n])[nodes.length]? = some n :=
  List.getElem?_concat_length

namespace Term

theorem flattenInto_spec {nodes : List Node} (hw : WellFormed nodes) (t : Term) :
    Flattened t nodes (t.flattenInto nodes) := by
  induction t generalizing nodes with
  | num n => exact internNode_spec hw (.num (getElem?_concat_self ..) rfl)
  | symbol s => exact internNode_spec hw (.symbol (getElem?_concat_self ..))
  | silent => exact internNode_spec hw (.silent (getElem?_concat_self ..))
  | arg i ih =>
      have hi := ih hw
      refine hi.trans (internNode_spec hi.wellFormed ?_) fun v hv => List.mem_cons_of_mem _ hv
      exact .arg (getElem?_concat_self ..) hi.root.lt hi.root.append
  | bin op l r ihl ihr =>
      have hl := ihl hw
      have hr := ihr hl.wellFormed
      have hroot := hr.keeps hl.root
      refine hl.trans (hr.trans (internNode_spec hr.wellFormed ?_) ?_) ?_
      · exact .bin (getElem?_concat_self ..) hroot.lt hr.root.lt hroot.append hr.root.append
      · exact fun v hv => List.mem_cons_of_mem _ (List.mem_append_right _ hv)
      · exact fun v hv => List.mem_cons_of_mem _ (List.mem_append_left _ hv)
  | print e v ihe ihv =>
      have he := ihe hw
      have hv := ihv he.wellFormed
      have hroot := hv.keeps he.root
      refine he.trans (hv.trans (internNode_spec hv.wellFormed ?_) ?_) ?_
      · exact .print (getElem?_concat_self ..) hroot.lt hv.root.lt hroot.append hv.root.append
      · exact fun u hu => List.mem_cons_of_mem _ (List.mem_append_right _ hu)
      · exact fun u hu => List.mem_cons_of_mem _ (List.mem_append_left _ hu)

theorem flatten_spec (t : Term) : Flattened t [] (t.flattenInto []) :=
  flattenInto_spec wellFormed_nil t

theorem flatten_wellFormed (t : Term) : WellFormed t.flatten :=
  t.flatten_spec.wellFormed

/-- Every node of the shared form of a term unfolds to a subterm. -/
theorem mem_subterms_of_unfolds {t u : Term} {i : Nat} (h : Unfolds t.flatten i u) :
    u ∈ t.subterms := by
  rcases t.flatten_spec.only i u h with h | h
  · exact absurd h.lt (Nat.not_lt_zero i)
  · exact h

end Term

/-- A node that unfolds to a term larger than all others of the list is not in the list. -/
theorem internNode_of_cost_lt {nodes : List Node} {n : Node} {t : Term} (hw : WellFormed nodes)
    (hn : Unfolds (nodes ++ [n]) nodes.length t)
    (hlt : ∀ i u, Unfolds nodes i u → u.cost < t.cost) :
    internNode nodes n = (nodes ++ [n], nodes.length) := by
  rcases internNode_cases nodes n with ⟨i, heq, hi⟩ | ⟨heq, -⟩
  · have hroot := (internNode_spec hw hn).root
    rw [heq] at hroot
    exact absurd (hlt i t hroot) (Nat.lt_irrefl _)
  · exact heq

namespace Term

/-- The nodes of two terms, one after the other, unfold to subterms of either. -/
theorem cost_lt_of_unfolds {l r : Term} {n i : Nat} {u : Term} (hl : l.cost < n) (hr : r.cost < n)
    (h : Unfolds (r.flattenInto (l.flattenInto []).1).1 i u) : u.cost < n := by
  rcases (flattenInto_spec l.flatten_spec.wellFormed r).only i u h with h | h
  · exact Nat.lt_of_le_of_lt (cost_le_of_mem_subterms (mem_subterms_of_unfolds h)) hl
  · exact Nat.lt_of_le_of_lt (cost_le_of_mem_subterms h) hr

/-- The node of an operator comes after all nodes of its operands. -/
theorem flattenInto_bin (op : BinOp) (l r : Term) :
    let left := l.flattenInto []
    let right := r.flattenInto left.1
    (bin op l r).flattenInto [] =
      (right.1 ++ [{ kind := .bin op, children := [(left.2 : Int), (right.2 : Int)] }],
        right.1.length) := by
  have hr := flattenInto_spec l.flatten_spec.wellFormed r
  have hroot := hr.keeps l.flatten_spec.root
  refine internNode_of_cost_lt (t := bin op l r) hr.wellFormed ?_ ?_
  · exact .bin (getElem?_concat_self ..) hroot.lt hr.root.lt hroot.append hr.root.append
  · intro i u hu
    exact cost_lt_of_unfolds (by simp only [cost]; omega) (by simp only [cost]; omega) hu

/-- The node of a print comes after all nodes of its parts. -/
theorem flattenInto_print (e v : Term) :
    let effect := e.flattenInto []
    let value := v.flattenInto effect.1
    (print e v).flattenInto [] =
      (value.1 ++ [{ kind := .print, children := [(effect.2 : Int), (value.2 : Int)] }],
        value.1.length) := by
  have hv := flattenInto_spec e.flatten_spec.wellFormed v
  have hroot := hv.keeps e.flatten_spec.root
  refine internNode_of_cost_lt (t := print e v) hv.wellFormed ?_ ?_
  · exact .print (getElem?_concat_self ..) hroot.lt hv.root.lt hroot.append hv.root.append
  · intro i u hu
    exact cost_lt_of_unfolds (by simp only [cost]; omega) (by simp only [cost]; omega) hu

theorem flattenInto_arg (t : Term) :
    let index := t.flattenInto []
    (arg t).flattenInto [] =
      (index.1 ++ [{ kind := .arg, children := [(index.2 : Int)] }], index.1.length) := by
  have ht := t.flatten_spec
  refine internNode_of_cost_lt (t := arg t) ht.wellFormed ?_ ?_
  · exact .arg (getElem?_concat_self ..) ht.root.lt ht.root.append
  · intro i u hu
    have := cost_le_of_mem_subterms (mem_subterms_of_unfolds hu)
    simp only [cost]
    omega

/-- The root of a term is the last node of its shared form. -/
theorem flattenInto_root (t : Term) : (t.flattenInto []).2 = t.flatten.length - 1 := by
  unfold flatten
  cases t with
  | num | symbol | silent => rfl
  | bin op l r =>
      rw [flattenInto_bin]
      simp
  | arg i =>
      rw [flattenInto_arg]
      simp
  | print e v =>
      rw [flattenInto_print]
      simp

/-- **Sharing loses nothing**: the last node of the shared form of a term unfolds to the term. -/
theorem flatten_unfolds (t : Term) : Unfolds t.flatten (t.flatten.length - 1) t := by
  rw [← t.flattenInto_root]
  exact t.flatten_spec.root

end Term

end WhileLang
