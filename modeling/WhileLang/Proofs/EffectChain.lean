import WhileLang.Proofs.MaximalSharing
import WhileLang.Proofs.RoundTrip

/-!
# Chains of effects in node lists

A value contains no effect, so the effects in a chain of values are its beginnings: nothing, the
first print, the first two prints and so on up to the whole. They are told apart by their number of
links, and each is a part of the next one only.

In the shared form of the chain the beginnings have one node each, and these are all its effect
nodes. Since children stand before their parents, their positions ascend from the silent node to
the root.

* `Term.isValue_or_prefix`: a subterm of a chain is a value or a beginning of the chain.
* `ChainAt`: a chain of effects lies at some positions of a node list.
* `IsSpine`: the effect nodes of a list are a chain; `Term.flatten_isSpine`: those of the shared
  form of a chain are that chain.
-/

namespace WhileLang

/-! ## Values and effects in a chain -/

namespace Term

variable {t u e v : Term} {vs : List Term}

/-- A subterm of a chain of values is a value or a beginning of the chain. -/
theorem isValue_or_prefix (hvs : ∀ v ∈ vs, v.isValue = true) (hu : u ∈ (ofPrints vs).subterms) :
    u.isValue = true ∨ ∃ ws, ws <+: vs ∧ u = ofPrints ws := by
  induction vs using List.reverseRecOn with
  | nil => exact .inr ⟨[], List.prefix_refl _, List.mem_singleton.1 hu⟩
  | append_singleton vs v ih =>
      obtain ⟨hvs, hv⟩ := List.forall_mem_append.1 hvs
      rw [ofPrints_concat, subterms, List.mem_cons, List.mem_append] at hu
      rcases hu with rfl | hu | hu
      · exact .inr ⟨vs ++ [v], List.prefix_refl _, (ofPrints_concat vs v).symm⟩
      · refine (ih hvs hu).imp_right ?_
        rintro ⟨ws, hws, rfl⟩
        exact ⟨ws, hws.trans (List.prefix_append _ _), rfl⟩
      · exact .inl (isValue_of_mem_subterms (hv v (List.mem_singleton.2 rfl)) hu)

theorem ofPrints_cases (vs : List Term) :
    ofPrints vs = silent ∨ ∃ ws v, vs = ws ++ [v] ∧ ofPrints vs = print (ofPrints ws) v := by
  cases vs using List.reverseRecOn with
  | nil => exact .inl rfl
  | append_singleton ws v => exact .inr ⟨ws, v, rfl, ofPrints_concat ws v⟩

theorem isValue_ofPrints (vs : List Term) : (ofPrints vs).isValue = false := by
  rcases ofPrints_cases vs with h | ⟨ws, v, -, h⟩
  · rw [h]; rfl
  · rw [h]; rfl

theorem ofPrints_injective : Function.Injective ofPrints := by
  intro vs
  induction vs using List.reverseRecOn with
  | nil =>
      intro ws h
      have hlen := congrArg links h
      rw [links_ofPrints, links_ofPrints] at hlen
      exact (List.length_eq_zero_iff.1 hlen.symm).symm
  | append_singleton vs v ih =>
      intro ws h
      cases ws using List.reverseRecOn with
      | nil =>
          rw [ofPrints_concat] at h
          cases h
      | append_singleton ws w =>
          rw [ofPrints_concat, ofPrints_concat] at h
          obtain ⟨he, rfl⟩ := print.inj h
          rw [ih he]

/-- A print in a chain ends a beginning of the chain. -/
theorem exists_prefix_of_print (hvs : ∀ v ∈ vs, v.isValue = true)
    (h : print e v ∈ (ofPrints vs).subterms) : ∃ ws, ws ++ [v] <+: vs ∧ e = ofPrints ws := by
  rcases isValue_or_prefix hvs h with hval | ⟨ws, hws, heq⟩
  · cases hval
  · rcases ofPrints_cases ws with hsilent | ⟨ws, w, rfl, hprint⟩
    · rw [hsilent] at heq
      cases heq
    · obtain ⟨rfl, rfl⟩ := print.inj (heq.trans hprint)
      exact ⟨ws, hws, rfl⟩

/-- An effect in a chain is followed by one print only. -/
theorem print_unique {w : Term} (hvs : ∀ v ∈ vs, v.isValue = true)
    (h : print e v ∈ (ofPrints vs).subterms) (h' : print e w ∈ (ofPrints vs).subterms) : v = w := by
  obtain ⟨ws, hws, rfl⟩ := exists_prefix_of_print hvs h
  obtain ⟨ws', hws', heq⟩ := exists_prefix_of_print hvs h'
  obtain rfl := ofPrints_injective heq
  have hsame : ws ++ [v] = ws ++ [w] :=
    (List.prefix_of_prefix_length_le hws hws' (by simp)).eq_of_length (by simp)
  simpa using hsame

end Term

/-! ## Chains at positions -/

/-- A chain of effects lies at some positions of a node list: a silent node at the first of them,
and prints at the others, each of which refers to the one before and to a value. -/
inductive ChainAt (nodes : List Node) : List Nat → List Term → Prop where
  | start {i : Nat} {label : Option Label} (h : nodes[i]? = some ⟨.silent, label, []⟩) :
      ChainAt nodes [i] []
  | link {ps : List Nat} {i j k : Nat} {vs : List Term} {label : Option Label} {v : Term}
      (hc : ChainAt nodes (ps ++ [j]) vs)
      (h : nodes[i]? = some ⟨.print, label, [(j : Int), (k : Int)]⟩) (hv : Unfolds nodes k v) :
      ChainAt nodes (ps ++ [j] ++ [i]) (vs ++ [v])

variable {nodes : List Node} {vs : List Term}

/-- There is one position more than there are links. -/
theorem ChainAt.length {ps : List Nat} (h : ChainAt nodes ps vs) : ps.length = vs.length + 1 := by
  induction h with
  | start _ => rfl
  | link _ _ _ ih => simpa using ih

/-- A position that unfolds to a chain is the end of one, whose positions ascend and hold all
beginnings of it. -/
theorem Unfolds.chainAt {i : Nat} (h : Unfolds nodes i (.ofPrints vs)) :
    ∃ ps, ChainAt nodes (ps ++ [i]) vs ∧ (ps ++ [i]).Pairwise (· < ·) ∧
      ∀ ws, ws <+: vs → ∃ j ∈ ps ++ [i], Unfolds nodes j (.ofPrints ws) := by
  induction vs using List.reverseRecOn generalizing i with
  | nil =>
      have h' := h
      cases h with
      | silent hn =>
          refine ⟨[], .start hn, List.pairwise_singleton _ _, ?_⟩
          intro ws hws
          rw [List.prefix_nil.1 hws]
          exact ⟨i, List.mem_singleton.2 rfl, h'⟩
  | append_singleton vs v ih =>
      have h' := h
      rw [Term.ofPrints_concat] at h
      cases h with
      | @print _ j k _ _ _ hn hj hk he hv =>
          obtain ⟨ps, hchain, hsorted, hall⟩ := ih he
          refine ⟨ps ++ [j], hchain.link hn hv, ?_, ?_⟩
          · refine List.pairwise_append.2 ⟨hsorted, List.pairwise_singleton _ _, ?_⟩
            intro a ha b hb
            rw [List.mem_singleton.1 hb]
            rcases List.mem_append.1 ha with ha | ha
            · have hlt := (List.pairwise_append.1 hsorted).2.2 a ha j (List.mem_singleton.2 rfl)
              omega
            · rwa [List.mem_singleton.1 ha]
          · intro ws hws
            rcases List.prefix_concat_iff.1 hws with rfl | hws
            · exact ⟨i, by simp, h'⟩
            · obtain ⟨m, hm, hu⟩ := hall ws hws
              exact ⟨m, List.mem_append_left _ hm, hu⟩

/-- The effect nodes of a list are a chain at ascending positions, which ends at the last node. -/
structure IsSpine (nodes : List Node) (ps : List Nat) (vs : List Term) : Prop where
  chain : ChainAt nodes ps vs
  last : ps.getLast? = some (nodes.length - 1)
  ascending : ps.Pairwise (· < ·)
  effects : ∀ i node, nodes[i]? = some node → node.kind = .silent ∨ node.kind = .print → i ∈ ps

/-- **A chain is the spine of its shared form.** -/
theorem Term.flatten_isSpine (hvs : ∀ v ∈ vs, v.isValue = true) :
    ∃ ps, IsSpine (ofPrints vs).flatten ps vs := by
  obtain ⟨ps, hchain, hsorted, hall⟩ := (ofPrints vs).flatten_unfolds.chainAt
  refine ⟨_, hchain, by simp, hsorted, ?_⟩
  intro i node hn hkind
  obtain ⟨u, hu⟩ := (ofPrints vs).flatten_wellFormed i (List.getElem?_eq_some_iff.1 hn).1
  rcases isValue_or_prefix hvs (mem_subterms_of_unfolds hu) with hval | ⟨ws, hws, rfl⟩
  · obtain ⟨hsilent, hprint⟩ := hu.kind_of_isValue hval hn
    exact absurd hkind (by simp [hsilent, hprint])
  · -- a beginning of the chain has one node only, which is where the chain passes
    obtain ⟨j, hj, huj⟩ := hall ws hws
    rwa [(ofPrints vs).flatten_compact.index_unique hu huj]

end WhileLang
