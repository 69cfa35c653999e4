import Mathlib.Data.List.Induction
import WhileLang.EGraph.Basic
import WhileLang.Proofs.Linearization

/-!
# Residual programs give their terms back

The residual program of a chain of effects is straight-line code, so it can be executed on terms
again. What comes out is the chain itself, however its nodes were shared and whether numbers were
written in place or not.

An expression restores a position of the node list if it has a term in every environment that knows
the temporaries of the earlier positions, and that term is the one the position unfolds to. Effects
are exempt: the expression that stands for one is never printed. The work on the bench keeps this
up, and a temporary is bound to the term of its position as soon as it is assigned.

* `Term.ofPrints`: the chain that prints some values; `Term.Plain.eq_ofPrints`: every plain effect
  is one.
* `Knows`, `Restores`: environments that know the temporaries, and expressions that restore a
  position.
* `printedPositions`: the positions that the prints of a node list refer to;
  `Term.flatten_printedPositions`: in a chain they unfold to the values, in order.
* `Emits.extend`: the statements written for some nodes extend a chain by what the nodes print.
* `Term.residual_extend`: the residual program of a chain extends nothing to the chain.
* `Term.residual_symbolic`: symbolic execution undoes the residual program.
-/

namespace WhileLang

/-! ## Chains of effects -/

/-- The chain of effects that prints some values, one after the other. -/
def Term.ofPrints (vs : List Term) : Term :=
  vs.foldl print silent

/-- How many links a chain of effects has. -/
def Term.links : Term → Nat
  | print e _ => e.links + 1
  | _ => 0

namespace Term

theorem ofPrints_concat (vs : List Term) (v : Term) :
    ofPrints (vs ++ [v]) = print (ofPrints vs) v := by
  simp [ofPrints]

theorem links_foldl_print (vs : List Term) (e : Term) :
    (vs.foldl print e).links = e.links + vs.length := by
  induction vs generalizing e with
  | nil => rfl
  | cons v vs ih =>
      rw [List.foldl_cons, ih, links, List.length_cons]
      omega

theorem links_ofPrints (vs : List Term) : (ofPrints vs).links = vs.length := by
  simp [ofPrints, links_foldl_print, links]

theorem symbols_ofPrints (vs : List Term) : (ofPrints vs).symbols = vs.flatMap symbols := by
  induction vs using List.reverseRecOn with
  | nil => rfl
  | append_singleton vs v ih => simp [ofPrints_concat, symbols, ih]

theorem Plain.ofPrints {vs : List Term} (h : ∀ v ∈ vs, v.Plain .value) :
    (ofPrints vs).Plain .effect := by
  induction vs using List.reverseRecOn with
  | nil => exact ⟨rfl, rfl⟩
  | append_singleton vs v ih =>
      obtain ⟨hvs, hv⟩ := List.forall_mem_append.1 h
      have hv' := hv v (List.mem_singleton.2 rfl)
      rw [ofPrints_concat]
      refine ⟨if_pos ⟨(ih hvs).sort, hv'.sort⟩, ?_⟩
      simp [Term.symbols, (ih hvs).symbols, hv'.symbols]

/-- Every plain effect is a chain of plain values. -/
theorem Plain.eq_ofPrints {t : Term} (h : t.Plain .effect) :
    ∃ vs, t = Term.ofPrints vs ∧ ∀ v ∈ vs, v.Plain .value := by
  induction t with
  | silent => exact ⟨[], rfl, by simp⟩
  | print e v ihe _ =>
      obtain ⟨hsort, hsymbols⟩ := h
      simp only [sort?, Option.ite_none_right_eq_some] at hsort
      obtain ⟨hse, hsv⟩ := List.append_eq_nil_iff.1 hsymbols
      obtain ⟨vs, rfl, hvs⟩ := ihe ⟨hsort.1.1, hse⟩
      refine ⟨vs ++ [v], (ofPrints_concat vs v).symm, ?_⟩
      intro u hu
      rcases List.mem_append.1 hu with hu | hu
      · exact hvs u hu
      · rw [List.mem_singleton.1 hu]
        exact ⟨hsort.1.2, hsv⟩
  | num n | symbol s | arg i _ | bin op l r _ _ =>
      have hsort := h.sort
      simp [sort?] at hsort

end Term

/-- Executing a block on terms adds one link for each of its prints. -/
theorem Block.extend_links {b : Block} {env env' : Env} {chain chain' : Term}
    (h : b.extend env chain = (env', .ok chain')) :
    chain'.links = chain.links + b.countP (·.isPrint) := by
  induction b generalizing env chain with
  | nil =>
      obtain rfl := Except.ok.inj (Prod.mk.inj h).2
      simp
  | cons s b ih =>
      rcases extend_cons_eq_ok h with ⟨x, e, t, rfl, -, h⟩ | ⟨e, t, rfl, -, h⟩
      · simpa [Stmt.isPrint] using ih h
      · have := ih h
        simp only [Term.links, List.countP_cons, Stmt.isPrint] at this ⊢
        simp
        omega

/-! ## Expressions that restore a position -/

/-- A term restores another: it is that term, if that is a value. -/
def Term.Restored (t u : Term) : Prop :=
  t.sort? = some .value → u = t

/-- An environment knows the temporaries of all positions before a given one. -/
def Knows (options : ResidualOptions) (nodes : List Node) (k : Nat) (env : Env) : Prop :=
  ∀ i s t, i < k → temporary? options nodes i = some s → Unfolds nodes i t →
    ∃ u, env.get? s = some u ∧ t.Restored u

/-- In every environment that knows the temporaries before position `k`, an expression has a term
that restores what position `i` unfolds to. -/
def Restores (options : ResidualOptions) (nodes : List Node) (k i : Nat) (e : Expr) : Prop :=
  ∀ t env, Unfolds nodes i t → Knows options nodes k env →
    ∃ u, e.term env = .ok u ∧ t.Restored u

section

variable {options : ResidualOptions} {nodes : List Node}

theorem Knows.mono {k k' : Nat} {env : Env} (h : Knows options nodes k env) (hk : k' ≤ k) :
    Knows options nodes k' env := by
  intro i s t hi
  exact h i s t (Nat.lt_of_lt_of_le hi hk)

theorem Restores.mono {k k' i : Nat} {e : Expr} (h : Restores options nodes k i e) (hk : k ≤ k') :
    Restores options nodes k' i e := by
  intro t env ht henv
  exact h t env ht (henv.mono hk)

/-- The work on the bench keeps up that expressions restore their positions. -/
theorem keeps_restores (hsymbols : ∀ i s, ¬ Unfolds nodes i (.symbol s)) :
    Keeps options nodes (fun i => Restores options nodes (i + 1) i)
      (fun i => Restores options nodes i i) where
  made _ h := h.mono (Nat.le_succ _)
  named {i s} hs := by
    intro t env ht henv
    obtain ⟨u, hu, hr⟩ := henv i s t (Nat.lt_succ_self i) hs ht
    exact ⟨u, by simp [Expr.term, hu], hr⟩
  num {i label n} hn hk := by
    intro t env ht _
    obtain rfl := ht.unique (.num hn hk)
    refine ⟨_, rfl, ?_⟩
    intro hsort
    simp only [Term.sort?, Option.ite_none_right_eq_some] at hsort
    rw [Word.wrap_eq_self hsort.1]
  symbol hn := absurd (.symbol hn) (hsymbols _ _)
  bin {i j k op label l r} hn hj hk hl hr := by
    intro t env ht henv
    obtain ⟨tl, tr, rfl, hul, hur⟩ := ht.of_bin hn
    obtain ⟨a, ha, hra⟩ := hl tl env hul (henv.mono hj)
    obtain ⟨b, hb, hrb⟩ := hr tr env hur (henv.mono hk)
    refine ⟨.bin op a b, by simp [Expr.term, ha, hb, bind, Except.bind, pure, Except.pure], ?_⟩
    intro hsort
    simp only [Term.sort?, Option.ite_none_right_eq_some] at hsort
    rw [hra hsort.1.1, hrb hsort.1.2]
  arg {i j label e} hn hj he := by
    intro t env ht henv
    obtain ⟨u, rfl, hu⟩ := ht.of_arg hn
    obtain ⟨a, ha, hra⟩ := he u env hu (henv.mono hj)
    refine ⟨.arg a, by simp [Expr.term, ha, bind, Except.bind, pure, Except.pure], ?_⟩
    intro hsort
    simp only [Term.sort?, Option.ite_none_right_eq_some] at hsort
    rw [hra hsort.1]
  effect {i node} hn hkind := by
    intro t env ht _
    refine ⟨_, rfl, ?_⟩
    intro hsort
    -- a value is made by another constructor than an effect
    cases ht with
    | silent _ => simp [Term.sort?] at hsort
    | print _ _ _ _ _ => simp [Term.sort?] at hsort
    | num h _ | symbol h | arg h _ _ | bin h _ _ _ _ =>
        obtain rfl := Option.some.inj (hn.symm.trans h)
        simp at hkind

/-! ## What the statements add to a chain -/

/-- The positions that the prints of a node list refer to for their values, in order. -/
def printedPositions (nodes : List Node) : List Int :=
  nodes.filterMap fun node =>
    match node.kind, node.children with
    | .print, [_, v] => some v
    | _, _ => none

/-- Some positions unfold to some values, one to one. -/
def UnfoldTo (nodes : List Node) : List Int → List Term → Prop :=
  List.Forall₂ fun p v => v.sort? = some .value ∧ ∃ k : Nat, p = k ∧ Unfolds nodes k v

theorem printedPositions_append (nodes more : List Node) :
    printedPositions (nodes ++ more) = printedPositions nodes ++ printedPositions more :=
  List.filterMap_append

theorem printedPositions_cons_of_ne {node : Node} (h : node.kind ≠ .print) (rest : List Node) :
    printedPositions (node :: rest) = printedPositions rest := by
  refine List.filterMap_cons_none ?_
  split
  · next hk _ => exact absurd hk h
  · rfl

theorem printedPositions_eq_nil {nodes : List Node} (h : ∀ node ∈ nodes, node.kind ≠ .print) :
    printedPositions nodes = [] := by
  induction nodes with
  | nil => rfl
  | cons node rest ih =>
      obtain ⟨hnode, hrest⟩ := List.forall_mem_cons.1 h
      rw [printedPositions_cons_of_ne hnode, ih hrest]

/-- What is assigned when an expression is kept makes its temporary known. -/
theorem Knows.assignTo {k : Nat} {env : Env} {e : Expr} {t : Term} (h : Knows options nodes k env)
    (ht : Unfolds nodes k t) (he : Restores options nodes k k e) (chain : Term) :
    ∃ env', Block.extend env chain (assignTo (temporary? options nodes k) e) =
        (env', .ok chain) ∧ Knows options nodes (k + 1) env' := by
  cases hs : temporary? options nodes k with
  | none =>
      refine ⟨env, rfl, ?_⟩
      intro i s u hi hsi hu
      by_cases hik : i = k
      · rw [hik, hs] at hsi
        cases hsi
      · exact h i s u (by omega) hsi hu
  | some s =>
      obtain ⟨u, hu, hr⟩ := he t env ht h
      refine ⟨env.bind s u, by simp [WhileLang.assignTo, Block.extend, hu], ?_⟩
      intro i s' t' hi hs' ht'
      rw [Env.get?_bind]
      by_cases hik : i = k
      · subst hik
        obtain rfl := Option.some.inj (hs.symm.trans hs')
        obtain rfl := ht.unique ht'
        exact ⟨u, if_pos rfl, hr⟩
      · -- no two positions share a temporary, so the earlier ones are not rebound
        have hne : s' ≠ s := fun hss => hik (temporary?_injective hs' (hss ▸ hs))
        rw [if_neg hne]
        exact h i s' t' (by omega) hs' ht'

/-- What is written when the expression of a node is made adds its value, if it is a print. -/
theorem Prints.extend {k : Nat} {node : Node} {ss : List Stmt} {rest : List Node} {env : Env}
    {vs : List Term} (h : Prints (fun i => Restores options nodes (i + 1) i) k node ss)
    (henv : Knows options nodes k env) (hvs : UnfoldTo nodes (printedPositions (node :: rest)) vs)
    (chain : Term) :
    ∃ shown vs', vs = shown ++ vs' ∧ UnfoldTo nodes (printedPositions rest) vs' ∧
      Block.extend env chain ss = (env, .ok (shown.foldl .print chain)) := by
  cases h with
  | nothing h =>
      rw [printedPositions_cons_of_ne h] at hvs
      exact ⟨[], vs, rfl, hvs, rfl⟩
  | @value label i j e hj he =>
      cases hvs with
      | @cons p v ps vs' hv hvs =>
          obtain ⟨hsort, n, hn, hu⟩ := hv
          obtain rfl : j = n := Int.ofNat.inj hn
          obtain ⟨u, hterm, hr⟩ := he v env hu (henv.mono hj)
          obtain rfl := hr hsort
          exact ⟨[u], vs', rfl, hvs, by simp [Block.extend, hterm]⟩

/-- **The statements written for some nodes extend a chain by what the nodes print.** -/
theorem Emits.extend {k : Nat} {rest : List Node} {ss : List Stmt} {env : Env} {vs : List Term}
    (h : Emits options nodes (fun i => Restores options nodes (i + 1) i)
      (fun i => Restores options nodes i i) k rest ss)
    (hunfold : ∀ i, i < k + rest.length → ∃ t, Unfolds nodes i t)
    (henv : Knows options nodes k env) (hvs : UnfoldTo nodes (printedPositions rest) vs)
    (chain : Term) :
    ∃ env', Block.extend env chain ss = (env', .ok (vs.foldl .print chain)) := by
  induction h generalizing env vs chain with
  | nil =>
      cases hvs
      exact ⟨env, rfl⟩
  | @cons k node rest prints ss e hp he _ ih =>
      rw [List.length_cons] at hunfold
      obtain ⟨t, ht⟩ := hunfold k (by omega)
      obtain ⟨shown, vs', rfl, hvs', hprints⟩ := hp.extend henv hvs chain
      obtain ⟨env₁, hassign, henv₁⟩ := henv.assignTo ht he (shown.foldl .print chain)
      obtain ⟨env', hrest⟩ := ih (fun i hi => hunfold i (by omega)) henv₁ hvs' _
      refine ⟨env', ?_⟩
      rw [List.append_assoc, Block.extend_append hprints, Block.extend_append hassign, hrest,
        List.foldl_append]

end

/-! ## Residual programs of chains -/

theorem UnfoldTo.append {nodes more : List Node} {ps : List Int} {vs : List Term}
    (h : UnfoldTo nodes ps vs) : UnfoldTo (nodes ++ more) ps vs := by
  refine List.Forall₂.imp ?_ h
  rintro p v ⟨hsort, k, rfl, hu⟩
  exact ⟨hsort, k, rfl, hu.append⟩

namespace Term

/-- The prints of a chain refer to its values, in order. -/
theorem flatten_printedPositions {vs : List Term} (h : ∀ v ∈ vs, v.sort? = some .value) :
    UnfoldTo (ofPrints vs).flatten (printedPositions (ofPrints vs).flatten) vs := by
  induction vs using List.reverseRecOn with
  | nil => exact .nil
  | append_singleton vs v ih =>
      obtain ⟨hvs, hv⟩ := List.forall_mem_append.1 h
      have hsort := hv v (List.mem_singleton.2 rfl)
      have hflat : Flattened v (ofPrints vs).flatten (v.flattenInto (ofPrints vs).flatten) :=
        flattenInto_spec (ofPrints vs).flatten_wellFormed v
      obtain ⟨more, hmore⟩ := hflat.grows
      -- what is added for the value prints nothing
      have hnone := printedPositions_eq_nil (hflat.not_print (isValue_of_sort hsort) hmore)
      have hold : UnfoldTo (v.flattenInto (ofPrints vs).flatten).1
          (printedPositions (v.flattenInto (ofPrints vs).flatten).1) vs := by
        rw [hmore, printedPositions_append, hnone, List.append_nil]
        exact (ih hvs).append
      rw [ofPrints_concat, flatten, flattenInto_print, printedPositions_append]
      refine List.rel_append hold.append (.cons ⟨hsort, _, rfl, ?_⟩ .nil)
      exact hflat.root.append

/-- The residual program of a chain of values without symbols extends nothing to that chain. -/
theorem residual_extend {vs : List Term} (h : ∀ v ∈ vs, v.Plain .value)
    {options : ResidualOptions} {ss : Block}
    (hss : (residual options (ofPrints vs).flatten).result = .ok ss) :
    ∃ env, ss.extend [] .silent = (env, .ok (ofPrints vs)) := by
  have hsymbols : ∀ i s, ¬ Unfolds (ofPrints vs).flatten i (.symbol s) := by
    intro i s hs
    cases symbols_of_mem_subterms (Plain.ofPrints h).symbols (mem_subterms_of_unfolds hs)
  have hemits := emits_of_residual hss (keeps_restores hsymbols)
  have hunfold : ∀ i, i < 0 + (ofPrints vs).flatten.length →
      ∃ t, Unfolds (ofPrints vs).flatten i t := by
    intro i hi
    exact (ofPrints vs).flatten_wellFormed i (by omega)
  have hstart : Knows options (ofPrints vs).flatten 0 [] := by
    intro i s t hi
    exact absurd hi (Nat.not_lt_zero i)
  exact hemits.extend hunfold hstart (flatten_printedPositions fun v hv => (h v hv).sort) .silent

/-- **Symbolic execution undoes the residual program.** Take a chain of effects that prints values
built from words, operators and argument reads. Whatever the temporaries are called, and whether
numbers are written in place or not, the shared form of the chain has a residual program, which is
executed on terms without a refusal. It computes the chain again, which has a class in the graph
then, and prints as often as the chain. -/
theorem residual_symbolic {vs : List Term} (h : ∀ v ∈ vs, v.Plain .value)
    (options : ResidualOptions) :
    ∃ ss run, (residual options (ofPrints vs).flatten).result = .ok ss ∧
      (ss.symbolic []).2 = .ok run ∧ run.chain = ofPrints vs ∧ run.prints = vs.length ∧
      ∃ c, (EGraph.addTerm {} run.chain).2 = some c := by
  obtain ⟨ss, hss⟩ := (ofPrints vs).residual_ok options
  obtain ⟨env, henv⟩ := residual_extend h hss
  have hprints : ss.countP (·.isPrint) = vs.length := by
    have hlinks := Block.extend_links henv
    simp only [links_ofPrints, links, Nat.zero_add] at hlinks
    exact hlinks.symm
  have hwords := inWords_of_sort (Plain.ofPrints h).sort
  refine ⟨ss, ⟨ofPrints vs, env, ss.length, vs.length⟩, hss, ?_, rfl, rfl, ?_⟩
  · simp [Block.symbolic, henv, hprints]
  · simp [EGraph.addTerm, hwords]

/-- An argument, the double of it, and the product of the two: the argument is shared by all three,
inside operands and across prints, and the number is shared by the first and the second. -/
def sharedDoubles : List Term :=
  let x := arg (num 2)
  let y := bin .mul x (num 2)
  [x, y, bin .mul x y]

/-- The chain comes back, with temporaries named by bare numbers. -/
theorem sharedDoubles_restored :
    (∀ v ∈ sharedDoubles, v.Plain .value) ∧
    ∃ ss run, (residual ⟨"", false⟩ (ofPrints sharedDoubles).flatten).result = .ok ss ∧
      (ss.symbolic []).2 = .ok run ∧ run.chain = ofPrints sharedDoubles ∧ run.prints = 3 := by
  have hplain : ∀ v ∈ sharedDoubles, v.Plain .value := by
    intro v hv
    simp only [sharedDoubles, List.mem_cons, List.not_mem_nil, or_false] at hv
    rcases hv with rfl | rfl | rfl <;> exact ⟨by decide, by decide⟩
  obtain ⟨ss, run, hss, hrun, hchain, hprints, -⟩ := residual_symbolic hplain ⟨"", false⟩
  exact ⟨hplain, ss, run, hss, hrun, hchain, hprints⟩

end Term

end WhileLang
