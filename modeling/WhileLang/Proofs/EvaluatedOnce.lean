import Mathlib.Algebra.BigOperators.Group.Finset.Basic
import Mathlib.Algebra.GroupWithZero.Nat
import WhileLang.Proofs.SpelledTerms

/-!
# Residual programs evaluate every node once

How often something occurs in a residual program follows by keeping accounts. Give each expression a
weight that comes from its outermost node and from the expressions handed out for its parts. A
position without a temporary is referred to once, so its weight turns up again where it is used,
unless it is a number, which weighs nothing. Hence the program weighs as much as the nodes by
themselves and the reads of the temporaries, one for each reference.

* `sum_parts`, `count_references`: references, counted by the parts of terms.
* `Term.count_references_of_effect`: no effect of a chain is referred to twice.
* `Term.weight_residual`: the weight of the residual program of a chain.
* `Term.count_reads`, `Term.count_operations`: how often a temporary is read and a term is computed.
* `Block.Shares`: a variable is assigned once and read a number of times.
* `Term.residual_shares`: sharing is preserved exactly.
-/

namespace WhileLang

/-! ## References -/

section

variable {options : ResidualOptions} {nodes : List Node} {f : Nat → Term} {i : Nat} {u : Term}

/-- The children of a node stand for the parts of its term. -/
theorem Unfolds.map_children {node : Node} (h : Unfolds nodes i u) (hn : nodes[i]? = some node)
    (hf : ∀ j, j < i → Unfolds nodes j (f j)) :
    (node.children.map fun c => f c.toNat) = u.parts := by
  cases h with
  | num h _ | symbol h | silent h =>
      obtain rfl := Option.some.inj (hn.symm.trans h)
      rfl
  | arg h hj ht =>
      obtain rfl := Option.some.inj (hn.symm.trans h)
      simp [Term.parts, (hf _ hj).unique ht]
  | bin h hj hk hl hr | print h hj hk hl hr =>
      obtain rfl := Option.some.inj (hn.symm.trans h)
      simp [Term.parts, (hf _ hj).unique hl, (hf _ hk).unique hr]

/-- The references of some nodes stand for the parts of their terms. -/
theorem map_references {done rest : List Node}
    (hf : ∀ i, i < nodes.length → Unfolds nodes i (f i)) (hnodes : nodes = done ++ rest) :
    ((references rest).map fun c => f c.toNat) =
      (List.range' done.length rest.length).flatMap fun i => (f i).parts := by
  induction rest generalizing done with
  | nil => rfl
  | cons node rest ih =>
      have hn : nodes[done.length]? = some node := by
        rw [hnodes, List.getElem?_append_right (Nat.le_refl _)]
        simp
      have hlt := (List.getElem?_eq_some_iff.1 hn).1
      have hchildren := (hf _ hlt).map_children hn fun j hj => hf j (by omega)
      have hrest := @ih (done ++ [node]) (by simpa using hnodes)
      rw [List.length_append, List.length_singleton] at hrest
      rw [List.length_cons, List.range'_succ, List.flatMap_cons, ← hrest, ← hchildren]
      simp [references]

/-- A sum over the references of a node list is a sum over its positions. -/
theorem sum_references (hw : WellFormed nodes) (g : Nat → Nat) :
    ((references nodes).map fun c => g c.toNat).sum =
      ∑ i ∈ Finset.range nodes.length, (references nodes).count (i : Int) * g i := by
  have hcount : ∀ i : Nat, ((references nodes).map Int.toNat).count i =
      (references nodes).count (i : Int) := by
    intro i
    rw [List.count_eq_countP, List.countP_map, List.count_eq_countP]
    refine List.countP_congr fun c hc => ?_
    obtain ⟨j, rfl, -⟩ := hw.of_mem_references hc
    simp only [Function.comp_apply, Int.toNat_natCast, beq_iff_eq, Int.natCast_inj]
  have hmap : ((references nodes).map fun c => g c.toNat) =
      ((references nodes).map Int.toNat).map g := by
    rw [List.map_map]
    rfl
  rw [hmap, Finset.sum_list_map_count]
  simp only [hcount, Nat.nsmul_eq_mul]
  refine Finset.sum_subset ?_ ?_
  · intro i hi
    obtain ⟨c, hc, rfl⟩ := List.mem_map.1 (List.mem_toFinset.1 hi)
    obtain ⟨j, rfl, hj⟩ := hw.of_mem_references hc
    simpa using hj
  · intro i _ hi
    have hnot : (i : Int) ∉ references nodes := fun hmem =>
      hi (List.mem_toFinset.2 (List.mem_map.2 ⟨i, hmem, rfl⟩))
    rw [List.count_eq_zero_of_not_mem hnot, Nat.zero_mul]

/-- What the parts of all terms add up to: each position counts once for each reference. -/
theorem sum_parts (hw : WellFormed nodes)
    (hf : ∀ i, i < nodes.length → Unfolds nodes i (f i)) (q : Term → Nat) :
    ∑ k ∈ Finset.range nodes.length, ((f k).parts.map q).sum =
      ∑ i ∈ Finset.range nodes.length, (references nodes).count (i : Int) * q (f i) := by
  have hmap := map_references hf (List.nil_append nodes).symm
  have hcomp : ((references nodes).map fun c => q (f c.toNat)) =
      ((references nodes).map fun c => f c.toNat).map q := by
    rw [List.map_map]
    rfl
  rw [← sum_references hw fun i => q (f i), hcomp, hmap, List.map_flatMap, List.flatMap_def,
    List.sum_flatten, List.map_map, List.length_nil, ← List.range_eq_range']
  rfl

/-- How often a position is referred to: as often as its term is a part. -/
theorem count_references (hw : WellFormed nodes) (hc : Compact nodes)
    (hf : ∀ i, i < nodes.length → Unfolds nodes i (f i)) (hi : i < nodes.length) :
    (references nodes).count (i : Int) =
      ∑ k ∈ Finset.range nodes.length, (f k).parts.count (f i) := by
  have hmap := map_references hf (List.nil_append nodes).symm
  have hcount : ((references nodes).map fun c => f c.toNat).count (f i) =
      (references nodes).count (i : Int) := by
    rw [List.count_eq_countP, List.countP_map, List.count_eq_countP]
    refine List.countP_congr fun c hc' => ?_
    obtain ⟨j, rfl, hj⟩ := hw.of_mem_references hc'
    simp only [Function.comp_apply, Int.toNat_natCast, beq_iff_eq, Int.natCast_inj]
    constructor
    · intro heq
      exact hc.index_unique (heq ▸ hf j hj) (hf i hi)
    · rintro rfl
      rfl
  rw [← hcount, hmap, List.count_flatMap, List.length_nil, ← List.range_eq_range']
  rfl

end

/-! ## Accounts -/

/-- The sum of the weights of the expressions of straight-line code. -/
def Block.weight (w : Expr → Nat) (b : Block) : Nat :=
  (b.values.map w).sum

theorem Block.weight_append (w : Expr → Nat) (b c : Block) :
    Block.weight w (b ++ c) = b.weight w + c.weight w := by
  simp [weight, values_append]

theorem Block.weight_flatMap (w : Expr → Nat) (g : Nat → Block) (l : List Nat) :
    Block.weight w (l.flatMap g) = (l.map fun i => (g i).weight w).sum := by
  induction l with
  | nil => rfl
  | cons i l ih => simp [weight_append, ih]

theorem Block.weight_assignTo (w : Expr → Nat) (name : Option String) (e : Expr) :
    Block.weight w (assignTo name e) + (if name = none then w e else 0) = w e := by
  cases name with
  | none => simp [assignTo, weight, values]
  | some s => simp [assignTo, weight, values, Stmt.value?]

namespace Term

variable {name : Term → Option String} {w : Expr → Nat} {own : Term → Nat} {u : Term}

/-- The account of a term: what is written for it, and what is left to be handed out, comes from
its outermost node and from what was handed out for its parts. -/
theorem weight_statements (hnum : ∀ n, w (.num n) = 0)
    (hown : u.isValue = true →
      w (u.spelled name) = own u + (u.parts.map fun v => w (v.quoted name)).sum)
    (hu : u.isValue = true ∨ u = silent ∨ ∃ e v, u = print e v ∧ w (e.quoted name) = 0) :
    (u.statements name).weight w + (if name u = none then w (u.spelled name) else 0) =
      (if u.isValue = true then own u else 0) + (u.parts.map fun v => w (v.quoted name)).sum := by
  rcases hu with hvalue | rfl | ⟨e, v, rfl, he⟩
  · rw [statements_of_isValue hvalue, Block.weight_assignTo, hown hvalue, if_pos hvalue]
  · show Block.weight w (assignTo (name silent) (silent.spelled name)) + _ = _
    rw [Block.weight_assignTo]
    exact hnum 0
  · show Block.weight w ([.print (v.quoted name)] ++ assignTo _ ((print e v).spelled name)) + _ = _
    rw [Block.weight_append, Nat.add_assoc, Block.weight_assignTo]
    have heffect : w ((print e v).spelled name) = 0 := hnum 0
    simp [Block.weight, Block.values, Stmt.value?, isValue, parts, he, heffect]

end Term

/-! ## The accounts of a chain -/

namespace Term

variable {vs : List Term} {options : ResidualOptions} {f : Nat → Term} {i : Nat} {u : Term}

/-- An effect is a part of prints only. -/
theorem eq_print_of_mem_parts {e : Term} (hvs : ∀ v ∈ vs, v.isValue = true)
    (hu : u ∈ (ofPrints vs).subterms) (he : e.isValue = false) (hmem : e ∈ u.parts) :
    ∃ v, u = print e v ∧ v.isValue = true := by
  rcases isValue_or_prefix hvs hu with hval | ⟨ws, hws, rfl⟩
  · rw [isValue_of_mem_subterms hval (mem_subterms_of_mem_parts hmem)] at he
    cases he
  · rcases ofPrints_cases ws with h | ⟨us, v, rfl, h⟩
    · rw [h] at hmem
      cases hmem
    · have hv : v.isValue = true := hvs v (hws.subset (by simp))
      rw [h] at hmem ⊢
      rcases List.mem_pair.1 hmem with rfl | rfl
      · exact ⟨v, rfl, hv⟩
      · rw [hv] at he
        cases he

/-- No effect of a chain is referred to twice. -/
theorem count_references_of_effect {e : Term} (hvs : ∀ v ∈ vs, v.isValue = true)
    (h : Unfolds (ofPrints vs).flatten i e) (he : e.isValue = false) :
    (references (ofPrints vs).flatten).count (i : Int) ≤ 1 := by
  have hc := (ofPrints vs).flatten_compact
  choose! f hf using (ofPrints vs).flatten_wellFormed
  rw [count_references (ofPrints vs).flatten_wellFormed hc hf h.lt, (hf i h.lt).unique h]
  have hprint : ∀ k, k < (ofPrints vs).flatten.length → e ∈ (f k).parts →
      ∃ v, f k = print e v ∧ v.isValue = true := by
    intro k hk hmem
    exact eq_print_of_mem_parts hvs (mem_subterms_of_unfolds (hf k hk)) he hmem
  by_cases hex : ∃ k, k < (ofPrints vs).flatten.length ∧ e ∈ (f k).parts
  · obtain ⟨k, hk, hmem⟩ := hex
    obtain ⟨v, hkv, hv⟩ := hprint k hk hmem
    rw [Finset.sum_eq_single k]
    · have hne : v ≠ e := by
        rintro rfl
        rw [hv] at he
        cases he
      simp [hkv, parts, hne]
    · -- the effect is followed by one print only, which has one position
      intro m hm hmk
      refine List.count_eq_zero_of_not_mem fun hmem' => hmk ?_
      have hm' := Finset.mem_range.1 hm
      obtain ⟨v', hmv, -⟩ := hprint m hm' hmem'
      have huk := hf k hk
      have hum := hf m hm'
      rw [hkv] at huk
      rw [hmv] at hum
      rw [print_unique hvs (mem_subterms_of_unfolds hum) (mem_subterms_of_unfolds huk)] at hum
      exact hc.index_unique hum huk
    · intro hk'
      exact absurd (Finset.mem_range.2 hk) hk'
  · have hzero : ∑ k ∈ Finset.range (ofPrints vs).flatten.length, (f k).parts.count e = 0 := by
      refine Finset.sum_eq_zero fun k hk => List.count_eq_zero_of_not_mem fun hmem => ?_
      exact hex ⟨k, Finset.mem_range.1 hk, hmem⟩
    omega

/-- An effect of a chain has no temporary. -/
theorem temporary?_of_effect {e : Term} (hvs : ∀ v ∈ vs, v.isValue = true)
    (h : Unfolds (ofPrints vs).flatten i e) (he : e.isValue = false) :
    temporary? options (ofPrints vs).flatten i = none := by
  have hcount := count_references_of_effect hvs h he
  exact if_neg fun h => absurd h.1 (by omega)

theorem spelled_ofPrints (name : Term → Option String) (ws : List Term) :
    (ofPrints ws).spelled name = Work.effectExpr := by
  rcases ofPrints_cases ws with h | ⟨us, v, -, h⟩
  · rw [h]; rfl
  · rw [h]; rfl

/-- Nothing is read when an effect is handed out. -/
theorem quoted_of_effect {ws : List Term} (hvs : ∀ v ∈ vs, v.isValue = true)
    (h : Unfolds (ofPrints vs).flatten i (ofPrints ws)) :
    (ofPrints ws).quoted (nameIn options (ofPrints vs).flatten) = Work.effectExpr := by
  rw [quoted_of_none, spelled_ofPrints]
  rw [nameIn_of_unfolds (ofPrints vs).flatten_wellFormed (ofPrints vs).flatten_compact h]
  exact temporary?_of_effect hvs h (isValue_ofPrints ws)

/-- All positions but the root are referred to. -/
theorem one_le_count_references (t : Term) (hi : i < t.flatten.length)
    (hroot : i ≠ t.flatten.length - 1) : 1 ≤ (references t.flatten).count (i : Int) := by
  rcases (t.flatten_reaches hi).cases_tail with heq | ⟨m, -, node, hn, hmem⟩
  · exact absurd heq hroot
  · exact List.count_pos_iff.2 (List.mem_flatMap.2 ⟨node, List.mem_of_getElem? hn, hmem⟩)

/-- An expression without a temporary is used once, if it weighs anything. -/
theorem weight_of_unnamed {w : Expr → Nat} {name : Term → Option String}
    (hvs : ∀ v ∈ vs, v.isValue = true)
    (hf : ∀ i, i < (ofPrints vs).flatten.length → Unfolds (ofPrints vs).flatten i (f i))
    (hnum : ∀ n, w (.num n) = 0) (hi : i < (ofPrints vs).flatten.length)
    (ht : temporary? options (ofPrints vs).flatten i = none) :
    (references (ofPrints vs).flatten).count (i : Int) * w ((f i).spelled name) =
      w ((f i).spelled name) := by
  have hu := hf i hi
  have hsub := mem_subterms_of_unfolds hu
  rcases isValue_or_prefix hvs hsub with hval | ⟨ws, hws, heq⟩
  · by_cases hin : Inlined options (ofPrints vs).flatten i
    · -- a number that is written in place weighs nothing
      obtain ⟨-, node, hn, hkind⟩ := hin
      have hzero : w ((f i).spelled name) = 0 := by
        generalize f i = t at hu
        cases hu with
        | num h _ => exact hnum _
        | symbol h | silent h | arg h _ _ | bin h _ _ _ _ | print h _ _ _ _ =>
            obtain rfl := Option.some.inj (hn.symm.trans h)
            cases hkind
      rw [hzero, Nat.mul_zero]
    · have hroot : i ≠ (ofPrints vs).flatten.length - 1 := by
        rintro rfl
        rw [hu.unique (ofPrints vs).flatten_unfolds, isValue_ofPrints] at hval
        cases hval
      have hpos := one_le_count_references (ofPrints vs) hi hroot
      have hle : ¬ 2 ≤ (references (ofPrints vs).flatten).count (i : Int) := by
        intro hle
        rw [temporary?, if_pos ⟨hle, hin⟩] at ht
        cases ht
      rw [show (references (ofPrints vs).flatten).count (i : Int) = 1 by omega, Nat.one_mul]
  · rw [heq, spelled_ofPrints, show w Work.effectExpr = 0 from hnum 0, Nat.mul_zero]

/-- **The weight of the residual program of a chain**: that of its nodes by themselves, and that of
each temporary, once for each reference. -/
theorem weight_residual (w : Expr → Nat) (own : Term → Nat) {ss : Block}
    (hvs : ∀ v ∈ vs, v.isValue = true)
    (hf : ∀ i, i < (ofPrints vs).flatten.length → Unfolds (ofPrints vs).flatten i (f i))
    (hss : (residual options (ofPrints vs).flatten).result = .ok ss)
    (hnum : ∀ n, w (.num n) = 0)
    (hown : ∀ u ∈ (ofPrints vs).subterms, u.isValue = true →
      w (u.spelled (nameIn options (ofPrints vs).flatten)) =
        own u + (u.parts.map fun v => w (v.quoted (nameIn options (ofPrints vs).flatten))).sum) :
    ss.weight w =
      ∑ i ∈ Finset.range (ofPrints vs).flatten.length,
        (if (f i).isValue = true then own (f i) else 0) +
      ∑ i ∈ Finset.range (ofPrints vs).flatten.length,
        (temporary? options (ofPrints vs).flatten i).elim 0 fun s =>
          (references (ofPrints vs).flatten).count (i : Int) * w (.var s) := by
  have hw := (ofPrints vs).flatten_wellFormed
  have hc := (ofPrints vs).flatten_compact
  have hemits := emits_of_residual hss (keeps_spelled hw hc)
  have heq := hemits.eq_statements hw hc hf (List.nil_append _).symm rfl
  generalize hname : nameIn options (ofPrints vs).flatten = name at heq hown
  have hstatements : ss.weight w = ∑ i ∈ Finset.range (ofPrints vs).flatten.length,
      ((f i).statements name).weight w := by
    rw [heq, Block.weight_flatMap, ← List.range_eq_range']
    rfl
  -- what is written and what is left comes from the nodes and from what is handed out
  have hmade : ∀ i ∈ Finset.range (ofPrints vs).flatten.length,
      ((f i).statements name).weight w +
          (if name (f i) = none then w ((f i).spelled name) else 0) =
        (if (f i).isValue = true then own (f i) else 0) +
          ((f i).parts.map fun v => w (v.quoted name)).sum := by
    intro i hi
    have hi' := Finset.mem_range.1 hi
    have hsub := mem_subterms_of_unfolds (hf i hi')
    refine weight_statements hnum (hown _ hsub) ?_
    rcases isValue_or_prefix hvs hsub with hval | ⟨ws, -, hfi⟩
    · exact .inl hval
    · rcases ofPrints_cases ws with hws | ⟨us, v, -, hws⟩
      · exact .inr (.inl (hfi.trans hws))
      · refine .inr (.inr ⟨_, v, hfi.trans hws, ?_⟩)
        have hu := hf i hi'
        rw [hfi, hws] at hu
        cases hu with
        | print _ _ _ he _ =>
            rw [← hname, quoted_of_effect hvs he]
            exact hnum 0
  -- what is handed out is what is left, and the temporaries
  have hhanded : ∀ i ∈ Finset.range (ofPrints vs).flatten.length,
      (references (ofPrints vs).flatten).count (i : Int) * w ((f i).quoted name) =
        (if name (f i) = none then w ((f i).spelled name) else 0) +
          (temporary? options (ofPrints vs).flatten i).elim 0 fun s =>
            (references (ofPrints vs).flatten).count (i : Int) * w (.var s) := by
    intro i hi
    have hi' := Finset.mem_range.1 hi
    have hnamed : name (f i) = temporary? options (ofPrints vs).flatten i := by
      rw [← hname, nameIn_of_unfolds hw hc (hf i hi')]
    cases ht : temporary? options (ofPrints vs).flatten i with
    | none =>
        rw [hnamed, ht, quoted_of_none (hnamed.trans ht)]
        simpa using weight_of_unnamed hvs hf hnum hi' ht
    | some s =>
        rw [hnamed, ht, quoted_of_some (hnamed.trans ht)]
        simp
  have hsum := Finset.sum_congr rfl hmade
  rw [Finset.sum_add_distrib, Finset.sum_add_distrib, sum_parts hw hf,
    Finset.sum_congr rfl hhanded, Finset.sum_add_distrib] at hsum
  omega

/-! ## Counting -/

variable {name : Term → Option String} {t : Term} {θ : String → Term}

/-- A value without symbols reads what is handed out for its parts. -/
theorem count_reads_spelled (x : String) (ht : t.isValue = true) (hs : t.symbols = []) :
    (t.spelled name).reads.count x =
      (t.parts.map fun v => (v.quoted name).reads.count x).sum := by
  cases t with
  | num n => rfl
  | symbol s => cases hs
  | silent | print e v => cases ht
  | arg j => simp [parts, spelled, quoted, Expr.reads]
  | bin op l r => simp [parts, spelled, quoted, Expr.reads]

/-- A value without symbols computes itself, if it takes an operation, and what is handed out for
its parts. -/
theorem count_operations_spelled (u : Term) (hθ : ∀ u s, name u = some s → θ s = u)
    (ht : t.isValue = true) (hs : t.symbols = []) :
    ((t.spelled name).operations θ).count u =
      (if t = u ∧ t.isOperation = true then 1 else 0) +
        (t.parts.map fun v => ((v.quoted name).operations θ).count u).sum := by
  have hparts : ∀ v ∈ t.parts, (v.quoted name).resolve θ = v := fun v hv =>
    resolve_part hθ ht hs hv
  cases t with
  | num n => simp [parts, spelled, Expr.operations, isOperation]
  | symbol s => cases hs
  | silent | print e v => cases ht
  | arg j =>
      show (Expr.operations θ (.input (j.quoted name))).count u = _
      rw [Expr.operations, hparts j (by simp [parts]), List.count_cons]
      simp [parts, isOperation, Nat.add_comm]
  | bin op l r =>
      show (Expr.operations θ (.bin op (l.quoted name) (r.quoted name))).count u = _
      rw [Expr.operations, hparts l (by simp [parts]), hparts r (by simp [parts]), List.count_cons]
      simp [parts, isOperation, Nat.add_comm]

/-- A subterm has one position in a shared form. -/
theorem sum_positions (t u : Term)
    (hf : ∀ i, i < t.flatten.length → Unfolds t.flatten i (f i)) :
    ∑ i ∈ Finset.range t.flatten.length, (if f i = u then 1 else 0) =
      if u ∈ t.subterms then 1 else 0 := by
  by_cases hu : u ∈ t.subterms
  · obtain ⟨j, -, hj⟩ := t.flatten_unfolds.reaches_subterm hu
    rw [if_pos hu, Finset.sum_eq_single j]
    · rw [if_pos ((hf j hj.lt).unique hj)]
    · intro k hk hkj
      refine if_neg fun heq => hkj ?_
      exact t.flatten_compact.index_unique (heq ▸ hf k (Finset.mem_range.1 hk)) hj
    · intro hj'
      exact absurd (Finset.mem_range.2 hj.lt) hj'
  · rw [if_neg hu]
    refine Finset.sum_eq_zero fun i hi => if_neg ?_
    rintro rfl
    exact hu (mem_subterms_of_unfolds (hf i (Finset.mem_range.1 hi)))

/-- An operation in a chain is a value. -/
theorem isValue_of_isOperation (hvs : ∀ v ∈ vs, v.isValue = true)
    (hu : u ∈ (ofPrints vs).subterms) (hop : u.isOperation = true) : u.isValue = true := by
  rcases isValue_or_prefix hvs hu with hval | ⟨ws, -, rfl⟩
  · exact hval
  · rcases ofPrints_cases ws with hws | ⟨us, v, -, hws⟩
    · rw [hws] at hop
      cases hop
    · rw [hws] at hop
      cases hop

/-- A temporary is read once for each reference to its position. -/
theorem count_reads {ss : Block} {x : String} (hvs : ∀ v ∈ vs, v.isValue = true)
    (hsymbols : (ofPrints vs).symbols = [])
    (hss : (residual options (ofPrints vs).flatten).result = .ok ss)
    (hx : temporary? options (ofPrints vs).flatten i = some x) :
    (ss.values.flatMap Expr.reads).count x =
      (references (ofPrints vs).flatten).count (i : Int) := by
  choose! f hf using (ofPrints vs).flatten_wellFormed
  have hown : ∀ u ∈ (ofPrints vs).subterms, u.isValue = true →
      (u.spelled (nameIn options (ofPrints vs).flatten)).reads.count x = 0 +
        (u.parts.map fun v =>
          (v.quoted (nameIn options (ofPrints vs).flatten)).reads.count x).sum := by
    intro u hu hval
    rw [count_reads_spelled x hval (symbols_of_mem_subterms hsymbols hu), Nat.zero_add]
  rw [List.count_flatMap]
  refine (weight_residual (fun e => e.reads.count x) (fun _ => 0) hvs hf hss (fun _ => rfl)
    hown).trans ?_
  have hi := temporary?_lt (ofPrints vs).flatten_wellFormed hx
  rw [Finset.sum_eq_zero fun _ _ => ite_self 0, Nat.zero_add, Finset.sum_eq_single i]
  · simp [hx, Expr.reads]
  · intro j _ hj
    cases hy : temporary? options (ofPrints vs).flatten j with
    | none => rfl
    | some y =>
        have hne : y ≠ x := fun h => hj (temporary?_injective hy (h ▸ hx))
        simp [Expr.reads, hne]
  · intro hi'
    exact absurd (Finset.mem_range.2 hi) hi'

/-- Every operator and argument read of a chain without symbols is computed once, and nothing
else. -/
theorem count_operations {ss : Block} (hvs : ∀ v ∈ vs, v.isValue = true)
    (hsymbols : (ofPrints vs).symbols = [])
    (hss : (residual options (ofPrints vs).flatten).result = .ok ss)
    (hθ : StandFor options (ofPrints vs).flatten θ) :
    (ss.values.flatMap (Expr.operations θ)).count u =
      if u ∈ (ofPrints vs).subterms ∧ u.isOperation = true then 1 else 0 := by
  choose! f hf using (ofPrints vs).flatten_wellFormed
  have hnames := hθ.of_nameIn (ofPrints vs).flatten_wellFormed
  rw [List.count_flatMap]
  refine (weight_residual (fun e => (e.operations θ).count u)
    (fun t => if t = u ∧ t.isOperation = true then 1 else 0) hvs hf hss (fun _ => rfl)
    fun t ht hval => count_operations_spelled u hnames hval
      (symbols_of_mem_subterms hsymbols ht)).trans ?_
  -- reading a temporary computes nothing
  have hreads : ∑ i ∈ Finset.range (ofPrints vs).flatten.length,
      ((temporary? options (ofPrints vs).flatten i).elim 0 fun s =>
        (references (ofPrints vs).flatten).count (i : Int) *
          (Expr.operations θ (.var s)).count u) = 0 := by
    refine Finset.sum_eq_zero fun i _ => ?_
    cases temporary? options (ofPrints vs).flatten i <;> rfl
  rw [hreads, Nat.add_zero]
  by_cases hop : u.isOperation = true
  · simp only [hop, and_true]
    rw [← sum_positions _ u hf]
    refine Finset.sum_congr rfl fun i hi => ?_
    have hsub := mem_subterms_of_unfolds (hf i (Finset.mem_range.1 hi))
    by_cases heq : f i = u
    · rw [heq] at hsub ⊢
      simp [hop, isValue_of_isOperation hvs hsub hop]
    · simp [heq]
  · rw [if_neg fun h => hop h.2]
    refine Finset.sum_eq_zero fun i _ => ?_
    have hne : ¬ (f i = u ∧ (f i).isOperation = true) := by
      rintro ⟨rfl, h⟩
      exact hop h
    simp [hne]

end Term

/-! ## The order of assignments and reads -/

section

variable {options : ResidualOptions} {nodes rest : List Node} {k : Nat} {ss : List Stmt}

/-- Without symbols, an expression reads the temporaries of earlier positions only, and what is
handed out for a position reads nothing later than it. -/
theorem keeps_earlier (hsymbols : ∀ i s, ¬ Unfolds nodes i (.symbol s)) :
    Keeps options nodes
      (fun i e => ∀ x ∈ e.reads, ∃ j, j ≤ i ∧ temporary? options nodes j = some x)
      (fun i e => ∀ x ∈ e.reads, ∃ j, j < i ∧ temporary? options nodes j = some x) where
  made _ h x hx := by
    obtain ⟨j, hj, ht⟩ := h x hx
    exact ⟨j, Nat.le_of_lt hj, ht⟩
  named {i s} ht x hx := by
    rw [List.mem_singleton.1 hx]
    exact ⟨i, Nat.le_refl i, ht⟩
  num _ _ x hx := by cases hx
  symbol hn := absurd (.symbol hn) (hsymbols _ _)
  bin _ hj hk hl hr x hx := by
    rcases List.mem_append.1 hx with hx | hx
    · obtain ⟨m, hm, ht⟩ := hl x hx
      exact ⟨m, by omega, ht⟩
    · obtain ⟨m, hm, ht⟩ := hr x hx
      exact ⟨m, by omega, ht⟩
  arg _ hj he x hx := by
    obtain ⟨m, hm, ht⟩ := he x hx
    exact ⟨m, by omega, ht⟩
  effect _ _ x hx := by cases hx

/-- What is written for some nodes reads and assigns the temporaries of these and of earlier
positions. -/
theorem Emits.earlier (h : Emits options nodes
      (fun i e => ∀ x ∈ e.reads, ∃ j, j ≤ i ∧ temporary? options nodes j = some x)
      (fun i e => ∀ x ∈ e.reads, ∃ j, j < i ∧ temporary? options nodes j = some x) k rest ss)
    {e : Expr} (he : e ∈ Block.values ss) {x : String} (hx : x ∈ e.reads) :
    ∃ j, j < k + rest.length ∧ temporary? options nodes j = some x := by
  obtain ⟨s, hs, hse⟩ := List.mem_filterMap.1 he
  rcases h.of_mem hs with ⟨i, e', hi, hP, rfl⟩ | ⟨i, y, e', -, hi, -, hQ, rfl⟩
  · cases hse
    obtain ⟨j, hj, ht⟩ := hP x hx
    exact ⟨j, by omega, ht⟩
  · cases hse
    obtain ⟨j, hj, ht⟩ := hQ x hx
    exact ⟨j, by omega, ht⟩

/-- Temporaries are assigned by the nodes that they belong to. -/
theorem Emits.targets {P Q : Nat → Expr → Prop} (h : Emits options nodes P Q k rest ss)
    {x : String} (hx : x ∈ Block.targets ss) :
    ∃ i, k ≤ i ∧ i < k + rest.length ∧ temporary? options nodes i = some x := by
  obtain ⟨s, hs, hxs⟩ := Block.mem_targets.1 hx
  rcases h.of_mem hs with ⟨i, e, -, -, rfl⟩ | ⟨i, y, e, hk, hi, ht, -, rfl⟩
  · cases hxs
  · rw [List.mem_singleton.1 hxs]
    exact ⟨i, hk, hi, ht⟩

end

/-- A variable is assigned once, before it is read, and is read `n` times. -/
def Block.Shares (b : Block) (x : String) (n : Nat) : Prop :=
  ∃ before e after, b = before ++ .assign x e :: after ∧
    x ∉ Block.targets before ∧ x ∉ Block.targets after ∧
    (∀ e' ∈ Block.values before ++ [e], x ∉ e'.reads) ∧
    ((Block.values after).flatMap Expr.reads).count x = n

namespace Term

variable {vs : List Term} {options : ResidualOptions} {ss : Block}

/-- A temporary is shared by the references to its position. -/
theorem shares_of_temporary {i : Nat} {x : String} (hvs : ∀ v ∈ vs, v.isValue = true)
    (hsymbols : (ofPrints vs).symbols = [])
    (hss : (residual options (ofPrints vs).flatten).result = .ok ss)
    (hx : temporary? options (ofPrints vs).flatten i = some x) :
    ss.Shares x ((references (ofPrints vs).flatten).count (i : Int)) := by
  have hi := temporary?_lt (ofPrints vs).flatten_wellFormed hx
  have hnone : ∀ j s, ¬ Unfolds (ofPrints vs).flatten j (.symbol s) := by
    intro j s hs
    cases symbols_of_mem_subterms hsymbols (mem_subterms_of_unfolds hs)
  have hemits := emits_of_residual hss (keeps_earlier hnone)
  have hreads := count_reads hvs hsymbols hss hx
  obtain ⟨before, prints, e, after, node, rfl, hp, he, hbefore, hafter⟩ :=
    hemits.split (Nat.zero_le i) (by omega)
  have hlen : 0 + ((ofPrints vs).flatten.take (i - 0)).length = i := by
    rw [List.length_take]
    omega
  -- a position that has this temporary is the one at hand
  have honly : ∀ j, temporary? options (ofPrints vs).flatten j = some x → j = i := fun j hj =>
    temporary?_injective hj hx
  have hunread : ∀ e' ∈ Block.values (before ++ prints) ++ [e], x ∉ e'.reads := by
    intro e' he' hxe
    rw [Block.values_append, List.append_assoc] at he'
    rcases List.mem_append.1 he' with he' | he'
    · obtain ⟨j, hj, ht⟩ := hbefore.earlier he' hxe
      have := honly j ht
      omega
    · rcases List.mem_append.1 he' with he' | he'
      · cases hp with
        | nothing => cases he'
        | value hk hv =>
            rw [List.mem_singleton.1 he'] at hxe
            obtain ⟨j, hj, ht⟩ := hv x hxe
            have := honly j ht
            omega
      · rw [List.mem_singleton.1 he'] at hxe
        obtain ⟨j, hj, ht⟩ := he x hxe
        have := honly j ht
        omega
  refine ⟨before ++ prints, e, after, by simp [hx, assignTo], ?_, ?_, hunread, ?_⟩
  · intro hmem
    obtain ⟨s, hs, hxs⟩ := Block.mem_targets.1 hmem
    rcases List.mem_append.1 hs with hs | hs
    · obtain ⟨j, -, hj, ht⟩ := hbefore.targets (Block.mem_targets.2 ⟨s, hs, hxs⟩)
      have := honly j ht
      omega
    · cases hp with
      | nothing => cases hs
      | value _ _ =>
          rw [List.mem_singleton.1 hs] at hxs
          cases hxs
  · intro hmem
    obtain ⟨j, hj, -, ht⟩ := hafter.targets hmem
    have := honly j ht
    omega
  · have hvalues : Block.values
        (before ++ (prints ++ assignTo (temporary? options (ofPrints vs).flatten i) e) ++ after) =
        (Block.values (before ++ prints) ++ [e]) ++ Block.values after := by
      simp [hx, assignTo, Block.values, Stmt.value?]
    have hzero : ((Block.values (before ++ prints) ++ [e]).flatMap Expr.reads).count x = 0 := by
      refine List.count_eq_zero_of_not_mem fun hmem => ?_
      obtain ⟨e', he', hxe⟩ := List.mem_flatMap.1 hmem
      exact hunread e' he' hxe
    rw [hvalues, List.flatMap_append, List.count_append, hzero, Nat.zero_add] at hreads
    exact hreads

/-- **Sharing is preserved exactly.** Take a chain of effects that prints values without symbols.
Whatever the temporaries are called, and whether numbers are written in place or not, its shared
form has a residual program, which is made of assignments and prints. A position that is referred to
at least twice, and is no number written in place, has a temporary that is assigned once, before it
is read, and is read once for each reference; nothing else is assigned. If the temporaries stand for
the terms of their positions, then they are assigned these terms, and each operator, comparison and
argument read of the chain is computed exactly once. -/
theorem residual_shares {vs : List Term}
    (hvs : ∀ v ∈ vs, v.isValue = true ∧ v.symbols = []) (options : ResidualOptions) :
    ∃ (ss : Block) (θ : String → Term),
      (residual options (ofPrints vs).flatten).result = .ok ss ∧ ss.StraightLine ∧
      (∀ i : Nat, 2 ≤ (references (ofPrints vs).flatten).count (i : Int) →
        ¬ Inlined options (ofPrints vs).flatten i →
        ss.Shares (options.stem ++ toString (i : Int))
          ((references (ofPrints vs).flatten).count (i : Int))) ∧
      (∀ x ∈ ss.targets, ∃ i : Nat, 2 ≤ (references (ofPrints vs).flatten).count (i : Int) ∧
        ¬ Inlined options (ofPrints vs).flatten i ∧ x = options.stem ++ toString (i : Int)) ∧
      StandFor options (ofPrints vs).flatten θ ∧
      (∀ x e, .assign x e ∈ ss → e.resolve θ = θ x) ∧
      ∀ u, (ss.values.flatMap (Expr.operations θ)).count u =
        if u ∈ (ofPrints vs).subterms ∧ u.isOperation = true then 1 else 0 := by
  have hw := (ofPrints vs).flatten_wellFormed
  have hvalues : ∀ v ∈ vs, v.isValue = true := fun v hv => (hvs v hv).1
  have hsymbols : (ofPrints vs).symbols = [] := by
    rw [symbols_ofPrints]
    exact List.flatMap_eq_nil_iff.2 fun v hv => (hvs v hv).2
  obtain ⟨ss, hss⟩ := (ofPrints vs).residual_ok options
  obtain ⟨θ, hθ⟩ := exists_standFor options (ofPrints vs).flatten
  have hemits := emits_of_residual hss (keeps_spelled hw (ofPrints vs).flatten_compact)
  refine ⟨ss, θ, hss, ?_, ?_, ?_, hθ, ?_, fun u => count_operations hvalues hsymbols hss hθ⟩
  · intro s hs
    rcases hemits.of_mem hs with ⟨i, e, -, -, rfl⟩ | ⟨i, x, e, -, -, -, -, rfl⟩
    · trivial
    · trivial
  · intro i hcount hin
    exact shares_of_temporary hvalues hsymbols hss (if_pos ⟨hcount, hin⟩)
  · intro x hx
    obtain ⟨i, -, -, ht⟩ := hemits.targets hx
    exact ⟨i, temporary?_eq_some ht⟩
  · intro x e hmem
    rcases hemits.of_mem hmem with ⟨i, e', -, -, heq⟩ | ⟨i, y, e', -, -, hy, he, heq⟩
    · cases heq
    · obtain ⟨rfl, rfl⟩ := Stmt.assign.inj heq
      obtain ⟨u, hu⟩ := hw i (temporary?_lt hw hy)
      have hval : u.isValue = true := by
        cases hval : u.isValue with
        | true => rfl
        | false =>
            rw [temporary?_of_effect hvalues hu hval] at hy
            cases hy
      have hsub := mem_subterms_of_unfolds hu
      rw [he u hu, hθ i x u hy hu]
      exact resolve_spelled (hθ.of_nameIn hw) hval (symbols_of_mem_subterms hsymbols hsub)

/-- The argument of the doubles is read three times and computed once. -/
theorem sharedDoubles_shares :
    (∀ v ∈ sharedDoubles, v.isValue = true ∧ v.symbols = []) ∧
    ∃ ss, (residual ⟨"t", true⟩ (ofPrints sharedDoubles).flatten).result = .ok ss ∧
      ss.Shares "t2" 3 := by
  have hvs : ∀ v ∈ sharedDoubles, v.isValue = true ∧ v.symbols = [] := by decide
  obtain ⟨ss, θ, hss, -, hshares, -⟩ := residual_shares hvs ⟨"t", true⟩
  exact ⟨hvs, ss, hss, hshares 2 (by decide) (by decide)⟩

end Term

end WhileLang
