import WhileLang.Proofs.Bench
import WhileLang.Proofs.StraightLine

/-!
# Residual programs compute what their terms denote

Under a reading, a position of a node list means what its term denotes. An expression is right for
a position if it evaluates to that meaning in every store that has the temporaries of the earlier
positions in it. The work on the bench keeps this up: an expression is built from expressions that
are right for earlier positions, and a temporary is assigned before anything later is made.

So the residual program of a chain of effects prints what the chain denotes, link by link, and a
program without symbols reads no name that it does not assign.

* `NodeMeans`: the meaning of a position; `Stocked`: a store with the temporaries in it; `Right`:
  an expression is right for a position.
* `Outputs`: the values that the prints of some nodes show, in order.
* `Emits.perform`: the statements written for some nodes show them.
* `Term.flatten_outputs`: the prints of a chain show what the chain denotes.
* `Term.residual_performs`, `Term.residual_accepted`: the residual program of a term.
-/

namespace WhileLang

/-! ## Meanings of subterms -/

namespace Term

variable {ρ : Reading} {t u : Term}

/-- The term with its numbers reduced to words, as expressions evaluate them. -/
def reduced : Term → Term
  | num n => num (Word.wrap n)
  | symbol s => symbol s
  | bin op l r => bin op l.reduced r.reduced
  | arg i => arg i.reduced
  | silent => silent
  | print e v => print e.reduced v.reduced

theorem reduced_eq_self (h : t.inWords = true) : t.reduced = t := by
  induction t with
  | num n => rw [reduced, Word.wrap_eq_self (of_decide_eq_true h)]
  | symbol | silent => rfl
  | arg i ih => rw [reduced, ih h]
  | bin op l r ihl ihr | print l r ihl ihr =>
      obtain ⟨hl, hr⟩ := Bool.and_eq_true_iff.1 h
      rw [reduced, ihl hl, ihr hr]

theorem denote_of_mem_subterms {m : Meaning} (h : t.reduced.denote ρ = some m)
    (hu : u ∈ t.subterms) : ∃ m', u.reduced.denote ρ = some m' := by
  refine of_mem_subterms (P := fun u => ∃ m', u.reduced.denote ρ = some m') ?_ ?_ ?_ ⟨m, h⟩ hu
  · rintro i ⟨m, h⟩
    obtain ⟨a, ha, -⟩ := denote_arg_eq_some h
    exact ⟨a, ha⟩
  · rintro op l r ⟨m, h⟩
    obtain ⟨a, b, ha, hb, -⟩ := denote_bin_eq_some h
    exact ⟨⟨a, ha⟩, b, hb⟩
  · rintro e v ⟨m, h⟩
    obtain ⟨a, b, ha, hb, -⟩ := denote_print_eq_some h
    exact ⟨⟨a, ha⟩, b, hb⟩

/-- What denotes a value has no effect in it. -/
theorem isValue_of_denote {n : Int} (h : t.reduced.denote ρ = some (.value n)) :
    t.isValue = true := by
  induction t generalizing n with
  | num | symbol => rfl
  | silent => cases h
  | arg i ih =>
      obtain ⟨a, ha, hm⟩ := denote_arg_eq_some h
      obtain ⟨x, -, rfl, -⟩ := Meaning.fetch_eq_some hm
      exact ih ha
  | bin op l r ihl ihr =>
      obtain ⟨a, b, ha, hb, hm⟩ := denote_bin_eq_some h
      obtain ⟨x, y, rfl, rfl, -⟩ := Meaning.apply_eq_some hm
      rw [isValue, ihl ha, ihr hb]
      rfl
  | print e v _ _ =>
      obtain ⟨a, b, -, -, hm⟩ := denote_print_eq_some h
      obtain ⟨out, x, -, -, heq⟩ := Meaning.print_eq_some hm
      cases heq

theorem isValue_of_sort (h : t.sort? = some .value) : t.isValue = true := by
  induction t with
  | num | symbol => rfl
  | silent => cases h
  | arg i ih =>
      simp only [sort?, Option.ite_none_right_eq_some] at h
      exact ih h.1
  | bin op l r ihl ihr =>
      simp only [sort?, Option.ite_none_right_eq_some] at h
      simp [isValue, ihl h.1.1, ihr h.1.2]
  | print e v _ _ => simp [sort?] at h

theorem symbols_of_mem_subterms (h : t.symbols = []) (hu : u ∈ t.subterms) : u.symbols = [] := by
  refine of_mem_subterms (P := fun u => u.symbols = []) ?_ ?_ ?_ h hu
  · exact fun h => h
  · exact fun h => List.append_eq_nil_iff.1 h
  · exact fun h => List.append_eq_nil_iff.1 h

end Term

/-! ## Right expressions -/

/-- A position of a node list means what its term denotes, with numbers reduced to words. -/
def NodeMeans (ρ : Reading) (nodes : List Node) (i : Nat) (m : Meaning) : Prop :=
  ∃ t, Unfolds nodes i t ∧ t.reduced.denote ρ = some m

/-- A value shows a meaning: it is the one meant. For what has been printed any will do. -/
def Meaning.Shows : Meaning → Int → Prop
  | value n, v => v = n
  | printed _, _ => True

/-- A store has the symbols in it, and the temporaries of all positions before a given one. -/
structure Stocked (options : ResidualOptions) (nodes : List Node) (ρ : Reading) (k : Nat)
    (σ : Store) : Prop where
  temporary : ∀ {i : Nat} {s : String} {m : Meaning}, i < k →
    temporary? options nodes i = some s → NodeMeans ρ nodes i m → m.Shows (σ s)
  symbol : ∀ {s : String} {v : Int}, ρ.symbol s = some v → σ s = v

/-- In every store with the temporaries before position `k`, an expression evaluates to the
meaning of position `i`. -/
def Right (options : ResidualOptions) (nodes : List Node) (ρ : Reading) (args : List Int)
    (k i : Nat) (e : Expr) : Prop :=
  ∀ m σ, NodeMeans ρ nodes i m → Stocked options nodes ρ k σ →
    ∃ v, e.eval args σ = some v ∧ m.Shows v

section

variable {options : ResidualOptions} {nodes : List Node} {ρ : Reading} {args : List Int}

theorem NodeMeans.eq_denote {i : Nat} {m : Meaning} {t : Term} (h : NodeMeans ρ nodes i m)
    (ht : Unfolds nodes i t) : t.reduced.denote ρ = some m := by
  obtain ⟨u, hu, hm⟩ := h
  rw [ht.unique hu, hm]

theorem NodeMeans.bin {i j k : Nat} {op : BinOp} {label : Option Label} {m : Meaning}
    (h : NodeMeans ρ nodes i m)
    (hn : nodes[i]? = some ⟨.bin op, label, [(j : Int), (k : Int)]⟩) :
    ∃ x y, NodeMeans ρ nodes j (.value x) ∧ NodeMeans ρ nodes k (.value y) ∧
      m = .value (op.eval x y) := by
  obtain ⟨t, ht, hd⟩ := h
  obtain ⟨l, r, rfl, hl, hr⟩ := ht.of_bin hn
  obtain ⟨a, b, ha, hb, hm⟩ := Term.denote_bin_eq_some hd
  obtain ⟨x, y, rfl, rfl, rfl⟩ := Meaning.apply_eq_some hm
  exact ⟨x, y, ⟨l, hl, ha⟩, ⟨r, hr, hb⟩, rfl⟩

theorem NodeMeans.arg {i j : Nat} {label : Option Label} {m : Meaning} (h : NodeMeans ρ nodes i m)
    (hn : nodes[i]? = some ⟨.arg, label, [(j : Int)]⟩) :
    ∃ x v, NodeMeans ρ nodes j (.value x) ∧ ρ.argument x = some v ∧ m = .value v := by
  obtain ⟨t, ht, hd⟩ := h
  obtain ⟨u, rfl, hu⟩ := ht.of_arg hn
  obtain ⟨a, ha, hm⟩ := Term.denote_arg_eq_some hd
  obtain ⟨x, v, rfl, hv, rfl⟩ := Meaning.fetch_eq_some hm
  exact ⟨x, v, ⟨u, hu, ha⟩, hv, rfl⟩

/-- An effect means what has been printed. -/
theorem NodeMeans.effect {i : Nat} {node : Node} {m : Meaning} (h : NodeMeans ρ nodes i m)
    (hn : nodes[i]? = some node) (hk : node.kind = .silent ∨ node.kind = .print) :
    ∃ out, m = .printed out := by
  obtain ⟨t, ht, hd⟩ := h
  cases ht with
  | silent _ => exact ⟨[], (Option.some.inj hd).symm⟩
  | print _ _ _ _ _ =>
      obtain ⟨a, b, -, -, hm⟩ := Term.denote_print_eq_some hd
      obtain ⟨out, v, -, -, rfl⟩ := Meaning.print_eq_some hm
      exact ⟨_, rfl⟩
  | num h _ | symbol h | arg h _ _ | bin h _ _ _ _ =>
      obtain rfl := Option.some.inj (hn.symm.trans h)
      simp at hk

theorem Stocked.mono {k k' : Nat} {σ : Store} (h : Stocked options nodes ρ k σ) (hk : k' ≤ k) :
    Stocked options nodes ρ k' σ :=
  ⟨fun hi => h.temporary (Nat.lt_of_lt_of_le hi hk), h.symbol⟩

theorem Right.mono {k k' i : Nat} {e : Expr} (h : Right options nodes ρ args k i e)
    (hk : k ≤ k') : Right options nodes ρ args k' i e :=
  fun m σ hm hσ => h m σ hm (hσ.mono hk)

/-- An expression for a value evaluates to it. -/
theorem Right.eval_eq {k i : Nat} {e : Expr} {σ : Store} {n : Int}
    (h : Right options nodes ρ args k i e) (hm : NodeMeans ρ nodes i (.value n))
    (hσ : Stocked options nodes ρ k σ) : e.eval args σ = some n := by
  obtain ⟨v, hv, hshows⟩ := h _ σ hm hσ
  obtain rfl : v = n := hshows
  exact hv

/-- The work on the bench keeps up that expressions are right. -/
theorem keeps_right (hargs : ρ.argument = argument? args) :
    Keeps options nodes (fun i => Right options nodes ρ args (i + 1) i)
      (fun i => Right options nodes ρ args i i) where
  made _ h := h.mono (Nat.le_succ _)
  named ht m σ hm hσ := ⟨_, rfl, hσ.temporary (Nat.lt_succ_self _) ht hm⟩
  num hn hk m σ hm hσ := by
    obtain rfl := Option.some.inj (hm.eq_denote (.num hn hk))
    exact ⟨_, rfl, rfl⟩
  symbol hn m σ hm hσ := by
    obtain ⟨v, hv, rfl⟩ := Option.map_eq_some_iff.1 (hm.eq_denote (.symbol hn))
    exact ⟨_, rfl, hσ.symbol hv⟩
  bin hn hj hk hl hr m σ hm hσ := by
    obtain ⟨x, y, hx, hy, rfl⟩ := hm.bin hn
    have hl' := (hl.mono hj).eval_eq hx hσ
    have hr' := (hr.mono hk).eval_eq hy hσ
    exact ⟨_, by rw [Expr.eval, hl', hr']; rfl, rfl⟩
  arg hn hj he m σ hm hσ := by
    obtain ⟨x, v, hx, hv, rfl⟩ := hm.arg hn
    have he' := (he.mono hj).eval_eq hx hσ
    rw [hargs] at hv
    exact ⟨v, by rw [Expr.eval, he']; exact hv, rfl⟩
  effect hn hkind m σ hm hσ := by
    obtain ⟨out, rfl⟩ := hm.effect hn hkind
    exact ⟨_, rfl, trivial⟩

/-! ## What the statements do -/

/-- The values that the prints among some nodes show, in order. -/
inductive Outputs (ρ : Reading) (nodes : List Node) : List Node → List Int → Prop where
  | nil : Outputs ρ nodes [] []
  | skip {node : Node} {rest : List Node} {out : List Int} (h : node.kind ≠ .print)
      (hr : Outputs ρ nodes rest out) : Outputs ρ nodes (node :: rest) out
  | print {label : Option Label} {j k : Nat} {v : Int} {rest : List Node} {out : List Int}
      (hv : NodeMeans ρ nodes k (.value v)) (hr : Outputs ρ nodes rest out) :
      Outputs ρ nodes (⟨.print, label, [(j : Int), (k : Int)]⟩ :: rest) (v :: out)

theorem NodeMeans.unique {i : Nat} {m m' : Meaning} (h : NodeMeans ρ nodes i m)
    (h' : NodeMeans ρ nodes i m') : m = m' := by
  obtain ⟨t, ht, hm⟩ := h
  exact Option.some.inj (hm.symm.trans (h'.eq_denote ht))

/-- A store with the temporary of one more position in it. -/
theorem Stocked.update {k : Nat} {σ : Store} {m : Meaning} {s : String} {v : Int}
    (h : Stocked options nodes ρ k σ) (ht : temporary? options nodes k = some s)
    (hs : ρ.symbol s = none) (hm : NodeMeans ρ nodes k m) (hv : m.Shows v) :
    Stocked options nodes ρ (k + 1) (Function.update σ s v) where
  temporary := by
    intro i s' m' hi hs' hm'
    by_cases heq : i = k
    · subst heq
      obtain rfl := Option.some.inj (ht.symm.trans hs')
      rw [Function.update_self, hm'.unique hm]
      exact hv
    · -- no two positions share a temporary, so the earlier ones are not overwritten
      have hne : s' ≠ s := fun hss => heq (temporary?_injective hs' (hss ▸ ht))
      rw [Function.update_of_ne hne]
      exact h.temporary (by omega) hs' hm'
  symbol := by
    intro s' v' hs'
    have hne : s' ≠ s := by
      rintro rfl
      rw [hs] at hs'
      cases hs'
    rw [Function.update_of_ne hne]
    exact h.symbol hs'

/-- What is written when an expression is kept changes nothing but its temporary. -/
theorem Stocked.assignTo {k : Nat} {σ : Store} {m : Meaning} {e : Expr}
    (h : Stocked options nodes ρ k σ)
    (hfresh : ∀ i s, temporary? options nodes i = some s → ρ.symbol s = none)
    (hm : NodeMeans ρ nodes k m) (he : Right options nodes ρ args k k e) (out : List Int) :
    ∃ σ', Block.perform args (assignTo (temporary? options nodes k) e) σ out = some (σ', out) ∧
      Stocked options nodes ρ (k + 1) σ' := by
  cases ht : temporary? options nodes k with
  | none =>
      refine ⟨σ, rfl, fun hi hs hm => h.temporary ?_ hs hm, h.symbol⟩
      refine Nat.lt_of_le_of_ne (Nat.le_of_lt_succ hi) ?_
      rintro rfl
      rw [ht] at hs
      cases hs
  | some s =>
      obtain ⟨v, hv, hshows⟩ := he m σ hm h
      refine ⟨Function.update σ s v, ?_, h.update ht (hfresh k s ht) hm hshows⟩
      simp [WhileLang.assignTo, Block.perform, Stmt.perform, hv]

/-- What is written when the expression of a node is made shows its value if it is a print. -/
theorem Prints.perform {k : Nat} {node : Node} {ss : List Stmt} {rest : List Node}
    {σ : Store} {o : List Int}
    (h : Prints (fun i => Right options nodes ρ args (i + 1) i) k node ss)
    (hσ : Stocked options nodes ρ k σ) (ho : Outputs ρ nodes (node :: rest) o) (out : List Int) :
    ∃ shown o', o = shown ++ o' ∧ Outputs ρ nodes rest o' ∧
      Block.perform args ss σ out = some (σ, out ++ shown) := by
  cases h with
  | nothing h =>
      cases ho with
      | skip _ ho => exact ⟨[], o, rfl, ho, by simp [Block.perform]⟩
      | print _ _ => exact absurd rfl h
  | value hk hv =>
      cases ho with
      | skip h _ => exact absurd rfl h
      | print hm ho =>
          have he := (hv.mono hk).eval_eq hm hσ
          exact ⟨[_], _, rfl, ho, by simp [Block.perform, Stmt.perform, he]⟩

/-- **The statements written for some nodes show what their prints show.** -/
theorem Emits.perform {k : Nat} {rest : List Node} {ss : List Stmt} {σ : Store} {o : List Int}
    (h : Emits options nodes (fun i => Right options nodes ρ args (i + 1) i)
      (fun i => Right options nodes ρ args i i) k rest ss)
    (hfresh : ∀ i s, temporary? options nodes i = some s → ρ.symbol s = none)
    (hmeans : ∀ i, i < k + rest.length → ∃ m, NodeMeans ρ nodes i m)
    (hσ : Stocked options nodes ρ k σ) (ho : Outputs ρ nodes rest o) (out : List Int) :
    ∃ σ', Block.perform args ss σ out = some (σ', out ++ o) := by
  induction h generalizing σ o out with
  | nil =>
      cases ho
      exact ⟨σ, by simp [Block.perform]⟩
  | @cons k node rest prints ss e hp he hs ih =>
      rw [List.length_cons] at hmeans
      obtain ⟨m, hm⟩ := hmeans k (by omega)
      -- the print comes before the assignment, and reads earlier positions only
      obtain ⟨shown, o', rfl, ho', hprints⟩ := hp.perform hσ ho out
      obtain ⟨σ₁, hassign, hσ₁⟩ := hσ.assignTo hfresh hm he (out ++ shown)
      obtain ⟨σ', hrest⟩ := ih (fun i hi => hmeans i (by omega)) hσ₁ ho' (out ++ shown)
      refine ⟨σ', ?_⟩
      rw [Block.perform_append, Block.perform_append, hprints]
      simp only [Option.bind_some, hassign, hrest, List.append_assoc]

/-! ## Chains of effects -/

theorem NodeMeans.append {more : List Node} {i : Nat} {m : Meaning} (h : NodeMeans ρ nodes i m) :
    NodeMeans ρ (nodes ++ more) i m := by
  obtain ⟨t, ht, hm⟩ := h
  exact ⟨t, ht.append, hm⟩

theorem Outputs.widen {rest more : List Node} {o : List Int} (h : Outputs ρ nodes rest o) :
    Outputs ρ (nodes ++ more) rest o := by
  induction h with
  | nil => exact .nil
  | skip h _ ih => exact .skip h ih
  | print hv _ ih => exact .print hv.append ih

theorem Outputs.append {rest rest' : List Node} {o o' : List Int} (h : Outputs ρ nodes rest o)
    (h' : Outputs ρ nodes rest' o') : Outputs ρ nodes (rest ++ rest') (o ++ o') := by
  induction h with
  | nil => exact h'
  | skip h _ ih => exact .skip h ih
  | print hv _ ih => exact .print hv ih

/-- Nodes without a print show nothing. -/
theorem Outputs.none {rest : List Node} (h : ∀ node ∈ rest, node.kind ≠ .print) :
    Outputs ρ nodes rest [] := by
  induction rest with
  | nil => exact .nil
  | cons node rest ih =>
      obtain ⟨hnode, hrest⟩ := List.forall_mem_cons.1 h
      exact .skip hnode (ih hrest)

/-- The nodes that are added for a value show nothing. -/
theorem Flattened.not_print {v : Term} {out : List Node × Nat} {more : List Node}
    (h : Flattened v nodes out) (hv : v.isValue = true) (hmore : out.1 = nodes ++ more) :
    ∀ node ∈ more, node.kind ≠ .print := by
  intro node hnode
  obtain ⟨k, hk⟩ := List.getElem?_of_mem hnode
  have hn : out.1[nodes.length + k]? = some node := by
    rw [hmore, List.getElem?_append_right (by omega), Nat.add_sub_cancel_left, hk]
  obtain ⟨u, hu⟩ := h.wellFormed _ (List.getElem?_eq_some_iff.1 hn).1
  rcases h.only _ u hu with hold | hsub
  · exact absurd hold.lt (by omega)
  · exact (hu.kind_of_isValue (Term.isValue_of_mem_subterms hv hsub) hn).2

/-- **The prints of a chain of effects show what the chain denotes**, link by link. -/
theorem Term.flatten_outputs {t : Term} {o : List Int}
    (h : t.reduced.denote ρ = some (.printed o)) : Outputs ρ t.flatten t.flatten o := by
  induction t generalizing o with
  | num n => cases h
  | symbol s =>
      obtain ⟨v, -, heq⟩ := Option.map_eq_some_iff.1 h
      cases heq
  | bin op l r _ _ =>
      obtain ⟨a, b, -, -, hm⟩ := denote_bin_eq_some h
      obtain ⟨x, y, -, -, heq⟩ := Meaning.apply_eq_some hm
      cases heq
  | arg i _ =>
      obtain ⟨a, -, hm⟩ := denote_arg_eq_some h
      obtain ⟨x, v, -, -, heq⟩ := Meaning.fetch_eq_some hm
      cases heq
  | silent =>
      cases h
      exact .skip (by simp) .nil
  | print e v ihe _ =>
      obtain ⟨a, b, ha, hb, hm⟩ := denote_print_eq_some h
      obtain ⟨shown, x, rfl, rfl, heq⟩ := Meaning.print_eq_some hm
      obtain rfl := Meaning.printed.inj heq
      have hv := flattenInto_spec e.flatten_spec.wellFormed v
      obtain ⟨more, hmore⟩ := hv.grows
      have hvalue : NodeMeans ρ _ _ (.value x) := ⟨v, hv.root, hb⟩
      -- what is added for the value is silent, and the node of the link comes last
      have hshown : Outputs ρ (v.flattenInto e.flatten).1 (v.flattenInto e.flatten).1 shown := by
        rw [flatten, hmore, ← List.append_nil shown]
        exact (ihe ha).widen.append (.none (hv.not_print (isValue_of_denote hb) hmore))
      rw [flatten, flattenInto_print]
      exact hshown.widen.append (.print hvalue.append .nil)

end

/-! ## Residual programs of terms -/

theorem keeps_true (options : ResidualOptions) (nodes : List Node) :
    Keeps options nodes (fun _ _ => True) (fun _ _ => True) := by
  constructor <;> simp

namespace Term

/-- Every term has a residual program. -/
theorem residual_ok (t : Term) (options : ResidualOptions) :
    ∃ ss, (residual options t.flatten).result = .ok ss := by
  obtain ⟨ss, hss, -⟩ := residual_emits t.flatten_wellFormed (keeps_true options t.flatten)
  exact ⟨ss, hss⟩

/-- The residual program of a term has whatever properties the work keeps up. -/
theorem emits_of_residual {t : Term} {options : ResidualOptions} {ss : Block}
    (h : (residual options t.flatten).result = .ok ss) {P Q : Nat → Expr → Prop}
    (hK : Keeps options t.flatten P Q) : Emits options t.flatten P Q 0 t.flatten ss := by
  obtain ⟨ss', hss', hemits, -⟩ := residual_emits t.flatten_wellFormed hK
  rwa [Except.ok.inj (h.symm.trans hss')]

/-- **The residual program of a chain of effects prints what the chain denotes**, from any store
that has the symbols in it, if no symbol is named like a temporary. -/
theorem residual_perform {ρ : Reading} {t : Term} {options : ResidualOptions} {ss : Block}
    {args out : List Int} {σ : Store} (hss : (residual options t.flatten).result = .ok ss)
    (hargs : ρ.argument = argument? args)
    (hfresh : ∀ i s, temporary? options t.flatten i = some s → ρ.symbol s = none)
    (hσ : ∀ {s v}, ρ.symbol s = some v → σ s = v)
    (h : t.reduced.denote ρ = some (.printed out)) :
    ∃ σ', ss.perform args σ [] = some (σ', out) := by
  have hemits := emits_of_residual hss (keeps_right hargs)
  have hmeans : ∀ i, i < 0 + t.flatten.length → ∃ m, NodeMeans ρ t.flatten i m := by
    intro i hi
    obtain ⟨u, hu⟩ := t.flatten_wellFormed i (by omega)
    obtain ⟨m, hm⟩ := denote_of_mem_subterms h (mem_subterms_of_unfolds hu)
    exact ⟨m, u, hu, hm⟩
  have hstart : Stocked options t.flatten ρ 0 σ :=
    ⟨fun hi => absurd hi (Nat.not_lt_zero _), hσ⟩
  exact hemits.perform hfresh hmeans hstart (flatten_outputs h) []

/-- Without symbols, the store does not matter. -/
theorem residual_performs {t : Term} {options : ResidualOptions} {ss : Block}
    {args out : List Int} (hss : (residual options t.flatten).result = .ok ss)
    (hwords : t.inWords = true) (h : t.denote (.ofArgs args) = some (.printed out)) :
    ∃ σ, ss.perform args (fun _ => 0) [] = some (σ, out) := by
  rw [← reduced_eq_self hwords] at h
  refine residual_perform hss rfl (fun _ _ _ => rfl) ?_ h
  intro s v hs
  cases hs

end Term

/-! ## Acceptance -/

theorem Block.refusal?_eq_none {slots : List String} {b : Block} :
    Block.refusal? slots b = none ↔ ∀ s ∈ b, s.refusal? slots = none := by
  induction b with
  | nil => simp [refusal?]
  | cons s b ih => simp [refusal?, ih]

section

variable {options : ResidualOptions} {nodes rest : List Node} {P Q : Nat → Expr → Prop} {k : Nat}
  {ss : List Stmt}

/-- The statements that are written print what is handed out and assign what is made. -/
theorem Emits.of_mem (h : Emits options nodes P Q k rest ss) {s : Stmt} (hs : s ∈ ss) :
    (∃ i e, i < k + rest.length ∧ P i e ∧ s = .print e) ∨
      ∃ i x e, k ≤ i ∧ i < k + rest.length ∧ temporary? options nodes i = some x ∧ Q i e ∧
        s = .assign x e := by
  induction h with
  | nil => cases hs
  | @cons k node rest prints ss e hp he _ ih =>
      rw [List.length_cons]
      rcases List.mem_append.1 hs with hs | hs
      · rcases List.mem_append.1 hs with hs | hs
        · cases hp with
          | nothing => cases hs
          | value hj hv => exact .inl ⟨_, _, by omega, hv, List.mem_singleton.1 hs⟩
        · cases ht : temporary? options nodes k with
          | none =>
              rw [ht] at hs
              cases hs
          | some x =>
              rw [ht] at hs
              exact .inr ⟨k, x, e, Nat.le_refl k, by omega, ht, he, List.mem_singleton.1 hs⟩
      · rcases ih hs with ⟨i, e, hi, hP, hs⟩ | ⟨i, x, e, hk, hi, ht, hQ, hs⟩
        · exact .inl ⟨i, e, by omega, hP, hs⟩
        · exact .inr ⟨i, x, e, by omega, by omega, ht, hQ, hs⟩

/-- What is written for a node stands between what is written for those before it and for those
after it. -/
theorem Emits.split (h : Emits options nodes P Q k rest ss) {i : Nat} (hk : k ≤ i)
    (hi : i < k + rest.length) :
    ∃ before prints e after node,
      ss = before ++ (prints ++ assignTo (temporary? options nodes i) e) ++ after ∧
      Prints P i node prints ∧ Q i e ∧
      Emits options nodes P Q k (rest.take (i - k)) before ∧
      Emits options nodes P Q (i + 1) (rest.drop (i - k + 1)) after := by
  induction h with
  | nil => exact absurd hi (by simpa using hk)
  | @cons k node rest prints ss e hp he hs ih =>
      rw [List.length_cons] at hi
      rcases Nat.eq_or_lt_of_le hk with rfl | hlt
      · refine ⟨[], prints, e, ss, node, by simp, hp, he, ?_, ?_⟩
        · simpa using Emits.nil
        · simpa using hs
      · obtain ⟨before, prints', e', after, node', rfl, hp', he', hbefore, hafter⟩ :=
          ih hlt (by omega)
        refine ⟨prints ++ assignTo (temporary? options nodes k) e ++ before, prints', e', after,
          node', by simp only [List.append_assoc], hp', he', ?_, ?_⟩
        · rw [show i - k = (i - (k + 1)) + 1 by omega, List.take_succ_cons]
          exact .cons hp he hbefore
        · rw [show i - k + 1 = (i - (k + 1) + 1) + 1 by omega, List.drop_succ_cons]
          exact hafter

/-- All temporaries are assigned. -/
theorem Emits.assigns (h : Emits options nodes P Q k rest ss) {i : Nat} {x : String} (hk : k ≤ i)
    (hi : i < k + rest.length) (ht : temporary? options nodes i = some x) :
    ∃ e, Stmt.assign x e ∈ ss := by
  obtain ⟨before, prints, e, after, node, rfl, -⟩ := h.split hk hi
  exact ⟨e, by simp [ht, assignTo]⟩

/-- The work keeps up that expressions read temporaries only, unless there are symbols. -/
theorem keeps_accepted {slots : List String}
    (htemps : ∀ i x, temporary? options nodes i = some x → x ∈ slots)
    (hsymbols : ∀ i s, ¬ Unfolds nodes i (.symbol s)) :
    Keeps options nodes (fun _ e => e.refusal? slots = none)
      (fun _ e => e.refusal? slots = none) where
  made _ h := h
  named ht := slotRefusal?_eq_none.2 (htemps _ _ ht)
  num _ _ := rfl
  symbol hn := absurd (.symbol hn) (hsymbols _ _)
  bin _ _ _ hl hr := by simp [Expr.refusal?, hl, hr]
  arg _ _ he := he
  effect _ _ := rfl

theorem temporary?_lt (hw : WellFormed nodes) {i : Nat} {x : String}
    (h : temporary? options nodes i = some x) : i < nodes.length := by
  obtain ⟨hc, -, -⟩ := temporary?_eq_some h
  have hmem : (i : Int) ∈ references nodes := List.count_pos_iff.1 (by omega)
  obtain ⟨j, hj, hlt⟩ := hw.of_mem_references hmem
  rwa [Int.ofNat.inj hj]

end

/-- **The residual program of a term without symbols is accepted**: it reads no name that it does
not assign. -/
theorem Term.residual_accepted {t : Term} (h : t.symbols = []) {options : ResidualOptions}
    {ss : Block} (hss : (residual options t.flatten).result = .ok ss) :
    Block.refusal? ss.slotTable ss = none := by
  -- the slots are those of the program itself, so the temporaries have to be found in it first
  have htemps : ∀ i x, temporary? options t.flatten i = some x → x ∈ ss.slotTable := by
    intro i x hx
    have hi := temporary?_lt t.flatten_wellFormed hx
    obtain ⟨e, he⟩ := (emits_of_residual hss (keeps_true ..)).assigns (Nat.zero_le i) (by omega) hx
    exact Block.mem_slotTable.2 (Block.mem_targets.2 ⟨_, he, List.mem_singleton.2 rfl⟩)
  have hsymbols : ∀ i s, ¬ Unfolds t.flatten i (.symbol s) := by
    intro i s hs
    cases symbols_of_mem_subterms h (mem_subterms_of_unfolds hs)
  refine Block.refusal?_eq_none.2 fun s hs => ?_
  rcases (emits_of_residual hss (keeps_accepted htemps hsymbols)).of_mem hs with
    ⟨i, e, -, he, rfl⟩ | ⟨i, x, e, -, -, hx, he, rfl⟩
  · exact he
  · simp [Stmt.refusal?, he, htemps i x hx]

end WhileLang
