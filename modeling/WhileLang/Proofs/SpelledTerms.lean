import WhileLang.Proofs.EffectChain
import WhileLang.Proofs.VariableReads

/-!
# Spelled terms

Which expression is made for a node can be read off its term, given which subterms have a temporary:
it is spelled out down to the subterms that have one. What is written for a node is then known, and
so is the whole residual program.

Where the temporaries stand for the terms of their positions, an expression that is spelled out
computes the term it was made from.

* `Expr.operations`: the terms that the operators and argument reads of an expression compute;
  `Expr.resolve`: the term that it computes as a whole.
* `Term.spelled`, `Term.quoted`: the expressions that are made and handed out for a term.
* `Term.resolve_spelled`: a spelled term computes the term.
* `StandFor`: the temporaries stand for the terms of their positions.
* `Emits.eq_statements`: the residual program of a node list, written down.
-/

namespace WhileLang

/-! ## Operations -/

namespace Expr

/-- The term that an expression computes, when variables stand for terms. A misplaced node is a
symbol. -/
def resolve (θ : String → Term) : Expr → Term
  | var x => θ x
  | num n => .num n
  | bin op l r => .bin op (l.resolve θ) (r.resolve θ)
  | input i => .arg (i.resolve θ)
  | stray d => .symbol d

/-- The terms that the operators and the argument reads of an expression compute. -/
def operations (θ : String → Term) : Expr → List Term
  | var _ | num _ | stray _ => []
  | bin op l r => .bin op (l.resolve θ) (r.resolve θ) :: (l.operations θ ++ r.operations θ)
  | input i => .arg (i.resolve θ) :: i.operations θ

end Expr

/-- The expressions of straight-line code, in order. -/
def Block.values (b : Block) : List Expr :=
  b.filterMap Stmt.value?

theorem Block.values_append (b c : Block) : Block.values (b ++ c) = b.values ++ c.values :=
  List.filterMap_append

/-! ## Spelled terms -/

namespace Term

/-- Whether a term is computed by an operator or an argument read. -/
def isOperation : Term → Bool
  | bin _ _ _ | arg _ => true
  | _ => false

/-- The expression of a term, in which the parts that have a name are read from there. -/
def spelled (name : Term → Option String) : Term → Expr
  | num n => .num n
  | symbol s => .var s
  | bin op l r =>
    .bin op ((name l).elim (l.spelled name) .var) ((name r).elim (r.spelled name) .var)
  | arg i => .input ((name i).elim (i.spelled name) .var)
  | silent | print _ _ => Work.effectExpr

/-- The expression for a term: its name, if it has one. -/
def quoted (name : Term → Option String) (t : Term) : Expr :=
  (name t).elim (t.spelled name) .var

variable {name : Term → Option String} {t u : Term}

theorem quoted_of_some {s : String} (h : name t = some s) : t.quoted name = .var s := by
  rw [quoted, h]
  rfl

theorem quoted_of_none (h : name t = none) : t.quoted name = t.spelled name := by
  rw [quoted, h]
  rfl

/-- What is written for a term: a print shows its value, and a term with a name is assigned. -/
def statements (name : Term → Option String) (t : Term) : Block :=
  (match t with
    | print _ v => [.print (v.quoted name)]
    | _ => []) ++ assignTo (name t) (t.spelled name)

theorem statements_of_isValue (h : t.isValue = true) :
    t.statements name = assignTo (name t) (t.spelled name) := by
  cases t with
  | print e v => cases h
  | _ => rfl

theorem resolve_quoted {θ : String → Term} (hθ : ∀ u s, name u = some s → θ s = u)
    (h : (t.spelled name).resolve θ = t) : (t.quoted name).resolve θ = t := by
  cases hn : name t with
  | none => rw [quoted_of_none hn, h]
  | some s =>
      rw [quoted_of_some hn]
      exact hθ t s hn

/-- Where names stand for the terms that have them, a value without symbols is computed by its
expression. -/
theorem resolve_spelled {θ : String → Term} (hθ : ∀ u s, name u = some s → θ s = u)
    (ht : t.isValue = true) (hs : t.symbols = []) : (t.spelled name).resolve θ = t := by
  induction t with
  | num n => rfl
  | symbol s => cases hs
  | silent | print e v => cases ht
  | arg i ih =>
      show arg ((i.quoted name).resolve θ) = arg i
      rw [resolve_quoted hθ (ih ht hs)]
  | bin op l r ihl ihr =>
      obtain ⟨htl, htr⟩ := Bool.and_eq_true_iff.1 ht
      obtain ⟨hsl, hsr⟩ := List.append_eq_nil_iff.1 hs
      show bin op ((l.quoted name).resolve θ) ((r.quoted name).resolve θ) = bin op l r
      rw [resolve_quoted hθ (ihl htl hsl), resolve_quoted hθ (ihr htr hsr)]

theorem mem_subterms_of_mem_parts {v : Term} (h : v ∈ u.parts) : v ∈ u.subterms := by
  cases u with
  | num | symbol | silent => cases h
  | arg j =>
      rw [List.mem_singleton.1 h]
      exact List.mem_cons_of_mem _ j.self_mem_subterms
  | bin op l r | print l r =>
      refine List.mem_cons_of_mem _ (List.mem_append.2 ?_)
      rcases List.mem_pair.1 h with rfl | rfl
      · exact .inl (self_mem_subterms _)
      · exact .inr (self_mem_subterms _)

/-- What is handed out for a part of a value without symbols computes the part. -/
theorem resolve_part {θ : String → Term} {v : Term} (hθ : ∀ u s, name u = some s → θ s = u)
    (ht : t.isValue = true) (hs : t.symbols = []) (hv : v ∈ t.parts) :
    (v.quoted name).resolve θ = v := by
  have hsub := mem_subterms_of_mem_parts hv
  apply resolve_quoted hθ
  exact resolve_spelled hθ (isValue_of_mem_subterms ht hsub) (symbols_of_mem_subterms hs hsub)

end Term

/-! ## What is written -/

section

variable {options : ResidualOptions} {nodes : List Node} {f : Nat → Term} {i : Nat} {u : Term}

/-- The temporary of the position that a term has in a node list. -/
def nameIn (options : ResidualOptions) (nodes : List Node) (u : Term) : Option String :=
  temporary? options nodes (u.flattenInto nodes).2

theorem nameIn_of_unfolds (hw : WellFormed nodes) (hc : Compact nodes) (h : Unfolds nodes i u) :
    nameIn options nodes u = temporary? options nodes i := by
  have hflat := Term.flattenInto_spec hw u
  rw [nameIn, (hc.flattenInto u).index_unique hflat.root (hflat.keeps h)]

theorem unfolds_of_nameIn {s : String} (hw : WellFormed nodes)
    (h : nameIn options nodes u = some s) :
    ∃ i, Unfolds nodes i u ∧ temporary? options nodes i = some s := by
  have hflat := Term.flattenInto_spec hw u
  obtain ⟨more, hmore⟩ := hflat.grows
  have hroot := hflat.root
  rw [hmore] at hroot
  exact ⟨_, hroot.of_append (temporary?_lt hw h), h⟩

/-- The temporaries stand for the terms of their positions. -/
def StandFor (options : ResidualOptions) (nodes : List Node) (θ : String → Term) : Prop :=
  ∀ i s u, temporary? options nodes i = some s → Unfolds nodes i u → θ s = u

theorem exists_standFor (options : ResidualOptions) (nodes : List Node) :
    ∃ θ, StandFor options nodes θ := by
  classical
  let holds : String → Term → Prop := fun s u =>
    ∃ i, temporary? options nodes i = some s ∧ Unfolds nodes i u
  refine ⟨fun s => if h : ∃ u, holds s u then h.choose else .silent, ?_⟩
  intro i s u hs hu
  have h : ∃ u, holds s u := ⟨u, i, hs, hu⟩
  show (if h : ∃ u, holds s u then h.choose else .silent) = u
  rw [dif_pos h]
  obtain ⟨j, hj, huj⟩ := h.choose_spec
  rw [temporary?_injective hj hs] at huj
  exact huj.unique hu

theorem StandFor.of_nameIn {θ : String → Term} (h : StandFor options nodes θ)
    (hw : WellFormed nodes) (u : Term) (s : String) (hs : nameIn options nodes u = some s) :
    θ s = u := by
  obtain ⟨i, hi, hx⟩ := unfolds_of_nameIn hw hs
  exact h i s u hx hi

/-- The work on the bench spells out the terms of the positions. -/
theorem keeps_spelled (hw : WellFormed nodes) (hc : Compact nodes) :
    Keeps options nodes
      (fun i e => ∀ u, Unfolds nodes i u → e = u.quoted (nameIn options nodes))
      (fun i e => ∀ u, Unfolds nodes i u → e = u.spelled (nameIn options nodes)) where
  made ht h u hu := by
    rw [h u hu, Term.quoted_of_none]
    rw [nameIn_of_unfolds hw hc hu, ht]
  named ht u hu := by
    rw [Term.quoted_of_some]
    rw [nameIn_of_unfolds hw hc hu, ht]
  num hn hk u hu := by
    obtain rfl := hu.unique (.num hn hk)
    rfl
  symbol hn u hu := by
    obtain rfl := hu.unique (.symbol hn)
    rfl
  bin hn _ _ hl hr u hu := by
    obtain ⟨l, r, rfl, hul, hur⟩ := hu.of_bin hn
    rw [hl l hul, hr r hur]
    rfl
  arg hn _ he u hu := by
    obtain ⟨v, rfl, hv⟩ := hu.of_arg hn
    rw [he v hv]
    rfl
  effect hn hkind u hu := by
    cases hu with
    | silent _ | print _ _ _ _ _ => rfl
    | num h _ | symbol h | arg h _ _ | bin h _ _ _ _ =>
        obtain rfl := Option.some.inj (hn.symm.trans h)
        simp at hkind

/-- **The statements for some nodes, written down**: those for the terms of their positions, one
after the other. -/
theorem Emits.eq_statements {k : Nat} {done rest : List Node} {ss : List Stmt}
    (h : Emits options nodes
      (fun i e => ∀ u, Unfolds nodes i u → e = u.quoted (nameIn options nodes))
      (fun i e => ∀ u, Unfolds nodes i u → e = u.spelled (nameIn options nodes)) k rest ss)
    (hw : WellFormed nodes) (hc : Compact nodes)
    (hf : ∀ i, i < nodes.length → Unfolds nodes i (f i)) (hnodes : nodes = done ++ rest)
    (hk : k = done.length) :
    ss = (List.range' k rest.length).flatMap fun i =>
      (f i).statements (nameIn options nodes) := by
  induction h generalizing done with
  | nil => rfl
  | @cons k node rest prints ss e hp he _ ih =>
      have hn : nodes[k]? = some node := by
        rw [hnodes, hk, List.getElem?_append_right (Nat.le_refl _)]
        simp
      have hu := hf k (List.getElem?_eq_some_iff.1 hn).1
      have hrest := @ih (done ++ [node]) (by simpa using hnodes) (by simp [hk])
      rw [List.length_cons, List.range'_succ, List.flatMap_cons, ← hrest]
      -- a print shows the expression for its value, and no other node shows anything
      have hprints : prints ++ assignTo (temporary? options nodes k) e =
          (f k).statements (nameIn options nodes) := by
        rw [← nameIn_of_unfolds hw hc hu, he (f k) hu]
        cases hp with
        | nothing hkind =>
            generalize f k = t at hu
            cases hu with
            | print h _ _ _ _ =>
                obtain rfl := Option.some.inj (hn.symm.trans h)
                exact absurd rfl hkind
            | _ => rfl
        | value _ hv =>
            obtain ⟨e', v', heq, -, huv⟩ := hu.of_print hn
            rw [heq, hv v' huv]
            rfl
      rw [hprints]

end

end WhileLang
