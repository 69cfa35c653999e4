import Mathlib.Algebra.Order.Ring.Int
import Mathlib.Data.List.Sort
import WhileLang.Proofs.Linearization

/-!
# The account of the bench

Whether a node fits into a list can be seen from the node and its position alone, and a list in
which all nodes fit is well-formed: it need not come from a term, and parts of it may hang loose.
When work on such a list is over, nothing has been lost or handed out twice. A position that is
referred to twice has a temporary, unless it is a number that is written in place; one that is
referred to once is gone, since the node that refers to it has it; and the others still wait.

What waits at the end is known from `Tidy` for the positions. That the bench holds nothing else, and
nothing twice, is seen from the order in which entries are put on it: each node puts down one entry
at most, for its own position, and what nodes refer to is only taken away.

* `Node.FitsAt`: a node fits at a position; `wellFormed_iff`: when a list is well-formed.
* `Work.Reduces`: work that puts nothing on the bench; `Work.reduces_exprOf` and
  `Work.reduces_nameShared` are the cases.
* `Bench.Ordered`: the entries of the bench ascend; `Work.ordered_of_workOff`: they do so after any
  number of nodes.
* `keys_eq_positions`, `WellFormed.sharedNames_perm`: which entries there are.
* `residual_accounts`: work on a list of fitting nodes succeeds, and what is on the bench then.
-/

namespace WhileLang

/-! ## Nodes that fit -/

/-- The number of children that a constructor takes. -/
def Kind.arity : Kind → Nat
  | num | symbol | silent => 0
  | arg => 1
  | bin _ | print => 2

/-- A node fits at a position: it has the children that its constructor takes, they stand before it,
and it has a number if it is to be one. -/
structure Node.FitsAt (node : Node) (i : Nat) : Prop where
  arity : node.children.length = node.kind.arity
  children : ∀ c ∈ node.children, 0 ≤ c ∧ c < (i : Int)
  number : node.kind = .num → (Label.number node.label).isOk = true

instance (node : Node) (i : Nat) : Decidable (node.FitsAt i) :=
  decidable_of_iff (node.children.length = node.kind.arity ∧
      (∀ c ∈ node.children, 0 ≤ c ∧ c < (i : Int)) ∧
      (node.kind = .num → (Label.number node.label).isOk = true))
    ⟨fun ⟨ha, hc, hn⟩ => ⟨ha, hc, hn⟩, fun ⟨ha, hc, hn⟩ => ⟨ha, hc, hn⟩⟩

section

variable {nodes : List Node} {node : Node} {i : Nat} {t : Term}

theorem Node.FitsAt.child (h : node.FitsAt i) {c : Int} (hc : c ∈ node.children) :
    ∃ j : Nat, c = j ∧ j < i := by
  obtain ⟨hc₀, hci⟩ := h.children c hc
  obtain ⟨j, rfl⟩ := Int.eq_ofNat_of_zero_le hc₀
  exact ⟨j, rfl, Int.ofNat_lt.1 hci⟩

theorem Node.FitsAt.two (h : node.FitsAt i) (ha : node.kind.arity = 2) :
    ∃ j k : Nat, node.children = [(j : Int), (k : Int)] ∧ j < i ∧ k < i := by
  obtain ⟨c, d, hcd⟩ := List.length_eq_two.1 (h.arity.trans ha)
  obtain ⟨j, rfl, hj⟩ := h.child (c := c) (by simp [hcd])
  obtain ⟨k, rfl, hk⟩ := h.child (c := d) (by simp [hcd])
  exact ⟨j, k, hcd, hj, hk⟩

theorem Unfolds.fitsAt (h : Unfolds nodes i t) (hn : nodes[i]? = some node) : node.FitsAt i where
  arity := by
    cases h <;>
    · obtain rfl := Option.some.inj (hn.symm.trans ‹_›)
      rfl
  children c hc := by
    obtain ⟨j, rfl, hj⟩ := h.child_lt hn hc
    exact ⟨Int.natCast_nonneg j, Int.ofNat_lt.2 hj⟩
  number hk := by
    cases h with
    | num h hm =>
        obtain rfl := Option.some.inj (hn.symm.trans h)
        rw [hm]
        rfl
    | symbol h | silent h | arg h _ _ | bin h _ _ _ _ | print h _ _ _ _ =>
        obtain rfl := Option.some.inj (hn.symm.trans h)
        cases hk

/-- A node that fits unfolds, if all before it do. -/
theorem Node.FitsAt.unfolds (h : node.FitsAt i) (hn : nodes[i]? = some node)
    (hbefore : ∀ j, j < i → ∃ t, Unfolds nodes j t) : ∃ t, Unfolds nodes i t := by
  obtain ⟨kind, label, children⟩ := node
  have harity : children.length = kind.arity := h.arity
  cases kind with
  | num =>
      obtain rfl := List.length_eq_zero_iff.1 harity
      have hok : (Label.number label).isOk = true := h.number rfl
      cases hm : Label.number label with
      | ok n => exact ⟨_, .num hn hm⟩
      | error cause =>
          rw [hm] at hok
          cases hok
  | symbol =>
      obtain rfl := List.length_eq_zero_iff.1 harity
      exact ⟨_, .symbol hn⟩
  | silent =>
      obtain rfl := List.length_eq_zero_iff.1 harity
      exact ⟨_, .silent hn⟩
  | arg =>
      obtain ⟨c, rfl⟩ := List.length_eq_one_iff.1 harity
      obtain ⟨j, rfl, hj⟩ := h.child (c := c) (by simp)
      obtain ⟨t, ht⟩ := hbefore j hj
      exact ⟨_, .arg hn hj ht⟩
  | bin op =>
      obtain ⟨j, k, rfl, hj, hk⟩ := h.two rfl
      obtain ⟨l, hl⟩ := hbefore j hj
      obtain ⟨r, hr⟩ := hbefore k hk
      exact ⟨_, .bin hn hj hk hl hr⟩
  | print =>
      obtain ⟨j, k, rfl, hj, hk⟩ := h.two rfl
      obtain ⟨e, he⟩ := hbefore j hj
      obtain ⟨v, hv⟩ := hbefore k hk
      exact ⟨_, .print hn hj hk he hv⟩

/-- A list is well-formed if and only if its nodes fit where they are. -/
theorem wellFormed_iff :
    WellFormed nodes ↔ ∀ (i : Nat) (hi : i < nodes.length), nodes[i].FitsAt i := by
  constructor
  · intro hw i hi
    obtain ⟨t, ht⟩ := hw i hi
    exact ht.fitsAt (List.getElem?_eq_getElem hi)
  · intro h i
    induction i using Nat.strongRecOn with
    | ind i ih =>
        intro hi
        have hbefore : ∀ j, j < i → ∃ t, Unfolds nodes j t :=
          fun j hj => ih j hj (Nat.lt_trans hj hi)
        exact (h i hi).unfolds (List.getElem?_eq_getElem hi) hbefore

end

/-! ## Work that puts nothing on the bench -/

/-- Nothing has been put on the bench, though something that waits may have been taken. -/
def Bench.Reduces (b b' : Bench) : Prop :=
  b'.waiting.Sublist b.waiting ∧ b'.numbers = b.numbers

namespace Work

/-- Work that, if it succeeds, puts nothing on the bench. -/
def Reduces {α : Type} (x : Work α) : Prop :=
  ∀ b a b', x.run b = .ok a b' → b.Reduces b'

section

variable {α β : Type} {x : Work α} {f : α → Work β}

theorem of_run_bind {b b' : Bench} {c : β} (h : (x >>= f).run b = .ok c b') :
    ∃ a b₁, x.run b = .ok a b₁ ∧ (f a).run b₁ = .ok c b' := by
  rw [EStateM.run_bind] at h
  cases hx : x.run b with
  | ok a b₁ =>
      rw [hx] at h
      exact ⟨a, b₁, rfl, h⟩
  | error e b₁ =>
      rw [hx] at h
      cases h

theorem Reduces.pure (a : α) : (Pure.pure a : Work α).Reduces := by
  intro b c b' h
  cases h
  exact ⟨.refl _, rfl⟩

theorem Reduces.throw (e : ResidualError) : (throw e : Work α).Reduces := by
  intro b c b' h
  cases h

theorem Reduces.bind (hx : x.Reduces) (hf : ∀ a, (f a).Reduces) : (x >>= f).Reduces := by
  intro b c b' h
  obtain ⟨a, b₁, hxa, hfa⟩ := of_run_bind h
  obtain ⟨hw, hk⟩ := hx b a b₁ hxa
  obtain ⟨hw', hk'⟩ := hf a b₁ c b' hfa
  exact ⟨hw'.trans hw, hk'.trans hk⟩

end

theorem reduces_takeExpr (id : Int) : (takeExpr id).Reduces := by
  intro b e b' h
  unfold takeExpr at h
  simp only [EStateM.run_bind, EStateM.run_get] at h
  split at h
  · cases h
    exact ⟨.refl _, rfl⟩
  · cases h
    exact ⟨.refl _, rfl⟩
  · cases h
    exact ⟨List.filter_sublist, rfl⟩
  · cases h

theorem reduces_write (stmt : Stmt) : (write stmt).Reduces := by
  intro b u b' h
  cases h
  exact ⟨.refl _, rfl⟩

/-- Making the expression of a node takes what the node refers to. -/
theorem reduces_exprOf (node : Node) : (exprOf node).Reduces := by
  obtain ⟨kind, label, children⟩ := node
  unfold exprOf
  cases kind with
  | num =>
      dsimp only
      split
      · exact .pure _
      · exact .throw _
  | symbol | silent => exact .pure _
  | bin op =>
      dsimp only
      split
      · exact (reduces_takeExpr _).bind fun _ => (reduces_takeExpr _).bind fun _ => .pure _
      · exact .throw _
  | arg =>
      dsimp only
      split
      · exact (reduces_takeExpr _).bind fun _ => .pure _
      · exact .throw _
  | print =>
      dsimp only
      split
      · exact (reduces_takeExpr _).bind fun _ => (reduces_takeExpr _).bind fun _ =>
          (reduces_write _).bind fun _ => .pure _
      · exact .throw _

theorem reduces_exempt (options : ResidualOptions) (nodes : List Node) (id : Int) :
    (exempt options nodes id).Reduces := by
  unfold exempt
  split
  · split
    · exact .pure _
    · exact .throw _
  · exact .pure _

theorem reduces_nameShared (options : ResidualOptions) (nodes : List Node)
    (counts : List (Int × Nat)) : (nameShared options nodes counts).Reduces := by
  induction counts with
  | nil => exact .pure _
  | cons c counts ih =>
      unfold nameShared
      split
      · refine (reduces_exempt options nodes c.1).bind fun without => ?_
        split
        · refine Reduces.bind ?_ fun _ => ih
          intro b u b' h
          cases h
          exact ⟨.refl _, rfl⟩
        · exact ih
      · exact ih

end Work

/-! ## The order of the bench -/

theorem keys_sublist_succ {α : Type} {l l' : List (Int × α)} {n : Nat}
    (h : (l.map (·.1)).Sublist ((List.range n).map (↑)))
    (hl : l' = l ∨ ∃ a, l' = l ++ [((n : Int), a)]) :
    (l'.map (·.1)).Sublist ((List.range (n + 1)).map (↑)) := by
  rw [List.range_succ, List.map_append]
  rcases hl with rfl | ⟨a, rfl⟩
  · exact h.trans (List.sublist_append_left _ _)
  · rw [List.map_append]
    exact h.append (.refl _)

/-- What waits and what is written in place stands in the order of the positions, which lie below a
bound. -/
structure Bench.Ordered (n : Nat) (b : Bench) : Prop where
  waiting : (b.waiting.map (·.1)).Sublist ((List.range n).map (↑))
  numbers : (b.numbers.map (·.1)).Sublist ((List.range n).map (↑))

namespace Bench.Ordered

variable {n : Nat} {b b' : Bench}

theorem of_reduces (h : b.Ordered n) (hb : b.Reduces b') : b'.Ordered n where
  waiting := (hb.1.map _).trans h.waiting
  numbers := hb.2 ▸ h.numbers

/-- One more entry may have come on each side, for the next position. -/
theorem succ (h : b.Ordered n)
    (hw : b'.waiting = b.waiting ∨ ∃ e, b'.waiting = b.waiting ++ [((n : Int), e)])
    (hk : b'.numbers = b.numbers ∨ ∃ k, b'.numbers = b.numbers ++ [((n : Int), k)]) :
    b'.Ordered (n + 1) where
  waiting := keys_sublist_succ h.waiting hw
  numbers := keys_sublist_succ h.numbers hk

end Bench.Ordered

namespace Work

variable {options : ResidualOptions} {n : Nat} {node : Node} {e : Expr} {b b' : Bench}

theorem ordered_of_keep (hb : b.Ordered n) (h : (keep options n node e).run b = .ok () b') :
    b'.Ordered (n + 1) := by
  unfold keep at h
  simp only [EStateM.run_bind, EStateM.run_get] at h
  split at h
  · cases h
    exact hb.succ (.inl rfl) (.inl rfl)
  · split at h
    · cases h
      exact hb.succ (.inl rfl) (.inr ⟨_, rfl⟩)
    · cases h
      exact hb.succ (.inr ⟨_, rfl⟩) (.inl rfl)

/-- The bench stays in order, one node after the other. -/
theorem ordered_of_workOff {rest : List Node} (hb : b.Ordered n)
    (h : (workOff options n rest).run b = .ok () b') : b'.Ordered (n + rest.length) := by
  induction rest generalizing n b with
  | nil =>
      cases h
      exact hb
  | cons node rest ih =>
      obtain ⟨e, b₁, he, h⟩ := of_run_bind h
      obtain ⟨u, b₂, hkeep, h⟩ := of_run_bind h
      have hb₂ := ordered_of_keep (hb.of_reduces (reduces_exprOf node _ _ _ he)) hkeep
      have hlen : n + (node :: rest).length = n + 1 + rest.length := by
        rw [List.length_cons]
        omega
      rw [hlen]
      exact ih hb₂ h

end Work

/-- The bench on which work was finished is in order. -/
theorem ordered_of_residual {options : ResidualOptions} {nodes : List Node} {ss : Block}
    (h : (residual options nodes).result = .ok ss) :
    (residual options nodes).bench.Ordered nodes.length := by
  unfold residual at h ⊢
  dsimp only at h ⊢
  split at h
  · cases h
  · next hname =>
      split at h
      · cases h
      · next hwork =>
          have hb := Work.reduces_nameShared options nodes (useCounts nodes) _ _ _ hname
          have hstart : ({} : Bench).Ordered 0 := ⟨.slnil, .slnil⟩
          have := Work.ordered_of_workOff (hstart.of_reduces hb) hwork
          simpa using this

/-! ## Exact accounts -/

/-- The positions below a bound that have a property, in ascending order. -/
def positions (n : Nat) (p : Nat → Prop) [DecidablePred p] : List Int :=
  ((List.range n).filter p).map (↑)

theorem mem_positions {n : Nat} {p : Nat → Prop} [DecidablePred p] {id : Int} :
    id ∈ positions n p ↔ ∃ i : Nat, (i < n ∧ p i) ∧ id = i := by
  simp [positions, eq_comm]

theorem pairwise_range (n : Nat) : ((List.range n).map ((↑) : Nat → Int)).Pairwise (· < ·) :=
  List.pairwise_map.2 (List.pairwise_lt_range.imp Int.ofNat_lt.2)

theorem positions_sublist (n : Nat) (p : Nat → Prop) [DecidablePred p] :
    (positions n p).Sublist ((List.range n).map (↑)) :=
  List.filter_sublist.map _

theorem pairwise_positions (n : Nat) (p : Nat → Prop) [DecidablePred p] :
    (positions n p).Pairwise (· < ·) :=
  (pairwise_range n).sublist (positions_sublist n p)

/-- Entries in the order of their positions are listed by what can be looked up. -/
theorem keys_eq_positions {α : Type} {l : List (Int × α)} {n : Nat} {p : Nat → Prop}
    [DecidablePred p] (hl : (l.map (·.1)).Sublist ((List.range n).map (↑)))
    (hp : ∀ i : Nat, (l.lookup (i : Int)).isSome ↔ i < n ∧ p i) :
    l.map (·.1) = positions n p := by
  refine ((pairwise_range n).sublist hl).eq_of_mem_iff (pairwise_positions n p) fun id => ?_
  rw [mem_positions]
  constructor
  · intro hid
    obtain ⟨i, -, rfl⟩ := List.mem_map.1 (hl.subset hid)
    exact ⟨i, (hp i).1 (isSome_lookup.2 hid), rfl⟩
  · rintro ⟨i, hi, rfl⟩
    exact isSome_lookup.1 ((hp i).2 hi)

theorem keys_countUse (counts : List (Int × Nat)) (id : Int) :
    (countUse counts id).map (·.1) =
      if id ∈ counts.map (·.1) then counts.map (·.1) else counts.map (·.1) ++ [id] := by
  induction counts with
  | nil => rfl
  | cons c counts ih =>
      obtain ⟨i, n⟩ := c
      unfold countUse
      by_cases hi : i = id
      · simp [hi]
      · rw [if_neg hi, List.map_cons, ih]
        have hid : id ≠ i := Ne.symm hi
        split <;> simp_all

/-- No position is counted twice. -/
theorem nodup_useCounts (nodes : List Node) : ((useCounts nodes).map (·.1)).Nodup := by
  have hfold : ∀ (refs : List Int) (counts : List (Int × Nat)), (counts.map (·.1)).Nodup →
      ((refs.foldl countUse counts).map (·.1)).Nodup := by
    intro refs
    induction refs with
    | nil => exact fun _ h => h
    | cons r refs ih =>
        intro counts h
        refine ih _ ?_
        rw [keys_countUse]
        split
        · exact h
        · next hr =>
            rw [← List.concat_eq_append]
            exact h.concat hr
  exact hfold _ [] List.nodup_nil

section

variable {options : ResidualOptions} {nodes : List Node}

theorem temporary?_eq_none_of_not_mem {i : Nat} (h : (i : Int) ∉ references nodes) :
    temporary? options nodes i = none := by
  rw [temporary?, List.count_eq_zero.2 h]
  simp

theorem mem_references_of_sharedNames {id : Int} {s : String}
    (h : (id, s) ∈ sharedNames options nodes (useCounts nodes)) : id ∈ references nodes := by
  obtain ⟨⟨id', n⟩, hc, heq⟩ := List.mem_map.1 h
  obtain ⟨rfl, -⟩ := Prod.mk.inj heq
  obtain ⟨hmem, hP⟩ := List.mem_filter.1 hc
  have hlt : 1 < n := (of_decide_eq_true hP).1
  have hpos : 0 < (references nodes).count id' :=
    Nat.lt_of_lt_of_le (Nat.zero_lt_of_lt hlt) (le_count_of_mem_useCounts hmem)
  exact List.count_pos_iff.1 hpos

theorem nodup_sharedNames (options : ResidualOptions) (nodes : List Node) :
    (sharedNames options nodes (useCounts nodes)).Nodup := by
  refine List.Nodup.of_map (·.1) ?_
  rw [sharedNames, List.map_map]
  exact (nodup_useCounts nodes).sublist (List.filter_sublist.map _)

/-- The temporaries of a well-formed list. -/
theorem WellFormed.sharedNames_perm (hw : WellFormed nodes) (options : ResidualOptions) :
    (sharedNames options nodes (useCounts nodes)).Perm
      ((positions nodes.length fun i =>
        2 ≤ (references nodes).count (i : Int) ∧ ¬ Inlined options nodes i).map fun id =>
          (id, options.stem ++ toString id)) := by
  refine (List.perm_ext_iff_of_nodup (nodup_sharedNames options nodes) ?_).2 ?_
  · refine List.Nodup.of_map (·.1) ?_
    rw [List.map_map]
    exact (List.map_id _).symm ▸ (pairwise_positions _ _).nodup
  · rintro ⟨id, s⟩
    simp only [List.mem_map, mem_positions, Prod.mk.injEq]
    constructor
    · intro h
      obtain ⟨i, rfl, hi⟩ := hw.of_mem_references (mem_references_of_sharedNames h)
      obtain ⟨hc, hin, rfl⟩ := temporary?_eq_some (mem_sharedNames.1 h)
      exact ⟨_, ⟨i, ⟨hi, hc, hin⟩, rfl⟩, rfl, rfl⟩
    · rintro ⟨_, ⟨i, ⟨-, hi⟩, rfl⟩, rfl, rfl⟩
      exact mem_sharedNames.2 (if_pos hi)

/-- An expression is the number of its position, if a number stands there. -/
def IsNumberOf (nodes : List Node) (i : Nat) (e : Expr) : Prop :=
  ∀ node, nodes[i]? = some node → node.kind = .num →
    ∃ k, Label.number node.label = .ok k ∧ e = .num k

theorem isNumberOf_of_ne {i : Nat} {node : Node} (hn : nodes[i]? = some node)
    (hkind : node.kind ≠ .num) (e : Expr) : IsNumberOf nodes i e := by
  intro node' hnode hk
  obtain rfl := Option.some.inj (hn.symm.trans hnode)
  exact (hkind hk).elim

theorem keeps_isNumberOf (options : ResidualOptions) (nodes : List Node) :
    Keeps options nodes
      (fun i e => temporary? options nodes i = none → IsNumberOf nodes i e) (IsNumberOf nodes) where
  made _ he _ := he
  named hs ht := by
    rw [hs] at ht
    cases ht
  num hn hk node hnode _ := by
    obtain rfl := Option.some.inj (hn.symm.trans hnode)
    exact ⟨_, hk, rfl⟩
  symbol hn := isNumberOf_of_ne hn (by simp) _
  bin hn _ _ _ _ := isNumberOf_of_ne hn (by simp) _
  arg hn _ _ := isNumberOf_of_ne hn (by simp) _
  effect hn hkind := by
    refine isNumberOf_of_ne hn ?_ _
    rcases hkind with hkind | hkind <;> simp [hkind]

end

/-- **Work on a list of fitting nodes accounts for every expression.** It succeeds, whatever the
list may be made of. After it the temporaries are those of the positions that are referred to twice
or more; the numbers written in place, with their values, are all there are, if there are to be any;
and what waits is what no node refers to, other than such numbers. -/
theorem residual_accounts (options : ResidualOptions) (nodes : List Node)
    (h : ∀ (i : Nat) (hi : i < nodes.length), nodes[i].FitsAt i) :
    let bench := (residual options nodes).bench
    (∃ ss, (residual options nodes).result = .ok ss) ∧
    bench.named.Perm
      ((positions nodes.length fun i =>
        2 ≤ (references nodes).count (i : Int) ∧ ¬ Inlined options nodes i).map fun id =>
          (id, options.stem ++ toString id)) ∧
    bench.numbers.map (·.1) = positions nodes.length (Inlined options nodes) ∧
    (∀ (i : Nat) (k : Int), bench.numbers.lookup (i : Int) = some k →
      ∃ node, nodes[i]? = some node ∧ Label.number node.label = .ok k) ∧
    bench.waiting.map (·.1) = positions nodes.length fun i =>
      (i : Int) ∉ references nodes ∧ ¬ Inlined options nodes i := by
  intro bench
  have hw : WellFormed nodes := wellFormed_iff.2 h
  obtain ⟨ss, hss, -, htidy⟩ := residual_emits hw (keeps_isNumberOf options nodes)
  have hordered : bench.Ordered nodes.length := ordered_of_residual hss
  refine ⟨⟨ss, hss⟩, ?_, keys_eq_positions hordered.numbers htidy.numbers_iff, ?_,
    keys_eq_positions hordered.waiting fun i => ?_⟩
  · rw [htidy.named]
    exact hw.sharedNames_perm options
  · intro i k hk
    obtain ⟨-, hin⟩ := (htidy.numbers_iff i).1 (Option.isSome_of_mem hk)
    have ht : temporary? options nodes i = none := if_neg fun hc => hc.2 hin
    obtain ⟨-, node, hnode, hkind⟩ := hin
    obtain ⟨k', hk', heq⟩ := htidy.numbers_ok i k hk ht node hnode hkind
    obtain rfl := Expr.num.inj heq
    exact ⟨node, hnode, hk'⟩
  · rw [htidy.waiting_iff i]
    constructor
    · rintro ⟨hi, -, hin, hmem⟩
      exact ⟨hi, hmem, hin⟩
    · rintro ⟨hi, hmem, hin⟩
      exact ⟨hi, temporary?_eq_none_of_not_mem hmem, hin, hmem⟩

/-- Two chains that begin with the same effect and print the same number, a number that belongs to
neither, and a symbol that is used once. -/
def twoChains : List Node :=
  [{ kind := .silent }, { kind := .num, label := some (.int 5) },
   { kind := .print, children := [0, 1] }, { kind := .print, children := [0, 1] },
   { kind := .symbol, label := some (.text "x") }, { kind := .bin .add, children := [4, 1] },
   { kind := .print, children := [3, 5] }, { kind := .num, label := some (.int 9) }]

/-- The ends of the chains and the loose number wait; with numbers in place, the ends alone do. -/
theorem twoChains_accounted :
    let bench := (residual {} twoChains).bench
    let bench' := (residual { inlineNumbers := true } twoChains).bench
    bench.named.Perm [(0, "t0"), (1, "t1")] ∧ bench.numbers = [] ∧
      bench.waiting.map (·.1) = [2, 6, 7] ∧
      bench'.named.Perm [(0, "t0")] ∧ bench'.numbers.map (·.1) = [1, 7] ∧
      bench'.waiting.map (·.1) = [2, 6] := by
  have hfits : ∀ (i : Nat) (hi : i < twoChains.length), twoChains[i].FitsAt i := by decide
  obtain ⟨-, hnamed, hnumbers, -, hwaiting⟩ := residual_accounts {} twoChains hfits
  obtain ⟨-, hnamed', hnumbers', -, hwaiting'⟩ :=
    residual_accounts { inlineNumbers := true } twoChains hfits
  exact ⟨hnamed, List.map_eq_nil_iff.1 hnumbers, hwaiting, hnamed', hnumbers', hwaiting'⟩

end WhileLang
