import Mathlib.Data.List.Basic
import Std.Data.String.ToInt
import WhileLang.Proofs.Code
import WhileLang.Proofs.Lookup
import WhileLang.Proofs.Sharing
import WhileLang.Term.Residual

/-!
# Work on the bench

In a well-formed node list every position unfolds, so each node refers to earlier positions only
and has the arity of its constructor. Work on such a list never stops: a position that is referred
to twice has a temporary or is a number that is written wherever it is used, and every other
expression still waits when the one node that refers to it comes along.

What is written is described for any two properties of expressions that the work keeps up: one of
the expressions it hands out for a position and one of those it makes for a node.

* `references`: the positions that a node list refers to, one after the other.
* `Inlined`, `temporary?`: which positions are numbers written in place, and which have a temporary.
* `Tidy`: the state of the bench after some nodes and some references.
* `Emits`: the statements that are written for some nodes.
* `Keeps`: two properties that the work keeps up.
* `residual_emits`: work on a well-formed node list succeeds and writes such statements.
-/

namespace WhileLang

/-! ## References -/

/-- The positions that a node list refers to, one after the other. -/
def references (nodes : List Node) : List Int :=
  nodes.flatMap (·.children)

theorem lookup_countUse (counts : List (Int × Nat)) (id i : Int) :
    (countUse counts id).lookup i =
      if i = id then some ((counts.lookup id).getD 0 + 1) else counts.lookup i := by
  induction counts with
  | nil =>
      by_cases h : i = id
      · simp [countUse, h]
      · simp [countUse, h, lookup_cons_of_ne h]
  | cons c counts ih =>
      obtain ⟨j, n⟩ := c
      unfold countUse
      by_cases hj : j = id
      · subst hj
        by_cases h : i = j
        · simp [h]
        · simp [h, lookup_cons_of_ne h]
      · rw [if_neg hj, lookup_cons_of_ne (Ne.symm hj)]
        by_cases h : i = j
        · subst h
          simp [hj]
        · rw [lookup_cons_of_ne h, lookup_cons_of_ne h, ih]

theorem lookup_foldl_countUse (refs : List Int) (counts : List (Int × Nat)) (i : Int) :
    (refs.foldl countUse counts).lookup i =
      if refs.count i = 0 then counts.lookup i
      else some ((counts.lookup i).getD 0 + refs.count i) := by
  induction refs generalizing counts with
  | nil => simp
  | cons r refs ih =>
      rw [List.foldl_cons, ih, lookup_countUse, List.count_cons]
      by_cases h : i = r
      · subst h
        by_cases hc : refs.count i = 0
        · simp [hc]
        · simp [hc]
          omega
      · have hr : (r == i) = false := beq_false_of_ne (Ne.symm h)
        simp [h, hr]

theorem mem_countUse {counts : List (Int × Nat)} {id i : Int} {n : Nat}
    (h : (i, n) ∈ countUse counts id) :
    (i, n) ∈ counts ∨ i = id ∧ ∃ m, n = m + 1 ∧ ((id, m) ∈ counts ∨ m = 0) := by
  induction counts with
  | nil =>
      obtain ⟨rfl, rfl⟩ := Prod.mk.inj (List.mem_singleton.1 h)
      exact .inr ⟨rfl, 0, rfl, .inr rfl⟩
  | cons c counts ih =>
      obtain ⟨j, m⟩ := c
      unfold countUse at h
      split at h
      · next hj =>
          subst hj
          rcases List.mem_cons.1 h with h | h
          · obtain ⟨rfl, rfl⟩ := Prod.mk.inj h
            exact .inr ⟨rfl, m, rfl, .inl List.mem_cons_self⟩
          · exact .inl (List.mem_cons_of_mem _ h)
      · rcases List.mem_cons.1 h with h | h
        · exact .inl (h ▸ List.mem_cons_self)
        · rcases ih h with h | ⟨hi, k, hk, h⟩
          · exact .inl (List.mem_cons_of_mem _ h)
          · exact .inr ⟨hi, k, hk, h.imp_left (List.mem_cons_of_mem _)⟩

/-- No count exceeds the number of references. -/
theorem le_count_of_mem_foldl {refs : List Int} {counts : List (Int × Nat)} {i : Int} {n : Nat}
    (h : (i, n) ∈ refs.foldl countUse counts) :
    ∃ m, n ≤ m + refs.count i ∧ ((i, m) ∈ counts ∨ m = 0) := by
  induction refs generalizing counts with
  | nil => exact ⟨n, by simp, .inl h⟩
  | cons r refs ih =>
      obtain ⟨m, hm, hmem⟩ := ih h
      rw [List.count_cons]
      rcases hmem with hmem | rfl
      · rcases mem_countUse hmem with hmem | ⟨rfl, k, rfl, hk⟩
        · exact ⟨m, by omega, .inl hmem⟩
        · exact ⟨k, by simp; omega, hk⟩
      · exact ⟨0, by omega, .inr rfl⟩

/-! ## Temporaries -/

/-- A position is a number that is written wherever it is used. -/
def Inlined (options : ResidualOptions) (nodes : List Node) (i : Nat) : Prop :=
  options.inlineNumbers = true ∧ ∃ node, nodes[i]? = some node ∧ node.kind = .num

instance (options : ResidualOptions) (nodes : List Node) (i : Nat) :
    Decidable (Inlined options nodes i) :=
  match h : nodes[i]? with
  | none => isFalse fun ⟨_, node, hn, _⟩ => by rw [h] at hn; cases hn
  | some node =>
    if hk : options.inlineNumbers = true ∧ node.kind = .num then
      isTrue ⟨hk.1, node, h, hk.2⟩
    else isFalse fun ⟨ho, node', hn, hk'⟩ => hk ⟨ho, by
      rw [h] at hn
      obtain rfl := Option.some.inj hn
      exact hk'⟩

/-- The name of the temporary for a position, if it has one: it is referred to at least twice, and
is no number that is written wherever it is used. -/
def temporary? (options : ResidualOptions) (nodes : List Node) (i : Nat) : Option String :=
  if 2 ≤ (references nodes).count (i : Int) ∧ ¬ Inlined options nodes i then
    some (options.stem ++ toString (i : Int))
  else none

theorem temporary?_eq_some {options : ResidualOptions} {nodes : List Node} {i : Nat} {s : String}
    (h : temporary? options nodes i = some s) :
    2 ≤ (references nodes).count (i : Int) ∧ ¬ Inlined options nodes i ∧
      s = options.stem ++ toString (i : Int) := by
  obtain ⟨⟨hc, hi⟩, hs⟩ := Option.ite_none_right_eq_some.1 h
  exact ⟨hc, hi, (Option.some.inj hs).symm⟩

/-- No two positions share a temporary. -/
theorem temporary?_injective {options : ResidualOptions} {nodes : List Node} {i j : Nat}
    {s : String} (hi : temporary? options nodes i = some s)
    (hj : temporary? options nodes j = some s) : i = j := by
  obtain ⟨-, -, rfl⟩ := temporary?_eq_some hi
  obtain ⟨-, -, heq⟩ := temporary?_eq_some hj
  have hrepr : Int.repr i = Int.repr j := (String.append_right_inj _).1 heq
  exact Int.ofNat.inj (Int.repr_inj.1 hrepr)

/-- The temporaries that are given for some counts, in their order. -/
def sharedNames (options : ResidualOptions) (nodes : List Node) (counts : List (Int × Nat)) :
    List (Int × String) :=
  (counts.filter fun c => 1 < c.2 ∧ ¬ Inlined options nodes c.1.toNat).map fun c =>
    (c.1, options.stem ++ toString c.1)

theorem mem_useCounts_of_pos {nodes : List Node} {i : Int} (h : 0 < (references nodes).count i) :
    (i, (references nodes).count i) ∈ useCounts nodes := by
  refine mem_of_lookup ?_
  show ((references nodes).foldl countUse []).lookup i = _
  rw [lookup_foldl_countUse, if_neg (Nat.ne_of_gt h)]
  simp

theorem le_count_of_mem_useCounts {nodes : List Node} {i : Int} {n : Nat}
    (h : (i, n) ∈ useCounts nodes) : n ≤ (references nodes).count i := by
  obtain ⟨m, hm, hmem | rfl⟩ := le_count_of_mem_foldl h
  · cases hmem
  · simpa [references] using hm

/-- The names given for the counts of a node list are its temporaries. -/
theorem mem_sharedNames {options : ResidualOptions} {nodes : List Node} {i : Nat} {s : String} :
    ((i : Int), s) ∈ sharedNames options nodes (useCounts nodes) ↔
      temporary? options nodes i = some s := by
  constructor
  · intro h
    obtain ⟨⟨id, n⟩, hc, heq⟩ := List.mem_map.1 h
    obtain ⟨rfl, rfl⟩ := Prod.mk.inj heq
    obtain ⟨hmem, hP⟩ := List.mem_filter.1 hc
    obtain ⟨hlt, hi⟩ := of_decide_eq_true hP
    exact if_pos ⟨Nat.le_trans hlt (le_count_of_mem_useCounts hmem), hi⟩
  · intro h
    obtain ⟨hc, hi, rfl⟩ := temporary?_eq_some h
    have hmem := mem_useCounts_of_pos (Nat.lt_of_lt_of_le Nat.zero_lt_two hc)
    exact List.mem_map.2 ⟨_, List.mem_filter.2 ⟨hmem, decide_eq_true ⟨hc, hi⟩⟩, rfl⟩

theorem lookup_sharedNames (options : ResidualOptions) (nodes : List Node) (i : Nat) :
    (sharedNames options nodes (useCounts nodes)).lookup (i : Int) =
      temporary? options nodes i := by
  cases hx : (sharedNames options nodes (useCounts nodes)).lookup (i : Int) with
  | some s => exact (mem_sharedNames.1 (mem_of_lookup hx)).symm
  | none =>
      cases ht : temporary? options nodes i with
      | none => rfl
      | some s =>
          have hne := List.lookup_eq_none_iff.1 hx _ (mem_sharedNames.2 ht)
          simp at hne

theorem exempt_run (options : ResidualOptions) {nodes : List Node} {i : Nat}
    (hi : i < nodes.length) (b : Bench) :
    (Work.exempt options nodes i).run b = .ok (decide (Inlined options nodes i)) b := by
  unfold Work.exempt
  by_cases ho : options.inlineNumbers = true
  · have hnode : (position? nodes.length (i : Int)).bind (nodes[·]?) = some nodes[i] := by
      simp [position?_of_lt hi, hi]
    have hdec : (nodes[i].kind == .num) = decide (Inlined options nodes i) := by
      rw [Bool.eq_iff_iff, beq_iff_eq, decide_eq_true_eq]
      simp [Inlined, ho, hi]
    rw [if_pos ho, hnode, ← hdec]
    rfl
  · have hdec : decide (Inlined options nodes i) = false := by
      simp [Inlined, ho]
    rw [if_neg ho, hdec]
    rfl

/-- Naming succeeds if the positions that are referred to more than once are in the list. -/
theorem nameShared_run (options : ResidualOptions) {nodes : List Node}
    {counts : List (Int × Nat)}
    (h : ∀ c ∈ counts, 1 < c.2 → ∃ i : Nat, c.1 = i ∧ i < nodes.length) (b : Bench) :
    (Work.nameShared options nodes counts).run b =
      .ok () { b with named := b.named ++ sharedNames options nodes counts } := by
  induction counts generalizing b with
  | nil => simp [Work.nameShared, sharedNames]
  | cons c counts ih =>
      obtain ⟨id, n⟩ := c
      obtain ⟨hhead, hrest⟩ := List.forall_mem_cons.1 h
      unfold Work.nameShared sharedNames
      by_cases hn : 1 < n
      · obtain ⟨i, hid, hi⟩ := hhead hn
        obtain rfl : id = i := hid
        by_cases hin : Inlined options nodes i
        · simp [hn, hin, EStateM.run_bind, exempt_run options hi, ih hrest, sharedNames]
        · simp [hn, hin, EStateM.run_bind, exempt_run options hi, ih hrest, sharedNames]
      · simp [hn, ih hrest, sharedNames]

/-! ## The bench -/

/-- The bench after the first `n` nodes and the references `taken`, when all expressions that it
can hand out for a position have the property `P`. -/
structure Tidy (options : ResidualOptions) (nodes : List Node) (P : Nat → Expr → Prop) (n : Nat)
    (taken : List Int) (b : Bench) : Prop where
  named : b.named = sharedNames options nodes (useCounts nodes)
  /-- What waits is what has been made, has no other place and has not been taken. -/
  waiting_iff : ∀ i : Nat, (b.waiting.lookup (i : Int)).isSome ↔
    i < n ∧ temporary? options nodes i = none ∧ ¬ Inlined options nodes i ∧ (i : Int) ∉ taken
  numbers_iff : ∀ i : Nat, (b.numbers.lookup (i : Int)).isSome ↔ i < n ∧ Inlined options nodes i
  waiting_ok : ∀ (i : Nat) (e : Expr), b.waiting.lookup (i : Int) = some e → P i e
  numbers_ok : ∀ (i : Nat) (k : Int), b.numbers.lookup (i : Int) = some k → P i (.num k)
  /-- References go back. -/
  taken_lt : ∀ r ∈ taken, r < (n : Int)

section

variable {options : ResidualOptions} {nodes : List Node} {P Q : Nat → Expr → Prop} {n : Nat}
  {taken later : List Int} {b : Bench}

theorem Tidy.lookup_named (h : Tidy options nodes P n taken b) (i : Nat) :
    b.named.lookup (i : Int) = temporary? options nodes i := by
  rw [h.named, lookup_sharedNames]

theorem Tidy.taken_concat_lt (h : Tidy options nodes P n taken b) {i : Nat} (hi : i < n) :
    ∀ r ∈ taken ++ [(i : Int)], r < (n : Int) := by
  intro r hr
  rcases List.mem_append.1 hr with hr | hr
  · exact h.taken_lt r hr
  · rw [List.mem_singleton.1 hr]
    exact Int.ofNat_lt.2 hi

/-- A reference to a position that does not wait leaves the bench as it is. -/
theorem Tidy.refer (h : Tidy options nodes P n taken b) {i : Nat} (hi : i < n)
    (hplace : temporary? options nodes i ≠ none ∨ Inlined options nodes i) :
    Tidy options nodes P n (taken ++ [(i : Int)]) b where
  named := h.named
  waiting_iff j := by
    rw [h.waiting_iff j, List.mem_append, List.mem_singleton]
    constructor
    · rintro ⟨hj, ht, hn, hmem⟩
      refine ⟨hj, ht, hn, ?_⟩
      rintro (hm | hij)
      · exact hmem hm
      · obtain rfl : j = i := Int.ofNat.inj hij
        exact hplace.elim (fun hp => hp ht) hn
    · rintro ⟨hj, ht, hn, hmem⟩
      exact ⟨hj, ht, hn, fun hm => hmem (.inl hm)⟩
  numbers_iff := h.numbers_iff
  waiting_ok := h.waiting_ok
  numbers_ok := h.numbers_ok
  taken_lt := h.taken_concat_lt hi

/-- A reference to a position that waits takes it off the bench. -/
theorem Tidy.handOut (h : Tidy options nodes P n taken b) {i : Nat} (hi : i < n) :
    Tidy options nodes P n (taken ++ [(i : Int)])
      { b with waiting := b.waiting.filter (·.1 ≠ (i : Int)) } where
  named := h.named
  waiting_iff j := by
    rw [lookup_filter_ne, List.mem_append, List.mem_singleton]
    by_cases hj : (j : Int) = (i : Int)
    · simp [hj]
    · rw [if_neg hj, h.waiting_iff j]
      simp [hj]
  numbers_iff := h.numbers_iff
  waiting_ok j e he := by
    rw [lookup_filter_ne] at he
    split at he
    · cases he
    · exact h.waiting_ok j e he
  numbers_ok := h.numbers_ok
  taken_lt := h.taken_concat_lt hi

/-- A position that has no temporary and is not written in place is referred to once at most. -/
theorem not_mem_of_references {i : Nat} (ht : temporary? options nodes i = none)
    (hn : ¬ Inlined options nodes i) (hrefs : references nodes = taken ++ (i : Int) :: later) :
    (i : Int) ∉ taken := by
  intro hmem
  have hcount : 2 ≤ (references nodes).count (i : Int) := by
    have := List.count_pos_iff.2 hmem
    rw [hrefs, List.count_append, List.count_cons_self]
    omega
  rw [temporary?, if_pos ⟨hcount, hn⟩] at ht
  cases ht

/-- The expression for a position that has been made is there when it is referred to. -/
theorem Tidy.takeExpr (hnamed : ∀ i s, temporary? options nodes i = some s → P i (.var s))
    (h : Tidy options nodes P n taken b) {i : Nat} (hi : i < n)
    (hrefs : references nodes = taken ++ (i : Int) :: later) :
    ∃ e b', (Work.takeExpr i).run b = .ok e b' ∧ P i e ∧
      Tidy options nodes P n (taken ++ [(i : Int)]) b' ∧ b'.written = b.written := by
  have hlookup := h.lookup_named i
  cases ht : temporary? options nodes i with
  | some s =>
      rw [ht] at hlookup
      have hrun : (Work.takeExpr i).run b = .ok (.var s) b := by
        simp [Work.takeExpr, EStateM.run_bind, hlookup]
      exact ⟨_, b, hrun, hnamed i s ht, h.refer hi (.inl (by simp [ht])), rfl⟩
  | none =>
      rw [ht] at hlookup
      by_cases hin : Inlined options nodes i
      · obtain ⟨k, hk⟩ := Option.isSome_iff_exists.1 ((h.numbers_iff i).2 ⟨hi, hin⟩)
        have hrun : (Work.takeExpr i).run b = .ok (.num k) b := by
          simp [Work.takeExpr, EStateM.run_bind, hlookup, hk]
        exact ⟨_, b, hrun, h.numbers_ok i k hk, h.refer hi (.inr hin), rfl⟩
      · have hmem := not_mem_of_references ht hin hrefs
        obtain ⟨e, he⟩ := Option.isSome_iff_exists.1 ((h.waiting_iff i).2 ⟨hi, ht, hin, hmem⟩)
        have hk : b.numbers.lookup (i : Int) = none := by
          rw [← Option.not_isSome_iff_eq_none, h.numbers_iff]
          exact fun hk => hin hk.2
        have hrun : (Work.takeExpr i).run b =
            .ok e { b with waiting := b.waiting.filter (·.1 ≠ (i : Int)) } := by
          simp only [Work.takeExpr, EStateM.run_bind, EStateM.run_get, hlookup, hk, he]
          rfl
        exact ⟨e, _, hrun, h.waiting_ok i e he, h.handOut hi, rfl⟩

end

/-! ## Statements -/

/-- Two properties that the work keeps up: `P` of the expressions that are handed out for a
position, and `Q` of those that are made for a node. -/
structure Keeps (options : ResidualOptions) (nodes : List Node) (P Q : Nat → Expr → Prop) :
    Prop where
  made : ∀ {i : Nat} {e : Expr}, temporary? options nodes i = none → Q i e → P i e
  named : ∀ {i : Nat} {s : String}, temporary? options nodes i = some s → P i (.var s)
  num : ∀ {i : Nat} {label : Option Label} {k : Int}, nodes[i]? = some ⟨.num, label, []⟩ →
    Label.number label = .ok k → Q i (.num k)
  symbol : ∀ {i : Nat} {label : Option Label}, nodes[i]? = some ⟨.symbol, label, []⟩ →
    Q i (.var (Label.name label))
  bin : ∀ {i j k : Nat} {op : BinOp} {label : Option Label} {l r : Expr},
    nodes[i]? = some ⟨.bin op, label, [(j : Int), (k : Int)]⟩ → j < i → k < i → P j l → P k r →
    Q i (.bin op l r)
  arg : ∀ {i j : Nat} {label : Option Label} {e : Expr},
    nodes[i]? = some ⟨.arg, label, [(j : Int)]⟩ → j < i → P j e → Q i (.input e)
  effect : ∀ {i : Nat} {node : Node}, nodes[i]? = some node →
    node.kind = .silent ∨ node.kind = .print → Q i Work.effectExpr

/-- The statements that are written when the expression of a node is made: a print prints the
expression for its value. -/
inductive Prints (P : Nat → Expr → Prop) (n : Nat) : Node → List Stmt → Prop where
  | nothing {node : Node} (h : node.kind ≠ .print) : Prints P n node []
  | value {label : Option Label} {j k : Nat} {v : Expr} (hk : k < n) (hv : P k v) :
      Prints P n ⟨.print, label, [(j : Int), (k : Int)]⟩ [.print v]

/-- The statements that are written when an expression is kept: it is assigned to the temporary. -/
def assignTo : Option String → Expr → List Stmt
  | some s, e => [.assign s e]
  | none, _ => []

/-- The statements that are written for some nodes, which begin at a position. -/
inductive Emits (options : ResidualOptions) (nodes : List Node) (P Q : Nat → Expr → Prop) :
    Nat → List Node → List Stmt → Prop where
  | nil {n : Nat} : Emits options nodes P Q n [] []
  | cons {n : Nat} {node : Node} {rest : List Node} {prints ss : List Stmt} {e : Expr}
      (hp : Prints P n node prints) (he : Q n e) (hs : Emits options nodes P Q (n + 1) rest ss) :
      Emits options nodes P Q n (node :: rest)
        (prints ++ assignTo (temporary? options nodes n) e ++ ss)

section

variable {options : ResidualOptions} {nodes : List Node} {P Q : Nat → Expr → Prop} {n : Nat}
  {taken later : List Int} {b : Bench}

theorem Work.run_bind_ok {α β : Type} {x : Work α} {f : α → Work β} {b b' : Bench} {a : α}
    (h : x.run b = .ok a b') : (x >>= f).run b = (f a).run b' := by
  rw [EStateM.run_bind, h]

/-- Statements do not matter for what can be handed out. -/
theorem Tidy.with_written (h : Tidy options nodes P n taken b) (ss : List Stmt) :
    Tidy options nodes P n taken { b with written := ss } :=
  ⟨h.named, h.waiting_iff, h.numbers_iff, h.waiting_ok, h.numbers_ok, h.taken_lt⟩

/-- The expressions for two positions, one after the other. -/
theorem Tidy.takeTwo (hK : Keeps options nodes P Q) (h : Tidy options nodes P n taken b)
    {j k : Nat} (hj : j < n) (hk : k < n)
    (hrefs : references nodes = taken ++ [(j : Int), (k : Int)] ++ later) :
    ∃ l r b₁ b₂, (Work.takeExpr j).run b = .ok l b₁ ∧ (Work.takeExpr k).run b₁ = .ok r b₂ ∧
      P j l ∧ P k r ∧ Tidy options nodes P n (taken ++ [(j : Int), (k : Int)]) b₂ ∧
      b₂.written = b.written := by
  have hnamed : ∀ i s, temporary? options nodes i = some s → P i (.var s) :=
    fun _ _ => hK.named
  obtain ⟨l, b₁, hl, hPl, h₁, hw₁⟩ := h.takeExpr hnamed hj (by simpa using hrefs)
  obtain ⟨r, b₂, hr, hPr, h₂, hw₂⟩ := h₁.takeExpr hnamed hk (by simpa using hrefs)
  refine ⟨l, r, b₁, b₂, hl, hr, hPl, hPr, ?_, hw₂.trans hw₁⟩
  simpa using h₂

/-- The expression of a node that unfolds is made. -/
theorem Tidy.exprOf (hK : Keeps options nodes P Q) (h : Tidy options nodes P n taken b)
    {node : Node} (hnode : nodes[n]? = some node) {u : Term} (hu : Unfolds nodes n u)
    (hrefs : references nodes = taken ++ node.children ++ later) :
    ∃ e b' prints, (Work.exprOf node).run b = .ok e b' ∧ Q n e ∧
      (node.kind = .num → ∃ k, e = .num k) ∧
      Tidy options nodes P n (taken ++ node.children) b' ∧
      b'.written = b.written ++ prints ∧ Prints P n node prints := by
  cases hu with
  | num hn hk =>
      obtain rfl := Option.some.inj (hnode.symm.trans hn)
      refine ⟨_, b, [], ?_, hK.num hn hk, fun _ => ⟨_, rfl⟩, by simpa using h, by simp,
        .nothing (by simp)⟩
      simp [Work.exprOf, hk]
  | symbol hn =>
      obtain rfl := Option.some.inj (hnode.symm.trans hn)
      exact ⟨_, b, [], rfl, hK.symbol hn, by simp, by simpa using h, by simp, .nothing (by simp)⟩
  | silent hn =>
      obtain rfl := Option.some.inj (hnode.symm.trans hn)
      exact ⟨_, b, [], rfl, hK.effect hn (.inl rfl), by simp, by simpa using h, by simp,
        .nothing (by simp)⟩
  | arg hn hj ht =>
      obtain rfl := Option.some.inj (hnode.symm.trans hn)
      obtain ⟨e, b₁, he, hPe, h₁, hw⟩ := h.takeExpr (fun _ _ => hK.named) hj (by simpa using hrefs)
      refine ⟨.input e, b₁, [], ?_, hK.arg hn hj hPe, by simp, h₁, by simpa using hw,
        .nothing (by simp)⟩
      exact Work.run_bind_ok he
  | bin hn hj hk hl hr =>
      obtain rfl := Option.some.inj (hnode.symm.trans hn)
      obtain ⟨l, r, b₁, b₂, hl, hr, hPl, hPr, h₂, hw⟩ := h.takeTwo hK hj hk hrefs
      refine ⟨.bin _ l r, b₂, [], ?_, hK.bin hn hj hk hPl hPr, by simp, h₂, by simpa using hw,
        .nothing (by simp)⟩
      exact (Work.run_bind_ok hl).trans (Work.run_bind_ok hr)
  | print hn hj hk he hv =>
      obtain rfl := Option.some.inj (hnode.symm.trans hn)
      obtain ⟨e, v, b₁, b₂, he, hv, -, hPv, h₂, hw⟩ := h.takeTwo hK hj hk hrefs
      refine ⟨Work.effectExpr, { b₂ with written := b₂.written ++ [.print v] }, [.print v], ?_,
        hK.effect hn (.inr rfl), by simp, h₂.with_written _, by simp [hw], .value hk hPv⟩
      exact (Work.run_bind_ok he).trans (Work.run_bind_ok hv)

/-- The bench after one more node, whose expression has found its place. -/
theorem Tidy.succ (h : Tidy options nodes P n taken b) {b' : Bench} (hnamed : b'.named = b.named)
    (hw : ∀ i : Nat, i ≠ n → b'.waiting.lookup (i : Int) = b.waiting.lookup (i : Int))
    (hk : ∀ i : Nat, i ≠ n → b'.numbers.lookup (i : Int) = b.numbers.lookup (i : Int))
    (hwn : (b'.waiting.lookup (n : Int)).isSome ↔
      temporary? options nodes n = none ∧ ¬ Inlined options nodes n)
    (hkn : (b'.numbers.lookup (n : Int)).isSome ↔ Inlined options nodes n)
    (hPw : ∀ e, b'.waiting.lookup (n : Int) = some e → P n e)
    (hPk : ∀ k, b'.numbers.lookup (n : Int) = some k → P n (.num k)) :
    Tidy options nodes P (n + 1) taken b' where
  named := hnamed.trans h.named
  waiting_iff i := by
    by_cases hi : i = n
    · subst hi
      have hmem : (i : Int) ∉ taken := fun hm => absurd (h.taken_lt _ hm) (Int.lt_irrefl _)
      simp [hwn, hmem]
    · rw [hw i hi, h.waiting_iff i, Nat.lt_succ_iff_lt_or_eq, or_iff_left hi]
  numbers_iff i := by
    by_cases hi : i = n
    · subst hi
      simp [hkn]
    · rw [hk i hi, h.numbers_iff i, Nat.lt_succ_iff_lt_or_eq, or_iff_left hi]
  waiting_ok i e he := by
    by_cases hi : i = n
    · subst hi
      exact hPw e he
    · exact h.waiting_ok i e (hw i hi ▸ he)
  numbers_ok i k hki := by
    by_cases hi : i = n
    · subst hi
      exact hPk k hki
    · exact h.numbers_ok i k (hk i hi ▸ hki)
  taken_lt r hr := by
    have := h.taken_lt r hr
    omega

theorem Tidy.waiting_self (h : Tidy options nodes P n taken b) :
    b.waiting.lookup (n : Int) = none := by
  rw [← Option.not_isSome_iff_eq_none, h.waiting_iff]
  exact fun hn => Nat.lt_irrefl n hn.1

theorem Tidy.numbers_self (h : Tidy options nodes P n taken b) :
    b.numbers.lookup (n : Int) = none := by
  rw [← Option.not_isSome_iff_eq_none, h.numbers_iff]
  exact fun hn => Nat.lt_irrefl n hn.1

theorem Tidy.keepNamed (h : Tidy options nodes P n taken b) {s : String}
    (ht : temporary? options nodes n = some s) (ss : List Stmt) :
    Tidy options nodes P (n + 1) taken { b with written := ss } := by
  obtain ⟨-, hin, -⟩ := temporary?_eq_some ht
  refine h.succ rfl (fun _ _ => rfl) (fun _ _ => rfl) ?_ ?_ ?_ ?_
  · simp [h.waiting_self, ht]
  · simp [h.numbers_self, hin]
  · intro e he
    simp [h.waiting_self] at he
  · intro k hk
    simp [h.numbers_self] at hk

theorem Tidy.keepNumber (h : Tidy options nodes P n taken b) (hin : Inlined options nodes n)
    {k : Int} (hP : P n (.num k)) :
    Tidy options nodes P (n + 1) taken { b with numbers := b.numbers ++ [((n : Int), k)] } := by
  have hself := lookup_concat_self h.numbers_self k
  refine h.succ rfl (fun _ _ => rfl) ?_ ?_ ?_ ?_ ?_
  · intro i hi
    exact lookup_concat_of_ne (by omega) _ _
  · simp [h.waiting_self, hin]
  · simp [hself, hin]
  · intro e he
    simp [h.waiting_self] at he
  · intro k' hk'
    obtain rfl := Option.some.inj (hself.symm.trans hk')
    exact hP

theorem Tidy.keepWaiting (h : Tidy options nodes P n taken b)
    (ht : temporary? options nodes n = none) (hin : ¬ Inlined options nodes n) {e : Expr}
    (hP : P n e) :
    Tidy options nodes P (n + 1) taken { b with waiting := b.waiting ++ [((n : Int), e)] } := by
  have hself := lookup_concat_self h.waiting_self e
  refine h.succ rfl ?_ (fun _ _ => rfl) ?_ ?_ ?_ ?_
  · intro i hi
    exact lookup_concat_of_ne (by omega) _ _
  · simp [hself, ht, hin]
  · simp [h.numbers_self, hin]
  · intro e' he'
    obtain rfl := Option.some.inj (hself.symm.trans he')
    exact hP
  · intro k hk
    simp [h.numbers_self] at hk

namespace Work

variable {id : Int} {node : Node} {e : Expr}

theorem keep_run_named {s : String} (h : b.named.lookup id = some s) :
    (keep options id node e).run b =
      .ok () { b with written := b.written ++ [.assign s e] } := by
  unfold keep
  simp only [EStateM.run_bind, EStateM.run_get, h]
  rfl

theorem keep_run_number (h : b.named.lookup id = none) (ho : options.inlineNumbers = true)
    (hk : node.kind = .num) (k : Int) :
    (keep options id node (.num k)).run b =
      .ok () { b with numbers := b.numbers ++ [(id, k)] } := by
  unfold keep
  simp only [EStateM.run_bind, EStateM.run_get, h, ho, hk]
  rfl

theorem keep_run_waiting (h : b.named.lookup id = none)
    (hn : ¬ (options.inlineNumbers = true ∧ node.kind = .num)) :
    (keep options id node e).run b = .ok () { b with waiting := b.waiting ++ [(id, e)] } := by
  have hfalse : (options.inlineNumbers && node.kind == .num) = false := by
    simpa using hn
  unfold keep
  simp only [EStateM.run_bind, EStateM.run_get, h, hfalse]
  rfl

end Work

/-- The expression that has been made for a node is kept. -/
theorem Tidy.keep (hK : Keeps options nodes P Q) (h : Tidy options nodes P n taken b)
    {node : Node} (hnode : nodes[n]? = some node) {e : Expr} (he : Q n e)
    (hnum : node.kind = .num → ∃ k, e = .num k) :
    ∃ b', (Work.keep options n node e).run b = .ok () b' ∧
      Tidy options nodes P (n + 1) taken b' ∧
      b'.written = b.written ++ assignTo (temporary? options nodes n) e := by
  have hlookup := h.lookup_named n
  cases ht : temporary? options nodes n with
  | some s => exact ⟨_, Work.keep_run_named (hlookup.trans ht), h.keepNamed ht _, rfl⟩
  | none =>
      have hP : P n e := hK.made ht he
      by_cases hin : options.inlineNumbers = true ∧ node.kind = .num
      · obtain ⟨k, rfl⟩ := hnum hin.2
        refine ⟨_, Work.keep_run_number (hlookup.trans ht) hin.1 hin.2 k, ?_, by simp [assignTo]⟩
        exact h.keepNumber ⟨hin.1, node, hnode, hin.2⟩ hP
      · refine ⟨_, Work.keep_run_waiting (hlookup.trans ht) hin, ?_, by simp [assignTo]⟩
        refine h.keepWaiting ht ?_ hP
        rintro ⟨ho, node', hn', hk⟩
        obtain rfl := Option.some.inj (hnode.symm.trans hn')
        exact hin ⟨ho, hk⟩

/-- One node after the other: the work on the rest of a well-formed list succeeds. -/
theorem Tidy.workOff (hK : Keeps options nodes P Q) (hw : WellFormed nodes)
    {done rest : List Node} (hnodes : nodes = done ++ rest)
    (h : Tidy options nodes P done.length (references done) b) :
    ∃ b' ss, (Work.workOff options done.length rest).run b = .ok () b' ∧
      Tidy options nodes P nodes.length (references nodes) b' ∧
      b'.written = b.written ++ ss ∧ Emits options nodes P Q done.length rest ss := by
  induction rest generalizing done b with
  | nil =>
      obtain rfl : nodes = done := by simpa using hnodes
      exact ⟨b, [], rfl, h, by simp, .nil⟩
  | cons node rest ih =>
      have hnode : nodes[done.length]? = some node := by
        rw [hnodes, List.getElem?_append_right (Nat.le_refl _)]
        simp
      obtain ⟨u, hu⟩ := hw done.length (List.getElem?_eq_some_iff.1 hnode).1
      have hrefs : references nodes = references done ++ node.children ++ references rest := by
        simp [references, hnodes]
      obtain ⟨e, b₁, prints, he, hQ, hnum, h₁, hw₁, hp⟩ := h.exprOf hK hnode hu hrefs
      obtain ⟨b₂, hk, h₂, hw₂⟩ := h₁.keep hK hnode hQ hnum
      have hlen : (done ++ [node]).length = done.length + 1 := by simp
      have hdone : references (done ++ [node]) = references done ++ node.children := by
        simp [references]
      have h₂' : Tidy options nodes P (done ++ [node]).length (references (done ++ [node])) b₂ := by
        rw [hlen, hdone]
        exact h₂
      obtain ⟨b₃, ss, hrun, h₃, hw₃, hs⟩ := ih (by simpa using hnodes) h₂'
      rw [hlen] at hrun hs
      refine ⟨b₃, _, ?_, h₃, ?_, .cons hp hQ hs⟩
      · exact (Work.run_bind_ok he).trans ((Work.run_bind_ok hk).trans hrun)
      · rw [hw₃, hw₂, hw₁]
        simp

end

/-- A well-formed list refers to its own positions only. -/
theorem WellFormed.of_mem_references {nodes : List Node} (hw : WellFormed nodes) {r : Int}
    (hr : r ∈ references nodes) : ∃ i : Nat, r = i ∧ i < nodes.length := by
  obtain ⟨node, hnode, hr⟩ := List.mem_flatMap.1 hr
  obtain ⟨i, hi, rfl⟩ := List.getElem_of_mem hnode
  obtain ⟨u, hu⟩ := hw i hi
  obtain ⟨j, rfl, hj⟩ := hu.child_lt (List.getElem?_eq_getElem hi) hr
  exact ⟨j, rfl, Nat.lt_trans hj hi⟩

theorem tidy_start (options : ResidualOptions) (nodes : List Node) (P : Nat → Expr → Prop) :
    Tidy options nodes P 0 [] { named := sharedNames options nodes (useCounts nodes) } where
  named := rfl
  waiting_iff i := by simp
  numbers_iff i := by simp
  waiting_ok i e he := by cases he
  numbers_ok i k hk := by cases hk
  taken_lt r hr := by cases hr

/-- **Work on a well-formed node list succeeds.** The bench is tidy in the end, and the statements
that are written have whatever properties the work keeps up. -/
theorem residual_emits {options : ResidualOptions} {nodes : List Node} {P Q : Nat → Expr → Prop}
    (hw : WellFormed nodes) (hK : Keeps options nodes P Q) :
    ∃ ss, (residual options nodes).result = .ok ss ∧ Emits options nodes P Q 0 nodes ss ∧
      Tidy options nodes P nodes.length (references nodes) (residual options nodes).bench := by
  have hcounts : ∀ c ∈ useCounts nodes, 1 < c.2 → ∃ i : Nat, c.1 = i ∧ i < nodes.length := by
    intro c hc hlt
    have hpos : 0 < (references nodes).count c.1 :=
      Nat.lt_of_lt_of_le (Nat.zero_lt_of_lt hlt) (le_count_of_mem_useCounts hc)
    exact hw.of_mem_references (List.count_pos_iff.1 hpos)
  have hname := nameShared_run options hcounts {}
  obtain ⟨b, ss, hrun, htidy, hwritten, hemits⟩ :=
    Tidy.workOff hK hw (List.nil_append nodes).symm (tidy_start options nodes P)
  have hss : b.written = ss := by simpa using hwritten
  unfold residual
  simp only [hname, List.nil_append]
  rw [List.length_nil] at hrun
  rw [hrun]
  exact ⟨ss, congrArg Except.ok hss, hemits, htidy⟩

end WhileLang
