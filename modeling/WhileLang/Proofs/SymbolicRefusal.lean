import Mathlib.Data.List.Induction
import WhileLang.Proofs.StraightLine
import WhileLang.Proofs.VariableReads

/-!
# What symbolic execution refuses

Symbolic execution goes through a block in order and stops at the first statement that it cannot
execute on terms: one that steers control, whatever is in it, or one that reads a variable without
a term. A variable has a term if it was bound in the beginning or has been assigned since. So
whether a block is refused, and why, can be told from the text and the bindings in the beginning.
What was bound when it stopped is what the statements before have bound, no more and no less.

The compiler is less strict about assignments, which may come after the reading. So it accepts all
programs that are executed on terms.

* `Bound`: a variable has a term when some statements have been executed.
* `Stmt.Admitted`, `Block.Admitted`: what can be executed on terms.
* `Stmt.Objection`: why a statement cannot.
* `Block.admitted_or_objection`: a block is admitted, or it has a first statement that is not.
* `Block.extend_of_admitted`, `Block.extend_of_objection`: what becomes of either.
* `Block.extend_refuses_exactly`: the whole account.
-/

namespace WhileLang

/-! ## What can be executed on terms -/

/-- A variable has a term when the statements `pre` have been executed: it was bound before, or one
of them assigns it. -/
def Bound (env : Env) (pre : Block) (x : String) : Prop :=
  (∃ t, env.get? x = some t) ∨ ∃ e, Stmt.assign x e ∈ pre

/-- After the statements `pre`, a statement can be executed on terms: it is an assignment or a
print, and reads what has a term. -/
def Stmt.Admitted (env : Env) (pre : Block) (s : Stmt) : Prop :=
  ∃ e, s.value? = some e ∧ ∀ x ∈ e.reads, Bound env pre x

/-- Each statement of a block can be executed on terms after those before it. -/
def Block.Admitted (env : Env) (b : Block) : Prop :=
  ∀ pre s post, b = pre ++ s :: post → s.Admitted env pre

/-- After the statements `pre`, a statement is refused: for what it is, if it steers control, or
for the first variable in it that has no term. -/
inductive Stmt.Objection (env : Env) (pre : Block) : Stmt → Refusal → Prop where
  | cond {t : Expr} {body orelse : Block} {c : Construct} : c.keyword = "if" →
      Objection env pre (.cond t body orelse) (.controlFlow c)
  | loop {t : Expr} {body : Block} {c : Construct} : c.keyword = "while" →
      Objection env pre (.loop t body) (.controlFlow c)
  | unbound {s : Stmt} {e : Expr} {x : String} : s.value? = some e →
      FirstWithout (Bound env pre) e.reads x → Objection env pre s (.unresolved x)

variable {env env' : Env} {chain chain' : Term} {pre b : Block}

/-- A statement can be executed on terms, or it is refused. -/
theorem Stmt.admitted_or_objection (env : Env) (pre : Block) {s : Stmt} (hs : s.WellFormed) :
    s.Admitted env pre ∨ ∃ r, s.Objection env pre r := by
  cases s with
  | assign y e | print e =>
      rcases forall_or_firstWithout (Bound env pre) e.reads with h | ⟨x, hx⟩
      · exact .inl ⟨e, rfl, h⟩
      · exact .inr ⟨_, .unbound rfl hx⟩
  | cond t body orelse => exact .inr ⟨.controlFlow .cond, .cond rfl⟩
  | loop t body => exact .inr ⟨.controlFlow .loop, .loop rfl⟩
  | stray d =>
      rw [Stmt.WellFormed] at hs
      exact hs.elim

theorem Block.wellFormed_iff {b : Block} : b.WellFormed ↔ ∀ s ∈ b, s.WellFormed := by
  induction b with
  | nil => simp [Block.WellFormed]
  | cons s b ih => simp [Block.WellFormed, ih]

theorem Block.admitted_concat {s : Stmt} :
    Block.Admitted env (b ++ [s]) ↔ b.Admitted env ∧ s.Admitted env b := by
  constructor
  · intro h
    refine ⟨fun pre s' post hb => h pre s' (post ++ [s]) ?_, h b s [] rfl⟩
    rw [hb, List.append_assoc, List.cons_append]
  · rintro ⟨hb, hs⟩ pre s' post heq
    rcases List.eq_nil_or_concat post with rfl | ⟨post, s'', rfl⟩
    · obtain ⟨rfl, hlast⟩ := List.append_inj' heq rfl
      rw [← List.cons.inj hlast |>.1]
      exact hs
    · rw [List.concat_eq_append, ← List.cons_append, ← List.append_assoc] at heq
      exact hb pre s' post (List.append_inj' heq rfl).1

/-- A block can be executed on terms, or it has a first statement that is refused. -/
theorem Block.admitted_or_objection (env : Env) {b : Block} (hb : b.WellFormed) :
    b.Admitted env ∨ ∃ pre s post r, b = pre ++ s :: post ∧ Block.Admitted env pre ∧
      s.Objection env pre r := by
  rw [wellFormed_iff] at hb
  induction b using List.reverseRecOn with
  | nil => exact .inl fun pre s post h => by simp at h
  | append_singleton b s ih =>
      obtain ⟨hb, hs⟩ := List.forall_mem_append.1 hb
      rcases ih hb with hadm | ⟨pre, s', post, r, rfl, hpre, hs'⟩
      · rcases Stmt.admitted_or_objection env b (hs s (by simp)) with h | ⟨r, hr⟩
        · exact .inl (admitted_concat.2 ⟨hadm, h⟩)
        · exact .inr ⟨b, s, [], r, rfl, hadm, hr⟩
      · exact .inr ⟨pre, s', post ++ [s], r, by simp, hpre, hs'⟩

/-! ## What becomes of it -/

/-- An expression that reads what is bound has a term. -/
theorem Expr.exists_term {e : Expr} (he : e.WellFormed)
    (h : ∀ x ∈ e.reads, ∃ t, env.get? x = some t) : ∃ t, e.term env = .ok t := by
  induction e with
  | var x =>
      obtain ⟨t, ht⟩ := h x (by simp [reads])
      exact ⟨t, by rw [term, ht]⟩
  | num n => exact ⟨_, rfl⟩
  | bin op l r ihl ihr =>
      rw [reads, List.forall_mem_append] at h
      obtain ⟨a, ha⟩ := ihl he.1 h.1
      obtain ⟨c, hc⟩ := ihr he.2 h.2
      exact ⟨.bin op a c, by rw [term, ha, hc]; rfl⟩
  | input i ih =>
      obtain ⟨a, ha⟩ := ih he h
      exact ⟨.arg a, by rw [term, ha]; rfl⟩
  | stray d => exact he.elim

/-- An expression is refused for the first variable in it that is not bound. -/
theorem Expr.term_eq_error {e : Expr} (he : e.WellFormed) {x : String}
    (h : FirstWithout (fun y => ∃ t, env.get? y = some t) e.reads x) :
    e.term env = .error (.unresolved x) := by
  induction e with
  | var y =>
      obtain ⟨before, after, heq, -, hx⟩ := h
      obtain ⟨rfl, rfl, -⟩ : before = [] ∧ y = x ∧ after = [] := by
        cases before with
        | nil => simpa [reads, eq_comm] using heq
        | cons z before => simp [reads] at heq
      have hnone : env.get? y = none :=
        Option.eq_none_iff_forall_ne_some.2 fun t ht => hx ⟨t, ht⟩
      rw [term, hnone]
  | num n =>
      obtain ⟨before, after, heq, -⟩ := h
      simp [reads] at heq
  | bin op l r ihl ihr =>
      rcases h.append_cases with hl | ⟨hl, hr⟩
      · rw [term, ihl he.1 hl]
        rfl
      · obtain ⟨a, ha⟩ := exists_term he.1 hl
        rw [term, ha, ihr he.2 hr]
        rfl
  | input i ih =>
      rw [term, ih he h]
      rfl
  | stray d => exact he.elim

namespace Block

/-- A block that is admitted is executed, and what is bound in the end is what was bound before or
has been assigned. -/
theorem extend_of_admitted (chain : Term) (hb : b.WellFormed) (h : b.Admitted env) :
    ∃ env' chain', b.extend env chain = (env', .ok chain') ∧
      ∀ x, (∃ t, env'.get? x = some t) ↔ Bound env b x := by
  rw [wellFormed_iff] at hb
  induction b using List.reverseRecOn with
  | nil => exact ⟨env, chain, rfl, fun x => by simp [Bound]⟩
  | append_singleton b s ih =>
      obtain ⟨hb, hs⟩ := List.forall_mem_append.1 hb
      have hs := hs s (by simp)
      obtain ⟨hadm, e, he, hreads⟩ := admitted_concat.1 h
      obtain ⟨env', chain', hext, hbound⟩ := ih hb hadm
      have hreads' : ∀ x ∈ e.reads, ∃ t, env'.get? x = some t :=
        fun x hx => (hbound x).2 (hreads x hx)
      cases s with
      | assign y e' =>
          obtain rfl : e' = e := Option.some.inj he
          rw [Stmt.WellFormed] at hs
          obtain ⟨t, ht⟩ := Expr.exists_term hs hreads'
          refine ⟨env'.bind y t, chain', by simp only [extend_append hext, extend, ht], ?_⟩
          intro x
          rw [Env.get?_bind]
          by_cases hx : x = y
          · rw [if_pos hx, hx]
            simp [Bound]
          · rw [if_neg hx, hbound x]
            simp [Bound, hx]
      | print e' =>
          obtain rfl : e' = e := Option.some.inj he
          rw [Stmt.WellFormed] at hs
          obtain ⟨t, ht⟩ := Expr.exists_term hs hreads'
          refine ⟨env', .print chain' t, by simp only [extend_append hext, extend, ht], ?_⟩
          intro x
          rw [hbound x]
          simp [Bound]
      | _ => cases he

/-- A block stops at its first statement that is refused, with what is bound by then. -/
theorem extend_of_objection {s : Stmt} {post : Block} {r : Refusal} (chain : Term)
    (hpre : pre.WellFormed) (hs : s.WellFormed) (h : pre.Admitted env)
    (hr : s.Objection env pre r) :
    Block.extend env chain (pre ++ s :: post) = ((pre.extend env chain).1, .error r) := by
  obtain ⟨env', chain', hext, hbound⟩ := extend_of_admitted chain hpre h
  rw [extend_append hext, hext]
  cases hr with
  | @cond _ _ _ c hc =>
      cases c with
      | cond => rw [extend]
      | loop => exact absurd hc (by decide)
  | @loop _ _ c hc =>
      cases c with
      | cond => exact absurd hc (by decide)
      | loop => rw [extend]
  | @unbound s e x he hx =>
      rw [← FirstWithout.congr hbound] at hx
      cases s with
      | assign y e' | print e' =>
          obtain rfl : e' = e := Option.some.inj he
          rw [Stmt.WellFormed] at hs
          rw [extend, Expr.term_eq_error hs hx]
      | _ => cases he

/-- **Symbolic execution refuses exactly what it has no terms for.** From any bindings and any chain
on, a block is executed if its statements are assignments and prints that read what was bound
before or has been assigned by an earlier one. Otherwise it stops at the first statement that is
not so. The reason is the control flow, if the statement steers it, and else the leftmost variable
without a term; the bindings are those after the statements before. A program that is executed on
terms from nothing on is compiled. -/
theorem extend_refuses_exactly (env : Env) (chain : Term) (b : Block) :
    (b.WellFormed →
      ((∃ chain', (b.extend env chain).2 = .ok chain') ↔ b.Admitted env) ∧
      ∀ env' r, b.extend env chain = (env', .error r) ↔
        ∃ pre s post, b = pre ++ s :: post ∧ Block.Admitted env pre ∧ s.Objection env pre r ∧
          env' = (Block.extend env chain pre).1) ∧
    ∀ run, (b.symbolic []).2 = .ok run → ∃ a, b.compile = .ok a := by
  refine ⟨fun hb => ?_, fun run hrun => ?_⟩
  · have hstops : ∀ {pre s post r}, b = pre ++ s :: post → Block.Admitted env pre →
        s.Objection env pre r →
        b.extend env chain = ((Block.extend env chain pre).1, .error r) := by
      rintro pre s post r rfl hpre hr
      rw [wellFormed_iff, List.forall_mem_append, List.forall_mem_cons] at hb
      exact extend_of_objection chain (wellFormed_iff.2 hb.1) hb.2.1 hpre hr
    refine ⟨⟨?_, fun h => ?_⟩, fun env' r => ⟨fun h => ?_, ?_⟩⟩
    · rintro ⟨chain', hok⟩
      rcases admitted_or_objection env hb with h | ⟨pre, s, post, r, heq, hpre, hr⟩
      · exact h
      · rw [hstops heq hpre hr] at hok
        cases hok
    · obtain ⟨env', chain', hext, -⟩ := extend_of_admitted chain hb h
      exact ⟨chain', by rw [hext]⟩
    · rcases admitted_or_objection env hb with hadm | ⟨pre, s, post, r', heq, hpre, hr⟩
      · obtain ⟨env'', chain', hext, -⟩ := extend_of_admitted chain hb hadm
        rw [hext] at h
        cases h
      · rw [hstops heq hpre hr] at h
        obtain ⟨rfl, herror⟩ := Prod.mk.inj h
        obtain rfl := Except.error.inj herror
        exact ⟨pre, s, post, heq, hpre, hr, rfl⟩
    · rintro ⟨pre, s, post, heq, hpre, hr, rfl⟩
      exact hstops heq hpre hr
  · exact (compile_of_accepted (refusal_of_symbolic (extend_of_symbolic hrun))).imp fun _ ha => ha.1

/-- Fetches the argument at the position `y`. -/
def fetch : Stmt :=
  .assign "x" (.input (.var "y"))

/-- Prints an expression with two variables that are not assigned. -/
def printUnknown : Stmt :=
  .print (.bin .mul (.bin .add (.var "x") (.var "z")) (.var "w"))

/-- With `y` bound in the beginning, an argument is fetched. Then a print is refused for the first
variable that it does not know, and a loop for what it is. With an assignment to `y` in place of
the binding, there is a program that is compiled. -/
theorem fetch_then_refused :
    Block.WellFormed [fetch, printUnknown, .loop (.var "v") []] ∧
    Block.extend [("y", .num 1)] .silent [fetch, printUnknown, .loop (.var "v") []] =
      ([("y", .num 1), ("x", .arg (.num 1))], .error (.unresolved "z")) ∧
    Block.WellFormed [fetch, .loop (.var "v") [], printUnknown] ∧
    Block.extend [("y", .num 1)] .silent [fetch, .loop (.var "v") [], printUnknown] =
      ([("y", .num 1), ("x", .arg (.num 1))], .error (.controlFlow .loop)) ∧
    ∃ a, Block.compile [.assign "y" (.num 1), fetch] = .ok a := by
  have hprint : Block.WellFormed [fetch, printUnknown, .loop (.var "v") []] := by
    simp [fetch, printUnknown, Block.WellFormed, Stmt.WellFormed, Expr.WellFormed]
  have hloop : Block.WellFormed [fetch, .loop (.var "v") [], printUnknown] := by
    simp [fetch, printUnknown, Block.WellFormed, Stmt.WellFormed, Expr.WellFormed]
  have hy : Bound [("y", .num 1)] [] "y" := .inl ⟨_, rfl⟩
  have hx : Bound [("y", .num 1)] [fetch] "x" := .inr ⟨_, List.mem_singleton.2 rfl⟩
  have hz : ¬ Bound [("y", .num 1)] [fetch] "z" := by
    rintro (⟨t, ht⟩ | ⟨e, he⟩)
    · cases ht
    · simp [fetch] at he
  have hfetch : Block.Admitted [("y", .num 1)] [fetch] := by
    refine (admitted_concat (b := [])).2 ⟨fun pre s post h => by simp at h, _, rfl, ?_⟩
    simpa [Expr.reads] using hy
  refine ⟨hprint, ?_, hloop, ?_, ?_⟩
  · exact (((extend_refuses_exactly _ _ _).1 hprint).2 _ _).2 ⟨[fetch], _, _, rfl, hfetch,
      .unbound rfl ⟨["x"], ["w"], rfl, by simpa using hx, hz⟩, rfl⟩
  · exact (((extend_refuses_exactly _ _ _).1 hloop).2 _ _).2 ⟨[fetch], _, _, rfl, hfetch,
      .loop rfl, rfl⟩
  · exact (extend_refuses_exactly [] .silent _).2 _ rfl

end Block

end WhileLang
