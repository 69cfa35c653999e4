import WhileLang.Proofs.Code
import WhileLang.Proofs.Denotation
import WhileLang.Proofs.Lookup
import WhileLang.Proofs.Semantics
import WhileLang.Term.Symbolic

/-!
# Straight-line code and its terms

Straight-line code is a block of assignments and prints. It either performs all its statements or
fails at an argument that is not there, and the terms of its symbolic execution denote what it
computes: the term that a variable is bound to denotes the value of the variable, and the chain of
effects denotes what has been printed.

* `Block.perform`: the store and the output after straight-line code.
* `Block.StraightLine`; `Block.Finishes.performs`, `Block.finishes_of_perform`: it performs exactly
  if execution finishes.
* `Env.Holds`: the terms of an environment denote the values of a store.
* `Block.extend_faithful`: symbolic execution is faithful.
* `Block.extend_plain`: its terms are well-sorted and have no symbols.
* `Block.refusal_of_extend`: what has a term is not refused by the compiler.
-/

namespace WhileLang

/-! ## Performing straight-line code -/

/-- The store and the output after a statement, if it is an assignment or a print. -/
def Stmt.perform (args : List Int) (σ : Store) (out : List Int) :
    Stmt → Option (Store × List Int)
  | .assign x e => (e.eval args σ).map fun v => (Function.update σ x v, out)
  | .print e => (e.eval args σ).map fun v => (σ, out ++ [v])
  | _ => none

/-- The store and the output after the statements of a block, one after the other. -/
def Block.perform (args : List Int) : Block → Store → List Int → Option (Store × List Int)
  | [], σ, out => some (σ, out)
  | s :: rest, σ, out => (s.perform args σ out).bind fun after => perform args rest after.1 after.2

/-- A statement that steers nothing. -/
def Stmt.IsSimple : Stmt → Prop
  | .assign _ _ | .print _ => True
  | _ => False

/-- All statements are assignments and prints. -/
def Block.StraightLine (b : Block) : Prop :=
  ∀ s ∈ b, s.IsSimple

variable {args : List Int}

theorem Block.perform_append (b c : Block) (σ : Store) (out : List Int) :
    Block.perform args (b ++ c) σ out =
      (b.perform args σ out).bind fun after => c.perform args after.1 after.2 := by
  induction b generalizing σ out with
  | nil => rfl
  | cons s rest ih =>
      simp only [List.cons_append, perform, Option.bind_assoc, ih]

/-- A statement that performs is a step of the execution. -/
theorem Stmt.step_of_perform {s : Stmt} {rest : Block} {σ σ' : Store} {out out' : List Int}
    (h : s.perform args σ out = some (σ', out')) :
    Execution.step args ⟨s :: rest, σ, out⟩ = .running ⟨rest, σ', out'⟩ := by
  cases s with
  | assign x e | print e =>
      obtain ⟨v, hv, heq⟩ := Option.map_eq_some_iff.1 h
      obtain ⟨rfl, rfl⟩ := Prod.mk.inj heq
      simp only [Execution.step, Execution.withValue, hv]
  | _ => cases h

theorem Stmt.perform_of_step {s : Stmt} {rest : Block} {x : Execution} {σ : Store}
    {out : List Int} (hs : s.IsSimple)
    (h : Execution.step args ⟨s :: rest, σ, out⟩ = .running x) :
    x.todo = rest ∧ s.perform args σ out = some (x.store, x.printed) := by
  cases s with
  | assign y e | print e =>
      simp only [Execution.step, Execution.withValue] at h
      split at h
      · next v hv =>
          obtain rfl := Progression.running.inj h
          exact ⟨rfl, by simp [perform, hv]⟩
      · cases h
  | _ => cases hs

/-- An execution with a statement left has not finished. -/
theorem Execution.step_cons_ne_finished (s : Stmt) (rest : Block) (σ : Store) (out : List Int) :
    Execution.step args ⟨s :: rest, σ, out⟩ ≠ .finished := by
  intro h
  cases s with
  | stray d => cases h
  | _ =>
      simp only [Execution.step, Execution.withValue] at h
      split at h <;> cases h

namespace Block

theorem runFor_of_perform {b : Block} {σ σ' : Store} {out out' : List Int}
    (h : b.perform args σ out = some (σ', out')) :
    ∃ n, Execution.runFor args n ⟨b, σ, out⟩ = (.finished, ⟨[], σ', out'⟩) := by
  induction b generalizing σ out with
  | nil =>
      obtain ⟨rfl, rfl⟩ := Prod.mk.inj (Option.some.inj h)
      exact ⟨1, rfl⟩
  | cons s rest ih =>
      obtain ⟨after, hs, hrest⟩ := Option.bind_eq_some_iff.1 h
      obtain ⟨n, hn⟩ := ih hrest
      exact ⟨n + 1, by rw [Execution.runFor, Stmt.step_of_perform hs]; exact hn⟩

theorem perform_of_runFor {b : Block} (hb : b.StraightLine) {n : Nat} {σ : Store}
    {out : List Int} {x : Execution} (h : Execution.runFor args n ⟨b, σ, out⟩ = (.finished, x)) :
    b.perform args σ out = some (x.store, x.printed) := by
  induction b generalizing n σ out with
  | nil =>
      cases n with
      | zero => cases h
      | succ n =>
          obtain rfl := (Prod.mk.inj h).2
          rfl
  | cons s rest ih =>
      obtain ⟨hs, hrest⟩ := List.forall_mem_cons.1 hb
      cases n with
      | zero => cases h
      | succ n =>
          rw [Execution.runFor] at h
          split at h
          · next y hy =>
              obtain ⟨rfl, hperform⟩ := Stmt.perform_of_step hs hy
              rw [perform, hperform]
              exact ih hrest h
          · next hy => exact absurd hy (Execution.step_cons_ne_finished s rest σ out)
          · cases h

theorem finishes_of_perform {b : Block} {σ : Store} {out : List Int}
    (h : b.perform args (fun _ => 0) [] = some (σ, out)) : b.Finishes args out := by
  obtain ⟨n, hn⟩ := runFor_of_perform h
  exact ⟨n, _, hn, rfl⟩

/-- Straight-line code that finishes performs, with the same output. -/
theorem Finishes.performs {b : Block} {out : List Int} (h : b.Finishes args out)
    (hb : b.StraightLine) :
    ∃ σ, b.perform args (fun _ => 0) [] = some (σ, out) := by
  obtain ⟨n, x, hx, rfl⟩ := h
  exact ⟨x.store, perform_of_runFor hb hx⟩

end Block

/-! ## Environments -/

theorem Env.get?_bind (env : Env) (x : String) (t : Term) (y : String) :
    (env.bind x t).get? y = if y = x then some t else env.get? y := by
  unfold Env.get?
  induction env with
  | nil =>
      by_cases h : y = x
      · simp [Env.bind, h]
      · simp [Env.bind, h, lookup_cons_of_ne h]
  | cons b env ih =>
      obtain ⟨n, old⟩ := b
      unfold Env.bind
      by_cases hn : n = x
      · subst hn
        by_cases h : y = n
        · simp [h]
        · simp [h, lookup_cons_of_ne h]
      · rw [if_neg hn]
        by_cases h : y = n
        · subst h
          simp [hn]
        · rw [lookup_cons_of_ne h, lookup_cons_of_ne h]
          exact ih

/-- Every term of an environment has a property. -/
def Env.All (P : Term → Prop) (env : Env) : Prop :=
  ∀ x t, env.get? x = some t → P t

/-- The terms of an environment denote the values that a store gives to their names. -/
def Env.Holds (ρ : Reading) (env : Env) (σ : Store) : Prop :=
  ∀ x t, env.get? x = some t → t.denote ρ = some (.value (σ x))

theorem Env.All.bind {P : Term → Prop} {env : Env} (h : env.All P) (x : String) {t : Term}
    (ht : P t) : (env.bind x t).All P := by
  intro y u hu
  rw [Env.get?_bind] at hu
  split at hu
  · obtain rfl := Option.some.inj hu
    exact ht
  · exact h y u hu

theorem Env.Holds.bind {ρ : Reading} {env : Env} {σ : Store} (h : env.Holds ρ σ) (x : String)
    {t : Term} {v : Int} (ht : t.denote ρ = some (.value v)) :
    (env.bind x t).Holds ρ (Function.update σ x v) := by
  intro y u hu
  rw [Env.get?_bind] at hu
  by_cases hy : y = x
  · rw [if_pos hy] at hu
    obtain rfl := Option.some.inj hu
    rw [hy, Function.update_self]
    exact ht
  · rw [if_neg hy] at hu
    rw [Function.update_of_ne hy]
    exact h y u hu

/-! ## Symbolic execution -/

theorem Expr.term_bin_eq_ok {env : Env} {op : BinOp} {l r : Expr} {t : Term}
    (h : (bin op l r).term env = .ok t) :
    ∃ a b, l.term env = .ok a ∧ r.term env = .ok b ∧ t = .bin op a b := by
  simp only [term, bind, Except.bind] at h
  split at h
  · cases h
  · next a ha =>
      split at h
      · cases h
      · next b hb => exact ⟨a, b, ha, hb, (Except.ok.inj h).symm⟩

theorem Expr.term_input_eq_ok {env : Env} {i : Expr} {t : Term}
    (h : (input i).term env = .ok t) : ∃ a, i.term env = .ok a ∧ t = .arg a := by
  simp only [term, bind, Except.bind] at h
  split at h
  · cases h
  · next a ha => exact ⟨a, ha, (Except.ok.inj h).symm⟩

theorem Expr.term_var_eq_ok {env : Env} {x : String} {t : Term}
    (h : (var x).term env = .ok t) : env.get? x = some t := by
  simp only [term] at h
  split at h
  · next u hu =>
      obtain rfl := Except.ok.inj h
      exact hu
  · cases h

/-- The term of an expression denotes its value, and nothing if there is none. -/
theorem Expr.denote_term {env : Env} {σ : Store} (henv : env.Holds (.ofArgs args) σ) {e : Expr}
    {t : Term} (h : e.term env = .ok t) :
    t.denote (.ofArgs args) = (e.eval args σ).map Meaning.value := by
  induction e generalizing t with
  | var x => exact henv x t (term_var_eq_ok h)
  | num n =>
      obtain rfl := Except.ok.inj h
      rfl
  | bin op l r ihl ihr =>
      obtain ⟨a, b, ha, hb, rfl⟩ := term_bin_eq_ok h
      rw [Term.denote, ihl ha, ihr hb, eval]
      cases l.eval args σ with
      | none => rfl
      | some x => cases r.eval args σ <;> rfl
  | input i ih =>
      obtain ⟨a, ha, rfl⟩ := term_input_eq_ok h
      rw [Term.denote, ih ha, eval]
      cases i.eval args σ <;> rfl
  | stray d => cases h

/-- A well-sorted term without symbols. -/
structure Term.Plain (k : TermSort) (t : Term) : Prop where
  sort : t.sort? = some k
  symbols : t.symbols = []

theorem Expr.term_plain {env : Env} (henv : env.All (Term.Plain .value)) {e : Expr} {t : Term}
    (h : e.term env = .ok t) : t.Plain .value := by
  induction e generalizing t with
  | var x => exact henv x t (term_var_eq_ok h)
  | num n =>
      obtain rfl := Except.ok.inj h
      exact ⟨if_pos (Word.isWord_wrap n), rfl⟩
  | bin op l r ihl ihr =>
      obtain ⟨a, b, ha, hb, rfl⟩ := term_bin_eq_ok h
      have hl := ihl ha
      have hr := ihr hb
      exact ⟨if_pos ⟨hl.sort, hr.sort⟩, by simp [Term.symbols, hl.symbols, hr.symbols]⟩
  | input i ih =>
      obtain ⟨a, ha, rfl⟩ := term_input_eq_ok h
      exact ⟨if_pos (ih ha).sort, (ih ha).symbols⟩
  | stray d => cases h

theorem Expr.refusal_of_term {env : Env} {slots : List String}
    (hslots : ∀ x t, env.get? x = some t → x ∈ slots) {e : Expr} {t : Term}
    (h : e.term env = .ok t) : e.refusal? slots = none := by
  induction e generalizing t with
  | var x => exact slotRefusal?_eq_none.2 (hslots x t (term_var_eq_ok h))
  | num n => rfl
  | bin op l r ihl ihr =>
      obtain ⟨a, b, ha, hb, -⟩ := term_bin_eq_ok h
      rw [refusal?, ihl ha, ihr hb]
      rfl
  | input i ih =>
      obtain ⟨a, ha, -⟩ := term_input_eq_ok h
      exact ih ha
  | stray d => cases h

namespace Block

variable {env env' : Env} {chain chain' : Term} {b : Block}

/-- What is executed on terms is straight-line code, whose first statement has a term. -/
theorem extend_cons_eq_ok {s : Stmt} (h : Block.extend env chain (s :: b) = (env', .ok chain')) :
    (∃ x e t, s = .assign x e ∧ e.term env = .ok t ∧
      Block.extend (env.bind x t) chain b = (env', .ok chain')) ∨
    ∃ e t, s = .print e ∧ e.term env = .ok t ∧
      Block.extend env (.print chain t) b = (env', .ok chain') := by
  cases s with
  | assign x e =>
      simp only [extend] at h
      split at h
      · next t ht => exact .inl ⟨x, e, t, rfl, ht, h⟩
      · cases (Prod.mk.inj h).2
  | print e =>
      simp only [extend] at h
      split at h
      · next t ht => exact .inr ⟨e, t, rfl, ht, h⟩
      · cases (Prod.mk.inj h).2
  | _ => cases (Prod.mk.inj h).2

theorem straightLine_of_extend (h : b.extend env chain = (env', .ok chain')) :
    b.StraightLine := by
  induction b generalizing env chain with
  | nil => exact fun s hs => by cases hs
  | cons s b ih =>
      rcases extend_cons_eq_ok h with ⟨x, e, t, rfl, -, h⟩ | ⟨e, t, rfl, -, h⟩
      · exact List.forall_mem_cons.2 ⟨trivial, ih h⟩
      · exact List.forall_mem_cons.2 ⟨trivial, ih h⟩

/-- A block goes on where another one has come to. -/
theorem extend_append {c : Block} (h : b.extend env chain = (env', .ok chain')) :
    Block.extend env chain (b ++ c) = Block.extend env' chain' c := by
  induction b generalizing env chain with
  | nil =>
      obtain ⟨rfl, heq⟩ := Prod.mk.inj h
      obtain rfl := Except.ok.inj heq
      rfl
  | cons s b ih =>
      rcases extend_cons_eq_ok h with ⟨x, e, t, rfl, ht, h⟩ | ⟨e, t, rfl, ht, h⟩
      · rw [List.cons_append, Block.extend, ht]
        exact ih h
      · rw [List.cons_append, Block.extend, ht]
        exact ih h

/-- **Symbolic execution is faithful**: after straight-line code has been performed, the terms of
the variables denote their values and the chain of effects denotes the output. -/
theorem extend_faithful (h : b.extend env chain = (env', .ok chain')) {σ σ' : Store}
    {out out' : List Int} (henv : env.Holds (.ofArgs args) σ)
    (hchain : chain.denote (.ofArgs args) = some (.printed out))
    (hb : b.perform args σ out = some (σ', out')) :
    env'.Holds (.ofArgs args) σ' ∧ chain'.denote (.ofArgs args) = some (.printed out') := by
  induction b generalizing env chain σ out with
  | nil =>
      obtain ⟨rfl, heq⟩ := Prod.mk.inj h
      obtain rfl := Except.ok.inj heq
      obtain ⟨rfl, rfl⟩ := Prod.mk.inj (Option.some.inj hb)
      exact ⟨henv, hchain⟩
  | cons s b ih =>
      obtain ⟨after, hs, hrest⟩ := Option.bind_eq_some_iff.1 hb
      rcases extend_cons_eq_ok h with ⟨x, e, t, rfl, ht, h⟩ | ⟨e, t, rfl, ht, h⟩
      · obtain ⟨v, hv, rfl⟩ := Option.map_eq_some_iff.1 hs
        have hd := Expr.denote_term henv ht
        rw [hv] at hd
        exact ih h (henv.bind x hd) hchain hrest
      · obtain ⟨v, hv, rfl⟩ := Option.map_eq_some_iff.1 hs
        have hd := Expr.denote_term henv ht
        rw [hv] at hd
        refine ih h henv ?_ hrest
        rw [Term.denote, hchain, hd]
        rfl

theorem extend_plain (h : b.extend env chain = (env', .ok chain'))
    (henv : env.All (Term.Plain .value)) (hchain : chain.Plain .effect) :
    chain'.Plain .effect := by
  induction b generalizing env chain with
  | nil =>
      obtain rfl := Except.ok.inj (Prod.mk.inj h).2
      exact hchain
  | cons s b ih =>
      rcases extend_cons_eq_ok h with ⟨x, e, t, rfl, ht, h⟩ | ⟨e, t, rfl, ht, h⟩
      · exact ih h (henv.bind x (Expr.term_plain henv ht)) hchain
      · have hv := Expr.term_plain henv ht
        refine ih h henv ⟨if_pos ⟨hchain.sort, hv.sort⟩, ?_⟩
        simp [Term.symbols, hchain.symbols, hv.symbols]

/-- What is executed on terms is not refused, given slots for the names that are bound and for
those that are assigned. -/
theorem refusal_of_extend {slots : List String} (h : b.extend env chain = (env', .ok chain'))
    (hslots : ∀ x t, env.get? x = some t → x ∈ slots) (htargets : ∀ x ∈ b.targets, x ∈ slots) :
    Block.refusal? slots b = none := by
  induction b generalizing env chain with
  | nil => rfl
  | cons s b ih =>
      rw [targets] at htargets
      obtain ⟨hhead, htail⟩ := List.forall_mem_append.1 htargets
      rcases extend_cons_eq_ok h with ⟨x, e, t, rfl, ht, h⟩ | ⟨e, t, rfl, ht, h⟩
      · have hx : x ∈ slots := hhead x (List.mem_singleton.2 rfl)
        have hrest : Block.refusal? slots b = none := by
          refine ih h ?_ htail
          intro y u hu
          rw [Env.get?_bind] at hu
          split at hu
          · next hy => exact hy ▸ hx
          · exact hslots y u hu
        simp [refusal?, Stmt.refusal?, Expr.refusal_of_term hslots ht, hx, hrest]
      · simp [refusal?, Stmt.refusal?, Expr.refusal_of_term hslots ht, ih h hslots htail]

theorem extend_of_symbolic {run : SymbolicRun} (h : (b.symbolic []).2 = .ok run) :
    b.extend [] .silent = (run.env, .ok run.chain) := by
  unfold symbolic at h
  split at h
  · next env' chain heq =>
      obtain rfl := Except.ok.inj h
      exact heq
  · cases h

/-- A block that has a chain of effects from nothing on is not refused. -/
theorem refusal_of_symbolic (h : b.extend [] .silent = (env', .ok chain')) :
    Block.refusal? b.slotTable b = none :=
  refusal_of_extend h (fun x t ht => by cases ht) fun _ hx => mem_slotTable.2 hx

end Block

end WhileLang
