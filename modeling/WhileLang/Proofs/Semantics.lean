import Mathlib.Logic.Function.Basic
import WhileLang.Machine.Exec
import WhileLang.Program.Basic

/-!
# What programs do

A program is executed statement by statement on a store that gives every variable an integer,
zero to begin with. The statements that are still to be done are a block again: a conditional
puts one of its blocks in front of what follows it, and a loop whose test is not zero puts its
body and itself there.

An expression has a value unless it reads an argument that is not there, and this is the only way
in which execution can fail. It may also go on for ever.

* `Expr.eval` is the value of an expression.
* `Execution` is a program under execution, `Execution.step` one step of it, and
  `Execution.runFor` a number of steps.
* `Block.Finishes`, `Block.Fails` and `Block.Diverges` are the three ways in which a program can
  behave; `Block.behaviour_cases` says that there is no fourth, and `Block.Finishes.not_fails`,
  `Block.Finishes.not_diverges` and `Block.Fails.not_diverges` that they exclude each other.
-/

namespace WhileLang

/-- The values of the variables. -/
abbrev Store := String → Int

/-- The value of an expression; there is none if an argument is read that is not there. -/
def Expr.eval (args : List Int) (σ : Store) : Expr → Option Int
  | var x => some (σ x)
  | num n => some (Word.wrap n)
  | bin op l r => (l.eval args σ).bind fun a => (r.eval args σ).map (op.eval a)
  | input i => (i.eval args σ).bind (argument? args)
  | stray _ => none

/-- A program under execution. -/
structure Execution where
  /-- What is still to be done. -/
  todo : Block
  /-- The values of the variables. -/
  store : Store
  /-- What has been printed, in order. -/
  printed : List Int

/-- What one step of an execution comes to. -/
inductive Progression where
  | running (next : Execution)
  /-- There is nothing left to do. -/
  | finished
  /-- An argument is read that is not there. -/
  | failed

/-- How an execution ended. -/
inductive Ending where
  | finished
  | failed
  /-- It was still going on. -/
  | unfinished
deriving DecidableEq, Repr

namespace Execution

/-- Goes on with the value of an expression, if it has one. -/
def withValue (args : List Int) (x : Execution) (e : Expr) (next : Int → Execution) :
    Progression :=
  match e.eval args x.store with
  | some v => .running (next v)
  | none => .failed

/-- One step: the first of the statements that are to be done. -/
def step (args : List Int) (x : Execution) : Progression :=
  match x.todo with
  | [] => .finished
  | .assign name e :: rest =>
    x.withValue args e fun v => { x with todo := rest, store := Function.update x.store name v }
  | .print e :: rest =>
    x.withValue args e fun v => { x with todo := rest, printed := x.printed ++ [v] }
  | .cond t b o :: rest =>
    x.withValue args t fun v => { x with todo := if v = 0 then o ++ rest else b ++ rest }
  | .loop t b :: rest =>
    x.withValue args t fun v => { x with todo := if v = 0 then rest else b ++ .loop t b :: rest }
  | .stray _ :: _ => .failed

/-- At most a given number of steps. -/
def runFor (args : List Int) : Nat → Execution → Ending × Execution
  | 0, x => (.unfinished, x)
  | n + 1, x =>
    match x.step args with
    | .running y => runFor args n y
    | .finished => (.finished, x)
    | .failed => (.failed, x)

variable {args : List Int}

/-- An execution that has ended stays as it ended, however long one waits. -/
theorem runFor_add_of_ended {n : Nat} {x y : Execution} {e : Ending}
    (h : runFor args n x = (e, y)) (he : e ≠ .unfinished) (k : Nat) :
    runFor args (n + k) x = (e, y) := by
  induction n generalizing x with
  | zero =>
      rw [runFor, Prod.mk.injEq] at h
      exact absurd h.1.symm he
  | succ n ih =>
      rw [Nat.succ_add]
      rw [runFor] at h ⊢
      cases hs : x.step args with
      | running z => rw [hs] at h; exact ih h
      | finished => rw [hs] at h; exact h
      | failed => rw [hs] at h; exact h

/-- An execution ends in one way only. -/
theorem runFor_unique {n k : Nat} {x y z : Execution} {e e' : Ending}
    (h : runFor args n x = (e, y)) (he : e ≠ .unfinished)
    (h' : runFor args k x = (e', z)) (he' : e' ≠ .unfinished) : (e, y) = (e', z) := by
  have h₁ := runFor_add_of_ended h he k
  have h₂ := runFor_add_of_ended h' he' n
  rw [Nat.add_comm] at h₂
  exact h₁.symm.trans h₂

end Execution

namespace Block

/-- A program at the beginning of its execution: all variables are zero. -/
def start (b : Block) : Execution :=
  { todo := b, store := fun _ => 0, printed := [] }

/-- The program comes to its end, having printed `out`. -/
def Finishes (args : List Int) (b : Block) (out : List Int) : Prop :=
  ∃ n x, b.start.runFor args n = (.finished, x) ∧ x.printed = out

/-- The program fails at an argument that is not there, having printed `out`. -/
def Fails (args : List Int) (b : Block) (out : List Int) : Prop :=
  ∃ n x, b.start.runFor args n = (.failed, x) ∧ x.printed = out

/-- The program goes on for ever. -/
def Diverges (args : List Int) (b : Block) : Prop :=
  ∀ n, (b.start.runFor args n).1 = .unfinished

variable {args : List Int} {b : Block} {out out' : List Int}

theorem behaviour_cases (args : List Int) (b : Block) :
    (∃ out, b.Finishes args out) ∨ (∃ out, b.Fails args out) ∨ b.Diverges args := by
  by_cases hd : b.Diverges args
  · exact Or.inr (Or.inr hd)
  · obtain ⟨n, hn⟩ := not_forall.1 hd
    cases hr : b.start.runFor args n with
    | mk e x =>
        cases e with
        | finished => exact Or.inl ⟨_, n, x, hr, rfl⟩
        | failed => exact Or.inr (Or.inl ⟨_, n, x, hr, rfl⟩)
        | unfinished => rw [hr] at hn; exact absurd rfl hn

theorem Finishes.unique (h : b.Finishes args out) (h' : b.Finishes args out') : out = out' := by
  obtain ⟨n, x, hx, rfl⟩ := h
  obtain ⟨k, y, hy, rfl⟩ := h'
  have := Execution.runFor_unique hx (by simp) hy (by simp)
  rw [(Prod.mk.inj this).2]

theorem Finishes.not_fails (h : b.Finishes args out) : ¬ b.Fails args out' := by
  rintro ⟨k, y, hy, _⟩
  obtain ⟨n, x, hx, _⟩ := h
  have := Execution.runFor_unique hx (by simp) hy (by simp)
  exact absurd (Prod.mk.inj this).1 (by simp)

theorem Finishes.not_diverges (h : b.Finishes args out) : ¬ b.Diverges args := by
  obtain ⟨n, x, hx, _⟩ := h
  intro hd
  have := hd n
  rw [hx] at this
  exact absurd this (by simp)

theorem Fails.not_diverges (h : b.Fails args out) : ¬ b.Diverges args := by
  obtain ⟨n, x, hx, _⟩ := h
  intro hd
  have := hd n
  rw [hx] at this
  exact absurd this (by simp)

end Block

end WhileLang
