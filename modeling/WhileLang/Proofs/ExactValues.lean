import Mathlib.Data.Int.ModEq
import WhileLang.Proofs.ExpressionRuns
import WhileLang.Proofs.Relocation

/-!
# Wrapping at every step is wrapping once

An expression that is built from integers, variables, `+`, `-` and `*` has an exact value, which may
be as large as it likes. The machine never computes it. It wraps every literal that it pushes and
every result of an operator, so that it goes on with other integers than the exact ones; and it does
not wrap what it reads from a slot, so that an operator may find values that are no words at all.
But a value is only ever replaced by one that is congruent to it modulo `2 ^ 64`, and the three
operations respect congruence. So the last value is congruent to the exact one, and since it has
been wrapped as well it is the one word in that class. Only a bare variable is not wrapped.

* `Word.eq_wrap_iff`: wrapping gives the only congruent word.
* `BinOp.integerOp?`, `Expr.exactValue?`: arithmetic without wrapping.
* `BinOp.eval_of_integerOp?`: what one operator does to congruent values;
  `Expr.eval_of_exactValue?`: what becomes of a whole expression.
* `Expr.assemble_wraps_once`: the code of an expression pushes its exact value, wrapped once.
-/

namespace WhileLang

open Word

/-! ## Words and residue classes -/

namespace Word

theorem wrap_modEq (n : Int) : wrap n ≡ n [ZMOD 2 ^ 64] :=
  Int.bmod_emod

/-- Wrapping sees nothing but the residue class. -/
theorem wrap_congr {a b : Int} (h : a ≡ b [ZMOD 2 ^ 64]) : wrap a = wrap b := by
  have h' : a % span = b % span := h
  unfold wrap
  rw [← Int.emod_bmod a, ← Int.emod_bmod b, h']

/-- The wrapped integer is the only word in its residue class. -/
theorem eq_wrap_iff {n w : Int} : w = wrap n ↔ IsWord w ∧ w ≡ n [ZMOD 2 ^ 64] := by
  constructor
  · rintro rfl
    exact ⟨isWord_wrap n, wrap_modEq n⟩
  · rintro ⟨hw, h⟩
    rw [← wrap_congr h, wrap_eq_self hw]

end Word

/-! ## Arithmetic without wrapping -/

/-- The operation on integers whose result an operator wraps. A comparison has none. -/
def BinOp.integerOp? : BinOp → Option (Int → Int → Int)
  | add => some (· + ·)
  | sub => some (· - ·)
  | mul => some (· * ·)
  | lt | gt => none

/-- The exact value of an expression that is built from integers, variables, `+`, `-` and `*`. Other
expressions have none. -/
def Expr.exactValue? (σ : Store) : Expr → Option Int
  | var x => some (σ x)
  | num n => some n
  | bin op l r =>
    op.integerOp?.bind fun f => (l.exactValue? σ).bind fun a => (r.exactValue? σ).map (f a)
  | input _ | stray _ => none

theorem Expr.exactValue?_bin_eq_some {σ : Store} {op : BinOp} {l r : Expr} {n : Int}
    (h : (bin op l r).exactValue? σ = some n) :
    ∃ f a b, op.integerOp? = some f ∧ l.exactValue? σ = some a ∧ r.exactValue? σ = some b ∧
      n = f a b := by
  obtain ⟨f, hf, h⟩ := Option.bind_eq_some_iff.1 h
  obtain ⟨a, ha, h⟩ := Option.bind_eq_some_iff.1 h
  obtain ⟨b, hb, rfl⟩ := Option.map_eq_some_iff.1 h
  exact ⟨f, a, b, hf, ha, hb, rfl⟩

theorem Expr.wellFormed_of_exactValue? {σ : Store} {e : Expr} {n : Int}
    (h : e.exactValue? σ = some n) : e.WellFormed := by
  induction e generalizing n with
  | var x | num k => trivial
  | bin op l r ihl ihr =>
      obtain ⟨f, a, b, -, ha, hb, -⟩ := exactValue?_bin_eq_some h
      exact ⟨ihl ha, ihr hb⟩
  | input i | stray d => cases h

/-- **One operator.** On values that are congruent to exact ones, it gives the exact result,
wrapped. -/
theorem BinOp.eval_of_integerOp? {op : BinOp} {f : Int → Int → Int} (hf : op.integerOp? = some f)
    {a b a' b' : Int} (ha : a ≡ a' [ZMOD 2 ^ 64]) (hb : b ≡ b' [ZMOD 2 ^ 64]) :
    op.eval a b = wrap (f a' b') := by
  cases op with
  | add =>
      obtain rfl := Option.some.inj hf
      exact wrap_congr (ha.add hb)
  | sub =>
      obtain rfl := Option.some.inj hf
      exact wrap_congr (ha.sub hb)
  | mul =>
      obtain rfl := Option.some.inj hf
      exact wrap_congr (ha.mul hb)
  | lt | gt => cases hf

/-- **A whole expression.** Its value is congruent to the exact one, and the exact one wrapped
unless the expression is a variable. -/
theorem Expr.eval_of_exactValue? {σ : Store} {e : Expr} {n : Int} (h : e.exactValue? σ = some n)
    (args : List Int) :
    ∃ v, e.eval args σ = some v ∧ v ≡ n [ZMOD 2 ^ 64] ∧ ((∀ x, e ≠ .var x) → v = wrap n) := by
  induction e generalizing n with
  | var x =>
      obtain rfl := Option.some.inj h
      exact ⟨σ x, rfl, Int.ModEq.refl _, fun hx => absurd rfl (hx x)⟩
  | num k =>
      obtain rfl := Option.some.inj h
      exact ⟨wrap k, rfl, wrap_modEq k, fun _ => rfl⟩
  | bin op l r ihl ihr =>
      obtain ⟨f, a, b, hf, ha, hb, rfl⟩ := exactValue?_bin_eq_some h
      obtain ⟨v, hv, hva, -⟩ := ihl ha
      obtain ⟨w, hw, hwb, -⟩ := ihr hb
      have heval := BinOp.eval_of_integerOp? hf hva hwb
      refine ⟨wrap (f a b), ?_, wrap_modEq _, fun _ => rfl⟩
      rw [eval, hv, hw, Option.bind_some, Option.map_some, heval]
  | input i | stray d => cases h

/-! ## The code of an expression -/

/-- With slots for all variables that it reads, an expression is not refused and its code is
added. -/
theorem Expr.adds_codeAt {e : Expr} (he : e.WellFormed) {slot : String → Nat} {a : Assembly}
    (ha : ∀ x ∈ e.reads, a.slotOf? x = some (slot x)) : e.assemble.Adds a (e.codeAt slot) := by
  have hmem : ∀ x ∈ e.reads, x ∈ a.slots := fun x hx =>
    List.isSome_idxOf?.1 (Option.isSome_of_eq_some (ha x hx))
  have hslot : ∀ x ∈ e.reads, a.slots.idxOf x = slot x := fun x hx =>
    Option.some.inj ((Assembly.slotOf?_of_mem (hmem x hx)).symm.trans (ha x hx))
  exact ((e.assemble_writes a.slots).adds_iff rfl).2
    ⟨refusal?_eq_none_iff.2 ⟨he, hmem⟩, (code_eq_codeAt hslot).symm⟩

/-- **Wrapping at every step is wrapping once.** Let an expression be built from integers of any
size, variables, `+`, `-` and `*`, and let its variables have any slots. Behind any code, a table
with these slots leads to the same segment. Wherever this segment stands in a code, in any state
whose slots hold integers of any size, the machine goes through it, one step for each instruction,
and pushes one value; the rest of the stack, the locals, the frame pointer and the output stay as
they are. The value is congruent to the exact value of the expression modulo `2 ^ 64`. Unless the
expression is a bare variable it is that value wrapped, which is the only word in its residue
class. -/
theorem Expr.assemble_wraps_once {e : Expr} {σ : Store} {n : Int} (he : e.exactValue? σ = some n)
    (slot : String → Nat) :
    (∀ a : Assembly, (∀ x ∈ e.reads, a.slotOf? x = some (slot x)) →
      e.assemble.Adds a (e.codeAt slot)) ∧
    (∀ (m : Machine) (s : State), m.Faces s (e.codeAt slot) →
      (∀ x ∈ e.reads, s.HoldsAt (slot x) (σ x)) →
      ∃ v, m.Reaches (e.codeAt slot).length s (s.pushed (e.codeAt slot).length v) ∧
        v ≡ n [ZMOD 2 ^ 64] ∧ ((∀ x, e ≠ .var x) → v = wrap n)) ∧
    ∀ w, w = wrap n ↔ IsWord w ∧ w ≡ n [ZMOD 2 ^ 64] := by
  refine ⟨fun a ha => adds_codeAt (wellFormed_of_exactValue? he) ha, fun m s hs hslots => ?_,
    fun w => eq_wrap_iff⟩
  obtain ⟨v, hv, hcongr, hwrap⟩ := eval_of_exactValue? he m.args
  exact ⟨v, reaches_codeAt hs hslots hv, hcongr, hwrap⟩

/-- A product with a literal that is no word, less a sum. -/
def productLessSum : Expr :=
  .bin .sub (.bin .mul (.var "x") (.num 18446744073709551621)) (.bin .add (.var "y") (.var "x"))

/-- With `2 ^ 70` in the slot of `y` and minus three in that of `x`, minus twelve is pushed in front
of what is there, with the last step that the limit allows. -/
theorem productLessSum_wraps_once :
    let slot : String → Nat := fun x => if x = "x" then 2 else 0
    let a : Assembly := { code := [.enter 3], slots := ["y", "z", "x"] }
    let m : Machine :=
      { code := .enter 3 :: (productLessSum.codeAt slot ++ [.print])
        stepLimit := some { count := 8 } }
    let s : State :=
      { pc := 1, fp := 1, steps := 1, stack := [7], locals := [0, 1180591620717411303424, 5, -3] }
    productLessSum.assemble.Adds a (productLessSum.codeAt slot) ∧
      m.Reaches 7 s { s with pc := 8, steps := 8, stack := [-12, 7] } ∧
      -12 ≡ -3 * 18446744073709551621 - (1180591620717411303424 + -3) [ZMOD 2 ^ 64] := by
  intro slot a m s
  have he : productLessSum.exactValue? (fun x => if x = "x" then -3 else 1180591620717411303424) =
      some (-3 * 18446744073709551621 - (1180591620717411303424 + -3)) := rfl
  obtain ⟨hadds, hruns, -⟩ := Expr.assemble_wraps_once he slot
  have hfaces : m.Faces s (productLessSum.codeAt slot) :=
    ⟨rfl, ⟨1, rfl, [.enter 3], [.print], rfl, rfl⟩, by decide⟩
  have hreads : ∀ x ∈ productLessSum.reads, x = "x" ∨ x = "y" := by
    simp [productLessSum, Expr.reads]
  have hslots : ∀ x ∈ productLessSum.reads,
      s.HoldsAt (slot x) (if x = "x" then -3 else 1180591620717411303424) := by
    intro x hx
    rcases hreads x hx with rfl | rfl
    · exact ⟨3, rfl, rfl⟩
    · exact ⟨1, rfl, rfl⟩
  have htable : ∀ x ∈ productLessSum.reads, a.slotOf? x = some (slot x) := by
    intro x hx
    rcases hreads x hx with rfl | rfl <;> rfl
  obtain ⟨v, hreach, hcongr, hwrap⟩ := hruns m s hfaces hslots
  obtain rfl : v = -12 := hwrap (by simp [productLessSum])
  exact ⟨hadds a htable, hreach, hcongr⟩

end WhileLang
