import WhileLang.Proofs.Code
import WhileLang.Proofs.Runs
import WhileLang.Proofs.Semantics

/-!
# Running the code of an expression

The code of an expression has no branches. The machine goes through it from the first instruction to
the last, one step for each, and has pushed one value at the end. For this it needs to read the
slots of the variables that occur in the expression, and no others; where these slots come from does
not matter.

* `Expr.reads`: the variables that an expression reads.
* `Expr.codeAt`: the code of an expression, with the slots of its variables from any map;
  `Expr.code_eq_codeAt` says that the code with a slot table is a case of it.
* `State.HoldsAt`: a slot of the open frame holds a value.
* `Machine.Faces`: the machine is about to go through a piece of its code.
* `Expr.reaches_codeAt`: the code of an expression pushes its value.
-/

namespace WhileLang

/-! ## Slots from any map -/

/-- The variables that an expression reads, from left to right. -/
def Expr.reads : Expr → List String
  | var x => [x]
  | num _ | stray _ => []
  | bin _ l r => l.reads ++ r.reads
  | input i => i.reads

/-- The code that pushes the value of an expression whose variables have given slots. Two variables
may have the same one. -/
def Expr.codeAt (slot : String → Nat) : Expr → List Instr
  | var x => [.getLocal (slot x)]
  | num n => [.literal n]
  | bin op l r => l.codeAt slot ++ r.codeAt slot ++ [.binary op]
  | input i => i.codeAt slot ++ [.inputRead]
  | stray _ => []

/-- A slot table that gives the variables of an expression their slots leads to the same code. -/
theorem Expr.code_eq_codeAt {slots : List String} {slot : String → Nat} {e : Expr}
    (h : ∀ x ∈ e.reads, slots.idxOf x = slot x) : e.code slots = e.codeAt slot := by
  induction e with
  | var x => rw [code, codeAt, h x List.mem_cons_self]
  | num n => rfl
  | bin op l r ihl ihr =>
      obtain ⟨hl, hr⟩ := List.forall_mem_append.1 h
      rw [code, codeAt, ihl hl, ihr hr]
  | input i ih => rw [code, codeAt, ih h]
  | stray d => rfl

/-- An expression is not refused exactly if no node in it is misplaced and the variables that it
reads have slots. -/
theorem Expr.refusal?_eq_none_iff {slots : List String} {e : Expr} :
    e.refusal? slots = none ↔ e.WellFormed ∧ ∀ x ∈ e.reads, x ∈ slots := by
  induction e with
  | var x => simp [refusal?, WellFormed, reads]
  | num n => simp [refusal?, WellFormed, reads]
  | bin op l r ihl ihr =>
      rw [refusal?, WellFormed, reads, Option.or_eq_none_iff, ihl, ihr, List.forall_mem_append,
        and_and_and_comm]
  | input i ih => exact ih
  | stray d => simp [refusal?, WellFormed]

/-! ## Slots that hold values -/

/-- A slot of the open frame holds a value. A cell below zero is counted from the end. -/
def State.HoldsAt (s : State) (slot : Nat) (v : Int) : Prop :=
  ∃ k, position? s.locals.length (s.fp + slot) = some k ∧ s.locals[k]? = some v

/-- Reading a slot gives the value that it holds. -/
theorem State.HoldsAt.exec_getLocal {s : State} {slot : Nat} {v : Int} (h : s.HoldsAt slot v)
    (setting : Setting) :
    (Instr.getLocal slot).exec setting s = .done (.advance 1) (s.push v) := by
  obtain ⟨k, hk, hv⟩ := h
  have hlt : s.fp + slot < s.locals.length := by
    by_contra hle
    rw [position?_eq_none_iff.2 (.inr (Int.not_lt.1 hle))] at hk
    cases hk
  have hcell : s.cell slot = .ok (s.fp + slot) := by
    unfold State.cell
    rw [if_neg (by omega)]
  simp only [Instr.exec, hcell, hk, Option.bind_some, hv]

/-! ## Going through a piece of code -/

/-- The state after `n` steps that have pushed a value. -/
def State.pushed (s : State) (n : Nat) (v : Int) : State :=
  { s with pc := s.pc + n, steps := s.steps + n, stack := v :: s.stack }

/-- The machine is running, a piece of its code stands at the program counter, and there are steps
left for all of it. -/
structure Machine.Faces (m : Machine) (s : State) (c : List Instr) : Prop where
  running : s.halted = false
  stands : ∃ p : Nat, s.pc = p ∧ StandsAt m.code p c
  steps : ∀ l, m.stepLimit = some l → s.steps + c.length ≤ l.count

namespace Machine.Faces

variable {m : Machine} {s t : State} {c c₁ c₂ : List Instr}

theorem left (h : m.Faces s (c₁ ++ c₂)) : m.Faces s c₁ where
  running := h.running
  stands := by
    obtain ⟨p, hp, hc⟩ := h.stands
    exact ⟨p, hp, hc.left⟩
  steps l hl := by
    have hsteps := h.steps l hl
    rw [List.length_append] at hsteps
    omega

/-- Behind the first part, which has pushed a value, the machine faces the second. -/
theorem pushed (h : m.Faces s (c₁ ++ c₂)) (v : Int) : m.Faces (s.pushed c₁.length v) c₂ where
  running := h.running
  stands := by
    obtain ⟨p, hp, hc⟩ := h.stands
    exact ⟨p + c₁.length, by simp [State.pushed, hp], hc.right⟩
  steps l hl := by
    have hsteps := h.steps l hl
    rw [List.length_append] at hsteps
    simp only [State.pushed]
    omega

/-- **One instruction** that goes on at the next one. -/
theorem reaches {i : Instr} (h : m.Faces s [i])
    (he : i.exec m.toSetting s = .done (.advance 1) t) :
    m.Reaches 1 s { t with steps := t.steps + 1, pc := t.pc + 1 } := by
  obtain ⟨p, hp, hc⟩ := h.stands
  have hi : m.instrAt? s.pc = some i := by rw [hp, instrAt?_natCast, hc.head]
  have hx : m.exhausted s = none := by
    unfold exhausted
    rw [Option.filter_eq_none_iff]
    intro l hl
    have hsteps := h.steps l hl
    rw [List.length_singleton] at hsteps
    have hlt : s.steps < l.count := by omega
    simpa using hlt
  exact reaches_of_step (step_of_advance h.running hi hx he)

end Machine.Faces

/-- **The code of an expression** pushes its value, and takes one step for each instruction. -/
theorem Expr.reaches_codeAt {m : Machine} {s : State} {slot : String → Nat} {σ : Store} {e : Expr}
    (hs : m.Faces s (e.codeAt slot)) (hslots : ∀ x ∈ e.reads, s.HoldsAt (slot x) (σ x)) {v : Int}
    (hv : e.eval m.args σ = some v) :
    m.Reaches (e.codeAt slot).length s (s.pushed (e.codeAt slot).length v) := by
  induction e generalizing s v with
  | var x =>
      cases hv
      exact hs.reaches ((hslots x List.mem_cons_self).exec_getLocal m.toSetting)
  | num n =>
      cases hv
      exact hs.reaches rfl
  | bin op l r ihl ihr =>
      rw [eval, Option.bind_eq_some_iff] at hv
      obtain ⟨a, ha, hv⟩ := hv
      obtain ⟨b, hb, rfl⟩ := Option.map_eq_some_iff.1 hv
      obtain ⟨hsl, hsr⟩ := List.forall_mem_append.1 hslots
      have hl := ihl hs.left.left hsl ha
      have hr := ihr (hs.left.pushed a) hsr hb
      -- the operator finds the right value above the left one
      rw [codeAt, List.append_assoc] at hs
      have hop := ((hs.pushed a).pushed b).reaches rfl
      have h := (hl.trans hr).trans hop
      simpa [codeAt, State.pushed, Nat.add_assoc, Int.add_assoc] using h
  | input i ih =>
      rw [eval, Option.bind_eq_some_iff] at hv
      obtain ⟨a, ha, hv⟩ := hv
      have hi := ih hs.left hslots ha
      have hexec : Instr.inputRead.exec m.toSetting (s.pushed (i.codeAt slot).length a) =
          .done (.advance 1)
            { s.pushed (i.codeAt slot).length a with stack := v :: s.stack } := by
        simp only [Instr.exec, State.pushed, hv]
      have h := hi.trans ((hs.pushed a).reaches hexec)
      simpa [codeAt, State.pushed, Nat.add_assoc, Int.add_assoc] using h
  | stray d => cases hv

end WhileLang
