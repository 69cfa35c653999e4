import WhileLang.Proofs.Code
import WhileLang.Proofs.Runs

/-!
# Compiled code never goes wrong

How many values lie on the operand stack when the machine comes to an instruction of compiled code
depends on the instruction only, whatever the way that led there. This file computes that number
for every position from the program, checks that every instruction finds what it needs and leads
on to positions where the numbers agree, and concludes what no run of compiled code can do: find
the stack empty, leave the code, or miss its frame.

* `Expr.depths`, `Stmt.depths`, `Block.depths` are the depths before each instruction, and
  `Block.stackDepth` is the depth at a position of a whole program.
* `Instr.successors` is what an instruction needs and where it leads to; `Consistent` says that
  depths agree along it. `Block.consistent` is the check for compiled code.
* `Safe` is the invariant of a run; `Safe.step` is what one step does to it.
* `Stmt.positions`, `Block.positions` are the places where statements begin.
-/

namespace WhileLang

/-! ## The depth before each instruction -/

/-- The depths before the instructions of an expression, when there are `d` values before the
first of them. -/
def Expr.depths (d : Nat) : Expr → List Nat
  | var _ => [d]
  | num _ => [d]
  | bin _ l r => l.depths d ++ r.depths (d + 1) ++ [d + 2]
  | input i => i.depths d ++ [d + 1]
  | stray _ => []

mutual

/-- The depths before the instructions of a statement. -/
def Stmt.depths : Stmt → List Nat
  | .assign _ e => e.depths 0 ++ [1]
  | .print e => e.depths 0 ++ [1]
  | .cond t b o => t.depths 0 ++ 1 :: (Block.depths b ++ 0 :: Block.depths o)
  | .loop t b => t.depths 0 ++ 1 :: (Block.depths b ++ [0])
  | .stray _ => []

/-- The depths before the instructions of a block. -/
def Block.depths : Block → List Nat
  | [] => []
  | s :: rest => s.depths ++ Block.depths rest

end

/-- How many values lie on the operand stack at a position of a program's code: none before the
frame is opened, before it is closed and at the end. -/
def Block.stackDepth (b : Block) (p : Nat) : Nat :=
  (0 :: (Block.depths b ++ [0, 0])).getD p 0

theorem Expr.length_depths (slots : List String) (e : Expr) (d : Nat) :
    (e.depths d).length = (e.code slots).length := by
  induction e generalizing d with
  | var x => rfl
  | num n => rfl
  | bin op l r ihl ihr => simp [depths, code, ihl, ihr]
  | input i ih => simp [depths, code, ih]
  | stray s => rfl

mutual

theorem Stmt.length_depths (slots : List String) :
    ∀ s : Stmt, s.depths.length = (s.code slots).length
  | .assign x e => by simp [Stmt.depths, Stmt.code, e.length_depths slots]
  | .print e => by simp [Stmt.depths, Stmt.code, e.length_depths slots]
  | .cond t b o => by
      simp [Stmt.depths, Stmt.code, condCode, t.length_depths slots, Block.length_depths slots b,
        Block.length_depths slots o]
  | .loop t b => by
      simp [Stmt.depths, Stmt.code, loopCode, t.length_depths slots,
        Block.length_depths slots b]
  | .stray d => by simp [Stmt.depths, Stmt.code]

theorem Block.length_depths (slots : List String) :
    ∀ b : Block, (Block.depths b).length = (Block.code slots b).length
  | [] => by simp [Block.depths, Block.code]
  | s :: rest => by
      simp [Block.depths, Block.code, s.length_depths slots, Block.length_depths slots rest]

end

/-! ## What an instruction needs and where it leads to -/

/-- The distances at which the machine may go on after an instruction, each with the depth there,
when the depth before it is `depth` and the frame has `frame` slots. There are none if the
instruction lacks a value or a slot, or has no place inside a frame. -/
def Instr.successors (frame depth : Nat) : Instr → Option (List (Int × Nat))
  | literal _ => some [(1, depth + 1)]
  | binary _ => if 2 ≤ depth then some [(1, depth - 1)] else none
  | print => if 1 ≤ depth then some [(1, depth - 1)] else none
  | getLocal slot => if 0 ≤ slot ∧ slot < frame then some [(1, depth + 1)] else none
  | setLocal slot =>
    if 0 ≤ slot ∧ slot < frame ∧ 1 ≤ depth then some [(1, depth - 1)] else none
  | inputRead => if 1 ≤ depth then some [(1, depth)] else none
  | branch offset => some [(offset, depth)]
  | branchIfZero offset =>
    if 1 ≤ depth then some [(offset, depth - 1), (1, depth - 1)] else none
  | halt | enter _ | exit _ => none

/-- Every instruction of some code, which begins at position `p`, has what it needs at the
depth that `ds` states for its position, and leads on to positions with the depths stated there. -/
def Consistent (frame : Nat) (ds : List Nat) (p : Nat) (code : List Instr) : Prop :=
  ∀ k i, code[k]? = some i → ∃ d next, ds[p + k]? = some d ∧ i.successors frame d = some next ∧
    ∀ e ∈ next, ∃ q : Nat, ((p + k : Nat) : Int) + e.1 = q ∧ ds[q]? = some e.2

variable {frame : Nat} {ds : List Nat} {p : Nat} {slots : List String}

theorem Consistent.append {c₁ c₂ : List Instr} (h₁ : Consistent frame ds p c₁)
    (h₂ : Consistent frame ds (p + c₁.length) c₂) : Consistent frame ds p (c₁ ++ c₂) := by
  intro k i hk
  by_cases hlt : k < c₁.length
  · rw [List.getElem?_append_left hlt] at hk
    exact h₁ k i hk
  · rw [List.getElem?_append_right (Nat.le_of_not_lt hlt)] at hk
    have h := h₂ (k - c₁.length) i hk
    rwa [Nat.add_assoc, Nat.add_sub_cancel' (Nat.le_of_not_lt hlt)] at h

theorem Consistent.cons {i : Instr} {c : List Instr} {d : Nat} {next : List (Int × Nat)}
    (hd : ds[p]? = some d) (hi : i.successors frame d = some next)
    (hnext : ∀ e ∈ next, ∃ q : Nat, (p : Int) + e.1 = q ∧ ds[q]? = some e.2)
    (hc : Consistent frame ds (p + 1) c) : Consistent frame ds p (i :: c) := by
  intro k j hk
  cases k with
  | zero =>
      obtain rfl : i = j := by simpa using hk
      exact ⟨d, next, hd, hi, hnext⟩
  | succ k =>
      have h := hc k j (by simpa using hk)
      rwa [Nat.add_assoc, Nat.add_comm 1] at h

theorem Consistent.nil : Consistent frame ds p [] := by
  intro k i hk
  simp at hk

/-- An instruction that leads on to the next position only. -/
theorem Consistent.single {i : Instr} {d d' : Nat} (hd : ds[p]? = some d)
    (hi : i.successors frame d = some [(1, d')]) (hd' : ds[p + 1]? = some d') :
    Consistent frame ds p [i] := by
  refine .cons hd hi ?_ .nil
  intro e he
  rw [List.mem_singleton.1 he]
  exact ⟨p + 1, by simp, hd'⟩

/-! ## Compiled code is consistent -/

/-- The depth at the first instruction of an expression. -/
theorem Expr.getElem?_depths {e : Expr} {d : Nat} (hr : e.refusal? slots = none)
    (hd : StandsAt ds p (e.depths d)) : ds[p]? = some d := by
  induction e generalizing d with
  | var x => exact hd.head
  | num n => exact hd.head
  | bin op l r ihl ihr =>
      rw [refusal?, Option.or_eq_none_iff] at hr
      exact ihl hr.1 hd.left.left
  | input i ih => exact ih hr hd.left
  | stray s => cases hr

theorem Expr.consistent {e : Expr} {d : Nat} (hr : e.refusal? slots = none)
    (hd : StandsAt ds p (e.depths d)) (hafter : ds[p + (e.code slots).length]? = some (d + 1)) :
    Consistent slots.length ds p (e.code slots) := by
  induction e generalizing p d with
  | var x =>
      have hlt := List.idxOf_lt_length_iff.2 (slotRefusal?_eq_none.1 hr)
      exact .single hd.head (by simp [Instr.successors, hlt]) hafter
  | num n => exact .single hd.head rfl hafter
  | bin op l r ihl ihr =>
      rw [refusal?, Option.or_eq_none_iff] at hr
      rw [depths] at hd
      rw [code, List.length_append, List.length_append, ← Nat.add_assoc, ← Nat.add_assoc]
        at hafter
      have hdr := hd.left.right
      have hdop := hd.right.head
      rw [List.length_append, ← Nat.add_assoc] at hdop
      rw [l.length_depths slots] at hdr hdop
      rw [r.length_depths slots] at hdop
      have hl := ihl hr.1 hd.left.left (getElem?_depths hr.2 hdr)
      have hr' := ihr hr.2 hdr hdop
      refine (hl.append hr').append (.single (d := d + 2) ?_ rfl ?_)
      · simpa [Nat.add_assoc] using hdop
      · simpa [Nat.add_assoc] using hafter
  | input i ih =>
      rw [depths] at hd
      rw [code, List.length_append, ← Nat.add_assoc] at hafter
      have hdop := hd.right.head
      rw [i.length_depths slots] at hdop
      exact (ih hr hd.left hdop).append (.single hdop (by simp [Instr.successors]) hafter)
  | stray s => cases hr

/-- The operand stack is empty at the first instruction of a statement. -/
theorem Stmt.getElem?_depths {s : Stmt} (hr : s.refusal? slots = none)
    (hd : StandsAt ds p s.depths) : ds[p]? = some 0 := by
  cases s with
  | assign x e =>
      rw [Stmt.refusal?, Option.or_eq_none_iff] at hr
      rw [Stmt.depths] at hd
      exact e.getElem?_depths hr.1 hd.left
  | print e =>
      rw [Stmt.refusal?] at hr
      rw [Stmt.depths] at hd
      exact e.getElem?_depths hr hd.left
  | cond t b o =>
      rw [Stmt.refusal?, Option.or_eq_none_iff] at hr
      rw [Stmt.depths] at hd
      exact t.getElem?_depths hr.1 hd.left
  | loop t b =>
      rw [Stmt.refusal?, Option.or_eq_none_iff] at hr
      rw [Stmt.depths] at hd
      exact t.getElem?_depths hr.1 hd.left
  | stray d => rw [Stmt.refusal?] at hr; cases hr

/-- The operand stack is empty at the beginning of a block if it is behind it; the block may have
no instruction of its own. -/
theorem Block.getElem?_depths {b : Block} (hr : Block.refusal? slots b = none)
    (hd : StandsAt ds p (Block.depths b))
    (hafter : ds[p + (Block.code slots b).length]? = some 0) : ds[p]? = some 0 := by
  cases b with
  | nil => simpa [Block.code] using hafter
  | cons s rest =>
      rw [Block.refusal?, Option.or_eq_none_iff] at hr
      rw [Block.depths] at hd
      exact s.getElem?_depths hr.1 hd.left

/-- A test with its branch: both ways lead to positions with an empty stack. -/
theorem Consistent.test {t : Expr} {c : List Instr} {skip : Int} {q : Nat}
    (hr : t.refusal? slots = none)
    (hd : StandsAt ds p (t.depths 0)) (hbranch : ds[p + (t.code slots).length]? = some 1)
    (hq : ((p + (t.code slots).length : Nat) : Int) + skip = q) (hfar : ds[q]? = some 0)
    (hnear : ds[p + (t.code slots).length + 1]? = some 0)
    (hc : Consistent slots.length ds (p + (t.code slots).length + 1) c) :
    Consistent slots.length ds p (t.code slots ++ .branchIfZero skip :: c) := by
  refine (t.consistent hr hd hbranch).append (.cons hbranch rfl ?_ hc)
  intro e he
  rcases List.mem_cons.1 he with rfl | he
  · exact ⟨q, hq, hfar⟩
  · rw [List.mem_singleton.1 he]
    exact ⟨_, rfl, hnear⟩

mutual

theorem Stmt.consistent : ∀ (s : Stmt) {p : Nat}, s.refusal? slots = none →
    StandsAt ds p s.depths → ds[p + (s.code slots).length]? = some 0 →
    Consistent slots.length ds p (s.code slots)
  | .assign x e, p, hr, hd, hafter => by
      rw [Stmt.refusal?, Option.or_eq_none_iff] at hr
      rw [Stmt.depths] at hd
      rw [Stmt.code, List.length_append, ← Nat.add_assoc] at hafter
      have hlt := List.idxOf_lt_length_iff.2 (slotRefusal?_eq_none.1 hr.2)
      have hset := hd.right.head
      rw [e.length_depths slots] at hset
      rw [Stmt.code]
      exact (e.consistent hr.1 hd.left hset).append
        (.single hset (by simp [Instr.successors, hlt]) hafter)
  | .print e, p, hr, hd, hafter => by
      rw [Stmt.refusal?] at hr
      rw [Stmt.depths] at hd
      rw [Stmt.code, List.length_append, ← Nat.add_assoc] at hafter
      have hprint := hd.right.head
      rw [e.length_depths slots] at hprint
      rw [Stmt.code]
      exact (e.consistent hr hd.left hprint).append (.single hprint rfl hafter)
  | .cond t b o, p, hr, hd, hafter => by
      rw [Stmt.refusal?, Option.or_eq_none_iff, Option.or_eq_none_iff] at hr
      rw [Stmt.depths] at hd
      rw [Stmt.code, condCode, List.length_append, List.length_cons, List.length_append,
        List.length_cons] at hafter
      have hbranch := hd.right.head
      have hbody := hd.right.tail
      rw [t.length_depths slots] at hbranch hbody
      have hjump := hbody.right.head
      have helse := hbody.right.tail
      rw [Block.length_depths slots] at hjump helse
      have hend : ds[p + (t.code slots).length + 1 + (Block.code slots b).length + 1 +
          (Block.code slots o).length]? = some 0 := by
        rw [← hafter]
        congr 1
        omega
      rw [Stmt.code, condCode]
      refine Consistent.test hr.1 hd.left hbranch (by push_cast; omega)
        (Block.getElem?_depths hr.2.2 helse hend)
        (Block.getElem?_depths hr.2.1 hbody.left hjump) ?_
      refine (Block.consistent b hr.2.1 hbody.left hjump).append (.cons hjump rfl ?_
        (Block.consistent o hr.2.2 helse hend))
      intro e he
      rw [List.mem_singleton.1 he]
      exact ⟨_, by push_cast; omega, hend⟩
  | .loop t b, p, hr, hd, hafter => by
      rw [Stmt.refusal?, Option.or_eq_none_iff] at hr
      rw [Stmt.depths] at hd
      rw [Stmt.code, loopCode, List.length_append, List.length_cons, List.length_append,
        List.length_cons, List.length_nil] at hafter
      have hbranch := hd.right.head
      have hbody := hd.right.tail
      rw [t.length_depths slots] at hbranch hbody
      have hback := hbody.right.head
      rw [Block.length_depths slots] at hback
      rw [Stmt.code, loopCode]
      refine Consistent.test hr.1 hd.left hbranch (by push_cast; omega) hafter
        (Block.getElem?_depths hr.2 hbody.left hback) ?_
      refine (Block.consistent b hr.2 hbody.left hback).append (.cons hback rfl ?_ .nil)
      -- the branch back leads to the first instruction of the test
      intro e he
      rw [List.mem_singleton.1 he]
      exact ⟨p, by push_cast; omega, t.getElem?_depths hr.1 hd.left⟩
  | .stray d, p, hr, _, _ => by rw [Stmt.refusal?] at hr; cases hr

theorem Block.consistent : ∀ (b : Block) {p : Nat}, Block.refusal? slots b = none →
    StandsAt ds p (Block.depths b) → ds[p + (Block.code slots b).length]? = some 0 →
    Consistent slots.length ds p (Block.code slots b)
  | [], p, _, _, _ => by rw [Block.code]; exact .nil
  | s :: rest, p, hr, hd, hafter => by
      rw [Block.refusal?, Option.or_eq_none_iff] at hr
      rw [Block.depths] at hd
      rw [Block.code, List.length_append, ← Nat.add_assoc] at hafter
      have hrest := hd.right
      rw [s.length_depths slots] at hrest
      rw [Block.code]
      exact (Stmt.consistent s hr.1 hd.left (Block.getElem?_depths hr.2 hrest hafter)).append
        (Block.consistent rest hr.2 hrest hafter)

end

/-! ## What one step does -/

/-- The only frame is open, and has `frame` slots. -/
structure State.InFrame (s : State) (frame : Nat) : Prop where
  fp : s.fp = 1
  locals : ∃ vs, s.locals = 0 :: vs ∧ vs.length = frame

/-- A slot of the only frame, as a position in the locals. -/
theorem State.InFrame.cell {s : State} (h : s.InFrame frame) {slot : Int} (h₀ : 0 ≤ slot)
    (hlt : slot < frame) :
    s.cell slot = .ok ((slot.toNat + 1 : Nat) : Int) ∧
      position? s.locals.length ((slot.toNat + 1 : Nat) : Int) = some (slot.toNat + 1) ∧
      slot.toNat + 1 < s.locals.length := by
  obtain ⟨vs, hvs, hlen⟩ := h.locals
  have hlocals : s.locals.length = frame + 1 := by simp [hvs, hlen]
  have hbound : slot.toNat + 1 < s.locals.length := by omega
  refine ⟨?_, position?_of_lt hbound, hbound⟩
  unfold State.cell
  rw [if_neg (by rw [h.fp]; omega), h.fp]
  congr 1
  omega

/-- An instruction that has what it needs is carried out and leads on as `Instr.successors` says;
only the reading of an argument may fail. -/
theorem Instr.exec_of_successors {i : Instr} {s : State} {next : List (Int × Nat)}
    (setting : Setting) (hs : s.InFrame frame)
    (hi : i.successors frame s.stack.length = some next) :
    (∃ offset t, i.exec setting s = .done (.advance offset) t ∧ (offset, t.stack.length) ∈ next ∧
      t.InFrame frame ∧ t.pc = s.pc ∧ t.halted = s.halted) ∨
    (i = .inputRead ∧
      ∃ k t, i.exec setting s = .fault (.badArgument k setting.args.length) t) := by
  cases i with
  | halt => cases hi
  | enter n => cases hi
  | exit n => cases hi
  | literal n =>
      cases hi
      exact Or.inl ⟨1, _, rfl, by simp [State.push], ⟨hs.fp, hs.locals⟩, rfl, rfl⟩
  | branch d =>
      cases hi
      exact Or.inl ⟨d, s, rfl, by simp, hs, rfl, rfl⟩
  | binary op =>
      rcases hst : s.stack with - | ⟨r, - | ⟨l, rest⟩⟩
      · simp [successors, hst] at hi
      · simp [successors, hst] at hi
      · simp only [successors, hst] at hi
        cases hi
        exact Or.inl ⟨1, { s with stack := op.eval l r :: rest }, by simp only [exec, hst],
          by simp, ⟨hs.fp, hs.locals⟩, rfl, rfl⟩
  | print =>
      cases hst : s.stack with
      | nil => simp [successors, hst] at hi
      | cons v rest =>
          simp only [successors, hst] at hi
          cases hi
          exact Or.inl ⟨1, { s with
            stack := rest, output := s.output ++ [v], printed := s.printed ++ [v] },
            by simp only [exec, hst], by simp, ⟨hs.fp, hs.locals⟩, rfl, rfl⟩
  | branchIfZero d =>
      cases hst : s.stack with
      | nil => simp [successors, hst] at hi
      | cons v rest =>
          simp only [successors, hst] at hi
          cases hi
          refine Or.inl ⟨if v = 0 then d else 1, { s with stack := rest },
            by simp only [exec, hst], ?_, ⟨hs.fp, hs.locals⟩, rfl, rfl⟩
          by_cases hv : v = 0 <;> simp [hv]
  | inputRead =>
      cases hst : s.stack with
      | nil => simp [successors, hst] at hi
      | cons v rest =>
          simp only [successors, hst] at hi
          cases hi
          cases ha : argument? setting.args v with
          | none =>
              exact Or.inr ⟨rfl, v, { s with stack := rest }, by simp only [exec, hst, ha]⟩
          | some n =>
              exact Or.inl ⟨1, { s with stack := n :: rest }, by simp only [exec, hst, ha],
                by simp, ⟨hs.fp, hs.locals⟩, rfl, rfl⟩
  | getLocal slot =>
      rw [successors] at hi
      split at hi
      · rename_i hslot
        cases hi
        obtain ⟨hcell, hpos, hlt⟩ := hs.cell hslot.1 hslot.2
        have hget := List.getElem?_eq_getElem hlt
        refine Or.inl ⟨1, s.push s.locals[slot.toNat + 1], ?_, by simp [State.push],
          ⟨hs.fp, hs.locals⟩, rfl, rfl⟩
        simp only [exec, hcell, hpos, Option.bind_some, hget]
      · cases hi
  | setLocal slot =>
      cases hst : s.stack with
      | nil => simp [successors, hst] at hi
      | cons v rest =>
          rw [successors, hst] at hi
          split at hi
          · rename_i hslot
            cases hi
            obtain ⟨hcell, hpos, hlt⟩ := hs.cell hslot.1 hslot.2.1
            refine Or.inl ⟨1, { s with
              stack := rest, locals := s.locals.set (slot.toNat + 1) v }, ?_, by simp,
              ⟨hs.fp, ?_⟩, rfl, rfl⟩
            · simp only [exec, hcell, hst, hpos]
            · obtain ⟨vs, hvs, hlen⟩ := hs.locals
              exact ⟨vs.set slot.toNat v, by simp [hvs], by simpa using hlen⟩
          · cases hi

/-! ## The invariant of a run -/

/-- The states of a run of a program's code: before its frame is opened, while it is open, with as
many values on the stack as the position says, and after it has been closed. -/
inductive Safe (b : Block) (s : State) : Prop where
  | entering : s.pc = 0 → s.stack = [] → s.fp = 0 → s.locals = [] → s.halted = false → Safe b s
  | inside (k : Nat) : s.pc = (k + 1 : Nat) →
      (Block.depths b ++ [0])[k]? = some s.stack.length → s.InFrame b.slotTable.length →
      s.halted = false → Safe b s
  | leaving : s.pc = ((Block.code b.slotTable b).length + 2 : Nat) → s.stack = [] → s.fp = 0 →
      s.locals = [] → Safe b s

/-- The failures that a run of compiled code can come to: an argument is read that is not there,
or the allowed number of steps has been taken. -/
def Failure.Expected (args : List Int) (f : Failure) : Prop :=
  (f.instr = some .inputRead ∧ ∃ k, f.fault = .badArgument k args.length) ∨
    ∃ limit, f.fault = .stepLimit limit

/-- What a step may come to. -/
def StepResult.Keeps (b : Block) (args : List Int) : StepResult → Prop
  | running t => Safe b t
  | stopped t => Safe b t ∧ t.halted = true
  | failed f _ => f.Expected args

section Step

variable {b : Block} {m : Machine} {s : State}

theorem Block.programCode_getElem? (b : Block) (k : Nat) :
    b.programCode[k + 1]? =
      (Block.code b.slotTable b ++ [.exit b.slotTable.length, .halt])[k]? := by
  simp [Block.programCode]

/-- The limit is an expected failure, so only a step that it leaves has to be looked at. -/
theorem keeps_of_granted {i : Instr} (hs : s.halted = false) (hi : m.instrAt? s.pc = some i)
    (h : m.exhausted s = none → (m.step s).Keeps b m.args) : (m.step s).Keeps b m.args := by
  cases hx : m.exhausted s with
  | some limit =>
      rw [Machine.step_of_exhausted hs hi hx]
      exact Or.inr ⟨limit, rfl⟩
  | none => exact h hx

/-- An instruction that is carried out keeps the invariant, if the limit leaves a step. -/
theorem keeps_of_exec {i : Instr} {offset : Int} {t : State} (hs : s.halted = false)
    (hi : m.instrAt? s.pc = some i) (hexec : i.exec m.toSetting s = .done (.advance offset) t)
    (ht : Safe b { t with steps := t.steps + 1, pc := t.pc + offset }) :
    (m.step s).Keeps b m.args := by
  refine keeps_of_granted hs hi fun hx => ?_
  rw [Machine.step_of_advance hs hi hx hexec]
  exact ht

/-- The first step opens the frame. -/
theorem keeps_entering (hcode : m.code = b.programCode)
    (hadm : m.admits b.slotTable.length = true) (hb : Block.refusal? b.slotTable b = none)
    (hpc : s.pc = 0) (hstack : s.stack = []) (hfp : s.fp = 0) (hlocals : s.locals = [])
    (hs : s.halted = false) : (m.step s).Keeps b m.args := by
  have hi : m.instrAt? s.pc = some (.enter b.slotTable.length) := by
    rw [hpc]
    simp [Machine.instrAt?, hcode, Block.programCode]
  have hexec : (Instr.enter b.slotTable.length).exec m.toSetting s = .done (.advance 1)
      { s with fp := 1, locals := 0 :: List.replicate b.slotTable.length 0 } := by
    simp [Instr.exec, State.saveFrame, hadm, hlocals, hfp]
  refine keeps_of_exec hs hi hexec (.inside 0 ?_ ?_ ⟨rfl, _, rfl, by simp⟩ hs)
  · simp [hpc]
  · have hdepths : StandsAt (Block.depths b ++ [0]) 0 (Block.depths b) := ⟨[], [0], rfl, rfl⟩
    rw [hstack]
    refine Block.getElem?_depths hb hdepths ?_
    rw [← Block.length_depths b.slotTable b]
    simp

theorem consistent_of_accepted (hb : Block.refusal? b.slotTable b = none) :
    Consistent b.slotTable.length (Block.depths b ++ [0]) 0 (Block.code b.slotTable b) := by
  have hdepths : StandsAt (Block.depths b ++ [0]) 0 (Block.depths b) := ⟨[], [0], rfl, rfl⟩
  exact Block.consistent b hb hdepths (by simp [← Block.length_depths b.slotTable b])

/-- An instruction of the block: its depth agrees with those it leads to. -/
theorem keeps_in_block (hb : Block.refusal? b.slotTable b = none) {k : Nat}
    (hpc : s.pc = (k + 1 : Nat)) (hk : k < (Block.code b.slotTable b).length)
    (hi : m.instrAt? s.pc = some (Block.code b.slotTable b)[k])
    (hdepth : (Block.depths b ++ [0])[k]? = some s.stack.length)
    (hframe : s.InFrame b.slotTable.length) (hs : s.halted = false) :
    (m.step s).Keeps b m.args := by
  obtain ⟨d, next, hd, hnext, htargets⟩ :=
    consistent_of_accepted hb k _ (List.getElem?_eq_getElem hk)
  rw [Nat.zero_add] at hd htargets
  obtain rfl : d = s.stack.length := Option.some.inj (hd.symm.trans hdepth)
  rcases Instr.exec_of_successors m.toSetting hframe hnext with
    ⟨offset, t, hexec, hmem, ht, hpct, hhalt⟩ | ⟨hread, a, t, hexec⟩
  · obtain ⟨q, hq, hdq⟩ := htargets _ hmem
    refine keeps_of_exec hs hi hexec (.inside q ?_ hdq ⟨ht.fp, ht.locals⟩ ?_)
    · show t.pc + offset = _
      rw [hpct, hpc]
      push_cast
      omega
    · exact hhalt.trans hs
  · refine keeps_of_granted hs hi fun hx => ?_
    rw [Machine.step_of_fault hs hi hx hexec]
    exact Or.inl ⟨congrArg some hread, a, rfl⟩

/-- Behind the block the frame is closed. -/
theorem keeps_closing (hpc : s.pc = ((Block.code b.slotTable b).length + 1 : Nat))
    (hi : m.instrAt? s.pc = some (.exit b.slotTable.length)) (hstack : s.stack = [])
    (hframe : s.InFrame b.slotTable.length) (hs : s.halted = false) :
    (m.step s).Keeps b m.args := by
  obtain ⟨vs, hvs, hvlen⟩ := hframe.locals
  have hexec : (Instr.exit b.slotTable.length).exec m.toSetting s =
      .done (.advance 1) { s with fp := 0, locals := [] } := by
    simp [Instr.exec, hvs, hvlen]
  refine keeps_of_exec hs hi hexec (.leaving ?_ hstack rfl rfl)
  show s.pc + 1 = _
  rw [hpc]
  push_cast
  omega

/-- A step inside the frame, or the one that closes it. -/
theorem keeps_inside (hcode : m.code = b.programCode)
    (hb : Block.refusal? b.slotTable b = none) {k : Nat} (hpc : s.pc = (k + 1 : Nat))
    (hdepth : (Block.depths b ++ [0])[k]? = some s.stack.length)
    (hframe : s.InFrame b.slotTable.length) (hs : s.halted = false) :
    (m.step s).Keeps b m.args := by
  have hi : m.instrAt? s.pc =
      (Block.code b.slotTable b ++ [.exit b.slotTable.length, .halt])[k]? := by
    rw [hpc, Machine.instrAt?_natCast, hcode, b.programCode_getElem?]
  have hlen := Block.length_depths b.slotTable b
  have hk : k ≤ (Block.code b.slotTable b).length := by
    have := (List.getElem?_eq_some_iff.1 hdepth).1
    simp only [List.length_append, List.length_singleton] at this
    omega
  rcases Nat.lt_or_eq_of_le hk with hlt | rfl
  · rw [List.getElem?_append_left hlt, List.getElem?_eq_getElem hlt] at hi
    exact keeps_in_block hb hpc hlt hi hdepth hframe hs
  · rw [List.getElem?_append_right (Nat.le_refl _), Nat.sub_self] at hi
    rw [← hlen, List.getElem?_append_right (Nat.le_refl _), Nat.sub_self] at hdepth
    have hdepth' : 0 = s.stack.length := by simpa using hdepth
    exact keeps_closing hpc hi (List.length_eq_zero_iff.1 hdepth'.symm) hframe hs

/-- Behind the frame the machine stops, and has stopped from then on. -/
theorem keeps_leaving (hcode : m.code = b.programCode)
    (hpc : s.pc = ((Block.code b.slotTable b).length + 2 : Nat)) (hstack : s.stack = [])
    (hfp : s.fp = 0) (hlocals : s.locals = []) : (m.step s).Keeps b m.args := by
  have hi : m.instrAt? s.pc = some .halt := by
    rw [hpc, Machine.instrAt?_natCast, hcode, b.programCode_getElem?]
    simp
  cases hs : s.halted with
  | true =>
      have hstep : m.step s = .stopped s := by simp [Machine.step, hs]
      rw [hstep]
      exact ⟨.leaving hpc hstack hfp hlocals, hs⟩
  | false =>
      refine keeps_of_granted hs hi fun hx => ?_
      rw [Machine.step_of_halt hs hi hx]
      exact ⟨.leaving hpc hstack hfp hlocals, rfl⟩

/-- **One step of compiled code**: the invariant is kept, or the failure is an expected one. -/
theorem Safe.step (hcode : m.code = b.programCode)
    (hadm : m.admits b.slotTable.length = true) (hb : Block.refusal? b.slotTable b = none)
    (h : Safe b s) : (m.step s).Keeps b m.args := by
  cases h with
  | entering hpc hstack hfp hlocals hs =>
      exact keeps_entering hcode hadm hb hpc hstack hfp hlocals hs
  | inside k hpc hdepth hframe hs => exact keeps_inside hcode hb hpc hdepth hframe hs
  | leaving hpc hstack hfp hlocals => exact keeps_leaving hcode hpc hstack hfp hlocals

/-- **A run of compiled code**: the invariant holds of every state on the way. -/
theorem Safe.of_visits (hcode : m.code = b.programCode)
    (hadm : m.admits b.slotTable.length = true) (hb : Block.refusal? b.slotTable b = none)
    (h : m.Visits s) : Safe b s := by
  refine Machine.Visits.invariant (.entering rfl rfl rfl rfl rfl) ?_ ?_ h
  · intro s t hs hstep
    have hkeep := hs.step hcode hadm hb
    rwa [hstep] at hkeep
  · intro s t hs hstep
    have hkeep := hs.step hcode hadm hb
    rw [hstep] at hkeep
    exact hkeep.1

end Step

/-! ## What the invariant says -/

section Reading

variable {b : Block} {s : State}

theorem Block.length_programCode (b : Block) :
    b.programCode.length = (Block.code b.slotTable b).length + 3 := by
  simp [Block.programCode]

theorem Safe.pc_lt (h : Safe b s) : 0 ≤ s.pc ∧ s.pc < b.programCode.length := by
  rw [b.length_programCode]
  cases h with
  | entering hpc => rw [hpc]; omega
  | inside k hpc hdepth =>
      have hk := (List.getElem?_eq_some_iff.1 hdepth).1
      rw [List.length_append, List.length_singleton, Block.length_depths b.slotTable b] at hk
      rw [hpc]
      omega
  | leaving hpc => rw [hpc]; omega

theorem Safe.inFrame (h : Safe b s) (h₁ : 1 ≤ s.pc) (h₂ : s.pc + 2 ≤ b.programCode.length) :
    s.InFrame b.slotTable.length := by
  rw [b.length_programCode] at h₂
  cases h with
  | entering hpc => rw [hpc] at h₁; omega
  | inside k _ _ hframe => exact hframe
  | leaving hpc => rw [hpc] at h₂; omega

theorem Safe.stack_length (h : Safe b s) : s.stack.length = b.stackDepth s.pc.toNat := by
  have hlen := Block.length_depths b.slotTable b
  unfold Block.stackDepth
  cases h with
  | entering hpc hstack => simp [hpc, hstack]
  | inside k hpc hdepth =>
      have hk := (List.getElem?_eq_some_iff.1 hdepth).1
      have hlist : (Block.depths b ++ [0, 0])[k]? = some s.stack.length := by
        rw [show Block.depths b ++ [0, 0] = (Block.depths b ++ [0]) ++ [0] by simp,
          List.getElem?_append_left hk, hdepth]
      rw [hpc, Int.toNat_natCast, List.getD_cons_succ, List.getD_eq_getElem?_getD, hlist]
      rfl
  | leaving hpc hstack =>
      rw [hpc, Int.toNat_natCast, List.getD_cons_succ, hstack, ← hlen]
      simp

theorem Safe.halted (h : Safe b s) (hs : s.halted = true) :
    s.stack = [] ∧ s.locals = [] ∧ s.fp = 0 ∧ s.pc + 1 = b.programCode.length := by
  rw [b.length_programCode]
  cases h with
  | entering _ _ _ _ hrun => rw [hs] at hrun; cases hrun
  | inside _ _ _ _ hrun => rw [hs] at hrun; cases hrun
  | leaving hpc hstack hfp hlocals =>
      refine ⟨hstack, hlocals, hfp, ?_⟩
      rw [hpc]
      push_cast
      omega

end Reading

/-! ## Where statements begin -/

mutual

/-- The positions of a statement and of those inside it, if its code begins at `p`. -/
def Stmt.positions (slots : List String) (p : Nat) : Stmt → List (Nat × Stmt)
  | .assign x e => [(p, .assign x e)]
  | .print e => [(p, .print e)]
  | .cond t b o =>
    let body := p + (t.code slots).length + 1
    (p, .cond t b o) :: (Block.positions slots body b ++
      Block.positions slots (body + (Block.code slots b).length + 1) o)
  | .loop t b => (p, .loop t b) :: Block.positions slots (p + (t.code slots).length + 1) b
  | .stray d => [(p, .stray d)]

/-- The positions of the statements of a block and of those inside them, if its code begins at
`p`. -/
def Block.positions (slots : List String) (p : Nat) : Block → List (Nat × Stmt)
  | [] => []
  | s :: rest => s.positions slots p ++ Block.positions slots (p + (s.code slots).length) rest

end

section Positions

variable {code : List Instr} {st : Stmt} {q : Nat}

mutual

/-- A statement stands at its position, and the stack is empty there. -/
theorem Stmt.of_mem_positions : ∀ (s : Stmt) {p : Nat}, s.refusal? slots = none →
    StandsAt code p (s.code slots) → StandsAt ds p s.depths → (q, st) ∈ s.positions slots p →
    StandsAt code q (st.code slots) ∧ ds[q]? = some 0
  | .assign x e, p, hr, hc, hd, hmem => by
      rw [Stmt.positions, List.mem_singleton] at hmem
      cases hmem
      exact ⟨hc, Stmt.getElem?_depths hr hd⟩
  | .print e, p, hr, hc, hd, hmem => by
      rw [Stmt.positions, List.mem_singleton] at hmem
      cases hmem
      exact ⟨hc, Stmt.getElem?_depths hr hd⟩
  | .cond t b o, p, hr, hc, hd, hmem => by
      rw [Stmt.positions, List.mem_cons] at hmem
      rcases hmem with hmem | hmem
      · cases hmem
        exact ⟨hc, Stmt.getElem?_depths hr hd⟩
      · rw [Stmt.refusal?, Option.or_eq_none_iff, Option.or_eq_none_iff] at hr
        rw [Stmt.code, condCode] at hc
        rw [Stmt.depths] at hd
        have hbody := hd.right.tail
        have helse := hbody.right.tail
        rw [t.length_depths slots] at hbody helse
        rw [Block.length_depths slots] at helse
        rcases List.mem_append.1 hmem with hmem | hmem
        · exact Block.of_mem_positions b hr.2.1 hc.right.tail.left hbody.left hmem
        · exact Block.of_mem_positions o hr.2.2 hc.right.tail.right.tail helse hmem
  | .loop t b, p, hr, hc, hd, hmem => by
      rw [Stmt.positions, List.mem_cons] at hmem
      rcases hmem with hmem | hmem
      · cases hmem
        exact ⟨hc, Stmt.getElem?_depths hr hd⟩
      · rw [Stmt.refusal?, Option.or_eq_none_iff] at hr
        rw [Stmt.code, loopCode] at hc
        rw [Stmt.depths] at hd
        have hbody := hd.right.tail
        rw [t.length_depths slots] at hbody
        exact Block.of_mem_positions b hr.2 hc.right.tail.left hbody.left hmem
  | .stray d, p, hr, _, _, _ => by rw [Stmt.refusal?] at hr; cases hr

theorem Block.of_mem_positions : ∀ (b : Block) {p : Nat}, Block.refusal? slots b = none →
    StandsAt code p (Block.code slots b) → StandsAt ds p (Block.depths b) →
    (q, st) ∈ Block.positions slots p b → StandsAt code q (st.code slots) ∧ ds[q]? = some 0
  | [], p, _, _, _, hmem => by rw [Block.positions] at hmem; cases hmem
  | s :: rest, p, hr, hc, hd, hmem => by
      rw [Block.refusal?, Option.or_eq_none_iff] at hr
      rw [Block.code] at hc
      rw [Block.depths] at hd
      rw [Block.positions, List.mem_append] at hmem
      have hrest := hd.right
      rw [s.length_depths slots] at hrest
      rcases hmem with hmem | hmem
      · exact Stmt.of_mem_positions s hr.1 hc.left hd.left hmem
      · exact Block.of_mem_positions rest hr.2 hc.right hrest hmem

end

/-- The stack is empty where a statement of a program begins. -/
theorem Block.stackDepth_of_mem_positions {b : Block}
    (hb : Block.refusal? b.slotTable b = none) (h : (q, st) ∈ Block.positions b.slotTable 1 b) :
    StandsAt b.programCode q (st.code b.slotTable) ∧ b.stackDepth q = 0 := by
  have hd : StandsAt (0 :: (Block.depths b ++ [0, 0])) 1 (Block.depths b) :=
    ⟨[0], [0, 0], by simp, rfl⟩
  obtain ⟨hc, hq⟩ := Block.of_mem_positions b hb b.standsAt_programCode.left hd h
  exact ⟨hc, by rw [stackDepth, List.getD_eq_getElem?_getD, hq]; rfl⟩

end Positions

/-! ## The theorem -/

/-- **Compiled code never goes wrong.** Take any state that a fresh machine comes to with the code
of a program, on any arguments and under any limit. The program counter lies in the code. While
the frame is open it is the only one, with a cell for the saved frame pointer and one for each
slot. The depth of the stack is that of the position. The only failures are an argument that is
not there and the limit; and when the machine has stopped, stack and locals are empty, no frame is
open, and it stands at the last instruction. Statements begin with an empty stack. -/
theorem Block.compile_never_goes_wrong {b : Block} {a : Assembly} (h : b.compile = .ok a)
    (args : List Int) (limit : Option CountLimit) :
    let m : Machine := { code := a.code, args := args, stepLimit := limit }
    (∀ s, m.Visits s →
      (0 ≤ s.pc ∧ s.pc < a.code.length) ∧
      (1 ≤ s.pc → s.pc + 2 ≤ a.code.length →
        s.fp = 1 ∧ s.locals[0]? = some 0 ∧ s.locals.length = 1 + a.slots.length) ∧
      s.stack.length = b.stackDepth s.pc.toNat ∧
      (∀ f t, m.step s = .failed f t →
        (f.instr = some .inputRead ∧ ∃ k, f.fault = .badArgument k args.length) ∨
          ∃ l, f.fault = .stepLimit l) ∧
      (s.halted = true →
        s.stack = [] ∧ s.locals = [] ∧ s.fp = 0 ∧ s.pc + 1 = a.code.length)) ∧
    ∀ q st, (q, st) ∈ Block.positions a.slots 1 b →
      StandsAt a.code q (st.code a.slots) ∧ b.stackDepth q = 0 := by
  intro m
  obtain ⟨hb, hcode, hslots⟩ := compile_eq_ok h
  have hadm : m.admits b.slotTable.length = true := by
    simp [m, Setting.admits, Word.least]
  rw [hcode, hslots]
  refine ⟨?_, fun q st hmem => stackDepth_of_mem_positions hb hmem⟩
  intro s hs
  have hsafe : Safe b s := .of_visits hcode hadm hb hs
  refine ⟨hsafe.pc_lt, ?_, hsafe.stack_length, ?_, hsafe.halted⟩
  · intro h₁ h₂
    have hframe := hsafe.inFrame h₁ h₂
    obtain ⟨vs, hvs, hlen⟩ := hframe.locals
    exact ⟨hframe.fp, by simp [hvs], by simp [hvs, hlen, Nat.add_comm]⟩
  · intro f t hstep
    have hkeep := hsafe.step hcode hadm hb
    rwa [hstep] at hkeep

/-- A loop that may read an argument that is not there, with a conditional that has one side
only. -/
def polling : Block :=
  [.loop (.input (.num 0))
    [.cond (.bin .lt (.num 1) (.num 2)) [.print (.bin .sub (.num 7) (.input (.num 1)))] []]]

theorem polling_never_goes_wrong : ∃ a, polling.compile = .ok a ∧
    ∀ s, Machine.Visits { code := a.code, args := [1], stepLimit := some { count := 500 } } s →
      s.pc < a.code.length ∧ s.stack.length = polling.stackDepth s.pc.toNat := by
  obtain ⟨a, ha⟩ : ∃ a, polling.compile = .ok a := ⟨_, rfl⟩
  refine ⟨a, ha, fun s hs => ?_⟩
  obtain ⟨hpc, _, hdepth, _⟩ :=
    (Block.compile_never_goes_wrong ha [1] (some { count := 500 })).1 s hs
  exact ⟨hpc.2, hdepth⟩

end WhileLang
