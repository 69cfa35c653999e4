import WhileLang.Proofs.ExpressionRuns

/-!
# The machine follows the program

Running the code of a program does what the program does. The argument is a simulation: every step
of the execution of the program is matched by at least one step of the machine, and between two
such steps the machine is in a state that belongs to the execution.

Such a state has an empty operand stack and the store in its only frame, and its program counter
stands where the code of what is still to be done begins. After a conditional or in a loop this
code is not in one piece: the machine gets from one piece to the next by branches
(`Continues.jump`).

* `Expr.reaches_of_eval` and `Expr.fails_of_eval`: the code of an expression pushes its value, or
  fails on an argument.
* `Related` is the relation between an execution and a state of the machine; `Related.step` is the
  simulation of one step and `Related.run` that of a run.
* `Block.halts_iff`, `Block.faults_iff` and `Block.runsForever_iff`: compiled code halts, fails
  and runs for ever exactly as the program does.
-/

namespace WhileLang

/-! ## The code of expressions -/

/-- The open frame holds the values that a store gives to the names of a slot table. -/
def State.Holds (s : State) (slots : List String) (σ : Store) : Prop :=
  0 ≤ s.fp ∧ ∀ x ∈ slots, s.locals[s.fp.toNat + slots.idxOf x]? = some (σ x)

/-- The machine is about to execute the instruction at `p`, with a store in its frame. -/
structure State.Ready (s : State) (slots : List String) (σ : Store) (p : Nat) : Prop where
  running : s.halted = false
  pc : s.pc = p
  holds : s.Holds slots σ

variable {m : Machine} {slots : List String} {σ : Store} {s : State} {p : Nat}

theorem State.Ready.pushed (h : s.Ready slots σ p) (n : Nat) (v : Int) :
    (s.pushed n v).Ready slots σ (p + n) where
  running := h.running
  pc := by simp [State.pushed, h.pc]
  holds := h.holds

theorem State.Ready.instrAt? (h : s.Ready slots σ p) (m : Machine) :
    m.instrAt? s.pc = m.code[p]? := by
  rw [h.pc, Machine.instrAt?_natCast]

/-- The slot of a name holds its value in the store. -/
theorem State.Holds.holdsAt (h : s.Holds slots σ) {x : String} (hx : x ∈ slots) :
    s.HoldsAt (slots.idxOf x) (σ x) := by
  obtain ⟨hfp, hcells⟩ := h
  have hget := hcells x hx
  have hlt : s.fp.toNat + slots.idxOf x < s.locals.length :=
    (List.getElem?_eq_some_iff.1 hget).1
  have hindex : s.fp + slots.idxOf x = (s.fp.toNat + slots.idxOf x : Nat) := by omega
  exact ⟨_, by rw [hindex, position?_of_lt hlt], hget⟩

/-- Reading the slot of a name gives its value in the store. -/
theorem State.Holds.exec_getLocal (h : s.Holds slots σ) {x : String} (hx : x ∈ slots)
    (setting : Setting) :
    (Instr.getLocal (slots.idxOf x)).exec setting s = .done (.advance 1) (s.push (σ x)) :=
  (h.holdsAt hx).exec_getLocal setting

/-- **The code of an expression pushes its value**, and takes one step for each instruction. -/
theorem Expr.reaches_of_eval (hm : m.stepLimit = none) {e : Expr}
    (hr : e.refusal? slots = none) (hs : s.Ready slots σ p)
    (hc : StandsAt m.code p (e.code slots)) {v : Int} (hv : e.eval m.args σ = some v) :
    m.Reaches (e.code slots).length s (s.pushed (e.code slots).length v) := by
  have hslots : ∀ x ∈ e.reads, s.HoldsAt (slots.idxOf x) (σ x) :=
    fun x hx => hs.holds.holdsAt ((refusal?_eq_none_iff.1 hr).2 x hx)
  rw [code_eq_codeAt fun _ _ => rfl] at hc ⊢
  exact reaches_codeAt ⟨hs.running, ⟨p, hs.pc, hc⟩, by simp [hm]⟩ hslots hv

/-- From `s` on, the machine fails on an argument and prints nothing before that. -/
def Machine.FailsReading (m : Machine) (s : State) : Prop :=
  ∃ n f t, m.runFor n s = (.failed f, t) ∧ f.fault.isAddress = true ∧ t.output = s.output

theorem Machine.Reaches.failsReading {n : Nat} {t : State} (h : m.Reaches n s t)
    (ho : t.output = s.output) (ht : m.FailsReading t) : m.FailsReading s := by
  obtain ⟨k, f, u, hu, hf, hout⟩ := ht
  exact ⟨n + k, f, u, (h k).trans hu, hf, hout.trans ho⟩

/-- The code of an expression that has no value fails on an argument. -/
theorem Expr.fails_of_eval (hm : m.stepLimit = none) {e : Expr} (hr : e.refusal? slots = none)
    (hs : s.Ready slots σ p) (hc : StandsAt m.code p (e.code slots))
    (hv : e.eval m.args σ = none) : m.FailsReading s := by
  induction e generalizing s p with
  | var x => cases hv
  | num n => cases hv
  | bin op l r ihl ihr =>
      rw [refusal?, Option.or_eq_none_iff] at hr
      cases ha : l.eval m.args σ with
      | none => exact ihl hr.1 hs hc.left.left ha
      | some a =>
          rw [eval, ha, Option.bind_some, Option.map_eq_none_iff] at hv
          have hl := reaches_of_eval hm hr.1 hs hc.left.left ha
          exact hl.failsReading rfl (ihr hr.2 (hs.pushed _ a) hc.left.right hv)
  | input i ih =>
      cases ha : i.eval m.args σ with
      | none => exact ih hr hs hc.left ha
      | some a =>
          rw [eval, ha, Option.bind_some] at hv
          have hi := reaches_of_eval (e := i) hm hr hs hc.left ha
          have hsi := hs.pushed (i.code slots).length a
          refine hi.failsReading rfl ?_
          have hexec : Instr.inputRead.exec m.toSetting (s.pushed (i.code slots).length a) =
              .fault (.badArgument a m.args.length)
                { s.pushed (i.code slots).length a with stack := s.stack } := by
            simp only [Instr.exec, State.pushed, hv]
          have hstep := Machine.step_of_fault hsi.running
            ((hsi.instrAt? m).trans hc.right.head) (Machine.exhausted_of_no_limit hm _) hexec
          exact ⟨1, _, _, Machine.runFor_of_failed hstep, rfl, rfl⟩
  | stray d => cases hr

/-! ## Where the code of what is still to be done begins -/

/-- The code of `todo` is found from position `p` on, and behind it the end of the program. -/
inductive Continues (slots : List String) (code : List Instr) : Block → Nat → Prop where
  /-- Nothing is left but to close the frame and to stop. -/
  | done {p : Nat} : code[p]? = some (.exit slots.length) → code[p + 1]? = some .halt →
      Continues slots code [] p
  /-- The code of a statement, and what follows it. -/
  | stmt {st : Stmt} {rest : Block} {p : Nat} : StandsAt code p (st.code slots) →
      st.refusal? slots = none → Continues slots code rest (p + (st.code slots).length) →
      Continues slots code (st :: rest) p
  /-- A branch to where the code is. -/
  | jump {todo : Block} {p q : Nat} {d : Int} : code[p]? = some (.branch d) →
      (p : Int) + d = q → Continues slots code todo q → Continues slots code todo p

/-- The code of a block leads on to what follows it. -/
theorem Continues.block {code : List Instr} {rest : Block} :
    ∀ {b : Block} {p : Nat}, StandsAt code p (Block.code slots b) →
      Block.refusal? slots b = none →
      Continues slots code rest (p + (Block.code slots b).length) →
      Continues slots code (b ++ rest) p := by
  intro b
  induction b with
  | nil => intro p _ _ hrest; simpa [Block.code] using hrest
  | cons st b ih =>
      intro p hc hr hrest
      rw [Block.refusal?, Option.or_eq_none_iff] at hr
      rw [Block.code] at hc hrest
      refine .stmt hc.left hr.1 (ih hc.right hr.2 ?_)
      rwa [Nat.add_assoc, ← List.length_append]

/-- The code of the first thing to do begins right at `p`. -/
def BeginsAt (slots : List String) (code : List Instr) (p : Nat) : Block → Prop
  | [] => code[p]? = some (.exit slots.length) ∧ code[p + 1]? = some .halt
  | st :: rest => StandsAt code p (st.code slots) ∧ st.refusal? slots = none ∧
      Continues slots code rest (p + (st.code slots).length)

/-- The state after `n` steps that lead to position `q` and change nothing else. -/
def State.movedTo (s : State) (n q : Nat) : State :=
  { s with pc := q, steps := s.steps + n }

/-- The machine follows branches until it comes to the code of the first thing to do. -/
theorem Continues.reaches (hm : m.stepLimit = none) {todo : Block}
    (h : Continues slots m.code todo p) (hs : s.halted = false) (hpc : s.pc = p) :
    ∃ n q, m.Reaches n s (s.movedTo n q) ∧ BeginsAt slots m.code q todo := by
  induction h generalizing s with
  | @done p hexit hhalt =>
      refine ⟨0, p, ?_, hexit, hhalt⟩
      simpa [State.movedTo, ← hpc] using Machine.Reaches.refl m s
  | @stmt st rest p hc hr hrest _ =>
      refine ⟨0, p, ?_, hc, hr, hrest⟩
      simpa [State.movedTo, ← hpc] using Machine.Reaches.refl m s
  | @jump todo p q d hbranch hq _ ih =>
      have hi : m.instrAt? s.pc = some (.branch d) := by
        rw [hpc, Machine.instrAt?_natCast, hbranch]
      have hstep := Machine.step_of_advance hs hi (Machine.exhausted_of_no_limit hm s) rfl
      obtain ⟨n, r, hn, hr⟩ := ih (s := { s with steps := s.steps + 1, pc := s.pc + d }) hs
        (by simp [hpc, hq])
      refine ⟨1 + n, r, ?_, hr⟩
      have h := (Machine.reaches_of_step hstep).trans hn
      simpa [State.movedTo, Int.add_assoc] using h

/-! ## The simulation -/

/-- The state of the machine that belongs to an execution: what is to be done is found at the
program counter, the store is in the only frame, and the same has been printed. -/
structure Related (slots : List String) (code : List Instr) (x : Execution) (s : State) :
    Prop where
  running : s.halted = false
  fp : s.fp = 1
  locals : s.locals = 0 :: slots.map x.store
  stack : s.stack = []
  output : s.output = x.printed
  continues : ∃ p : Nat, s.pc = p ∧ Continues slots code x.todo p

theorem Related.holds {code : List Instr} {x : Execution} (h : Related slots code x s) :
    s.Holds slots x.store := by
  refine ⟨by simp [h.fp], fun y hy => ?_⟩
  have hidx := List.idxOf_lt_length_iff.2 hy
  simp [h.fp, h.locals, Nat.add_comm 1, hidx]

/-- What the machine does when the execution takes a step: it comes to a related state, in at
least one step, or it ends as the execution does. -/
def Matches (slots : List String) (m : Machine) (x : Execution) (s : State) :
    Progression → Prop
  | .running y => ∃ n t, m.Reaches (n + 1) s t ∧ Related slots m.code y t
  | .finished => ∃ n t, m.runFor n s = (.halted, t) ∧ t.output = x.printed
  | .failed => m.FailsReading s

/-- Behind the code of an expression: the machine goes on as the execution does with the value,
if one more instruction leads to a related state. -/
theorem matches_withValue (hm : m.stepLimit = none) {x : Execution} {e : Expr}
    {next : Int → Execution} (hs : s.Ready slots x.store p) (hr : e.refusal? slots = none)
    (hc : StandsAt m.code p (e.code slots)) {i : Instr}
    (hi : m.code[p + (e.code slots).length]? = some i)
    (hnext : ∀ v, ∃ d t, i.exec m.toSetting (s.pushed (e.code slots).length v) =
      .done (.advance d) t ∧
      Related slots m.code (next v) { t with steps := t.steps + 1, pc := t.pc + d }) :
    Matches slots m x s (x.withValue m.args e next) := by
  unfold Execution.withValue
  cases hv : e.eval m.args x.store with
  | none => exact Expr.fails_of_eval hm hr hs hc hv
  | some v =>
      have hreach := Expr.reaches_of_eval hm hr hs hc hv
      have hsv := hs.pushed (e.code slots).length v
      obtain ⟨d, t, hexec, hrel⟩ := hnext v
      have hstep := Machine.step_of_advance hsv.running ((hsv.instrAt? m).trans hi)
        (Machine.exhausted_of_no_limit hm _) hexec
      exact ⟨_, _, hreach.trans (Machine.reaches_of_step hstep), hrel⟩

section Statements

variable {x : Execution} {rest : Block} {e t : Expr} {b o : Block} {name : String}

theorem Related.ready (h : Related slots m.code x s) (hpc : s.pc = p) :
    s.Ready slots x.store p :=
  ⟨h.running, hpc, h.holds⟩

/-- Behind the last statement the frame is closed and the machine stops. -/
theorem Related.runFor_closing (hm : m.stepLimit = none) (h : Related slots m.code x s)
    (hpc : s.pc = p) (hbeg : BeginsAt slots m.code p []) :
    m.runFor 2 s = (.halted, { s with
      fp := 0, locals := [], steps := s.steps + 1 + 1, pc := s.pc + 1, halted := true }) := by
  obtain ⟨hexit, hhalt⟩ := hbeg
  have hi : m.instrAt? s.pc = some (.exit slots.length) := by
    rw [hpc, Machine.instrAt?_natCast, hexit]
  have hexec : (Instr.exit slots.length).exec m.toSetting s =
      .done (.advance 1) { s with fp := 0, locals := [] } := by
    simp [Instr.exec, h.locals]
  have hstep := Machine.step_of_advance h.running hi (Machine.exhausted_of_no_limit hm s) hexec
  have hi' : m.instrAt? (s.pc + 1) = some .halt := by
    rw [hpc, ← Int.natCast_succ, Machine.instrAt?_natCast, hhalt]
  have hstop := Machine.step_of_halt (s := { s with
    fp := 0, locals := [], steps := s.steps + 1, pc := s.pc + 1 }) h.running hi'
    (Machine.exhausted_of_no_limit hm _)
  exact (Machine.reaches_of_step hstep 1).trans (Machine.runFor_of_stopped hstop)

theorem Related.matches_nil (hm : m.stepLimit = none) (h : Related slots m.code x s)
    (hpc : s.pc = p) (hbeg : BeginsAt slots m.code p []) :
    Matches slots m x s .finished :=
  ⟨2, _, h.runFor_closing hm hpc hbeg, h.output⟩

theorem Related.matches_assign (hm : m.stepLimit = none) (hnd : slots.Nodup)
    (h : Related slots m.code x s) (hpc : s.pc = p)
    (hbeg : BeginsAt slots m.code p (.assign name e :: rest)) :
    Matches slots m x s (x.withValue m.args e fun v =>
      { x with todo := rest, store := Function.update x.store name v }) := by
  obtain ⟨hc, hr, hrest⟩ := hbeg
  rw [Stmt.refusal?, Option.or_eq_none_iff] at hr
  rw [Stmt.code] at hc hrest
  have hname : name ∈ slots := slotRefusal?_eq_none.1 hr.2
  have hlt := List.idxOf_lt_length_iff.2 hname
  refine matches_withValue hm (h.ready hpc) hr.1 hc.left hc.right.head fun v => ?_
  have hcell : (s.pushed (e.code slots).length v).cell (slots.idxOf name) =
      .ok ((slots.idxOf name + 1 : Nat) : Int) := by
    simp only [State.cell, State.pushed, h.fp, h.locals, List.length_cons, List.length_map]
    rw [if_neg (by omega)]
    congr 1
    omega
  have hpos : position? (s.pushed (e.code slots).length v).locals.length
      ((slots.idxOf name + 1 : Nat) : Int) = some (slots.idxOf name + 1) :=
    position?_of_lt (by simpa [State.pushed, h.locals] using hlt)
  refine ⟨1, { s.pushed (e.code slots).length v with
    stack := s.stack, locals := s.locals.set (slots.idxOf name + 1) v }, ?_, ?_⟩
  · simp only [Instr.exec, hcell, hpos]
    simp [State.pushed]
  · refine ⟨h.running, h.fp, ?_, h.stack, h.output, p + (e.code slots).length + 1, ?_, ?_⟩
    · simp [h.locals, hnd.map_update, hname]
    · simp [State.pushed, hpc]
    · simpa [Nat.add_assoc] using hrest

theorem Related.matches_print (hm : m.stepLimit = none) (h : Related slots m.code x s)
    (hpc : s.pc = p) (hbeg : BeginsAt slots m.code p (.print e :: rest)) :
    Matches slots m x s (x.withValue m.args e fun v =>
      { x with todo := rest, printed := x.printed ++ [v] }) := by
  obtain ⟨hc, hr, hrest⟩ := hbeg
  rw [Stmt.refusal?] at hr
  rw [Stmt.code] at hc hrest
  refine matches_withValue hm (h.ready hpc) hr hc.left hc.right.head fun v => ?_
  refine ⟨1, _, rfl, h.running, h.fp, h.locals, h.stack, ?_, p + (e.code slots).length + 1, ?_,
    ?_⟩
  · show s.output ++ [v] = x.printed ++ [v]
    rw [h.output]
  · simp [State.pushed, hpc]
  · simpa [Nat.add_assoc] using hrest

/-- Behind a test, the machine goes on at one of two positions. -/
theorem Related.matches_test (hm : m.stepLimit = none) (h : Related slots m.code x s)
    (hpc : s.pc = p) {d : Nat} (hr : t.refusal? slots = none)
    (hc : StandsAt m.code p (t.code slots))
    (hi : m.code[p + (t.code slots).length]? = some (.branchIfZero d))
    {zero nonzero : Block}
    (hzero : Continues slots m.code zero (p + (t.code slots).length + d))
    (hnonzero : Continues slots m.code nonzero (p + (t.code slots).length + 1)) :
    Matches slots m x s (x.withValue m.args t fun v =>
      { x with todo := if v = 0 then zero else nonzero }) := by
  refine matches_withValue hm (h.ready hpc) hr hc hi fun v => ?_
  refine ⟨_, _, rfl, h.running, h.fp, h.locals, h.stack, h.output, ?_⟩
  by_cases hv : v = 0
  · refine ⟨p + (t.code slots).length + d, ?_, ?_⟩
    · simp [State.pushed, hpc, hv]
    · simpa only [hv, if_true] using hzero
  · refine ⟨p + (t.code slots).length + 1, ?_, ?_⟩
    · simp [State.pushed, hpc, hv]
    · simpa only [hv, if_false] using hnonzero

theorem Related.matches_cond (hm : m.stepLimit = none) (h : Related slots m.code x s)
    (hpc : s.pc = p) (hbeg : BeginsAt slots m.code p (.cond t b o :: rest)) :
    Matches slots m x s (x.withValue m.args t fun v =>
      { x with todo := if v = 0 then o ++ rest else b ++ rest }) := by
  obtain ⟨hc, hr, hrest⟩ := hbeg
  rw [Stmt.refusal?, Option.or_eq_none_iff, Option.or_eq_none_iff] at hr
  rw [Stmt.code, condCode] at hc hrest
  have hbody := hc.right.tail
  have hjump := hbody.right.head
  have helse := hbody.right.tail
  -- the alternative ends where the statement does, and so does the branch behind the body
  have hend : Continues slots m.code rest (p + (t.code slots).length + 1 +
      (Block.code slots b).length + 1 + (Block.code slots o).length) := by
    refine cast (congrArg _ ?_) hrest
    simp only [List.length_append, List.length_cons]
    omega
  have hzero : Continues slots m.code (o ++ rest)
      (p + (t.code slots).length + ((Block.code slots b).length + 2)) := by
    refine cast (congrArg _ ?_) (Continues.block helse hr.2.2 hend)
    omega
  have hnonzero : Continues slots m.code (b ++ rest) (p + (t.code slots).length + 1) := by
    refine Continues.block hbody.left hr.2.1 (.jump hjump ?_ hend)
    push_cast
    omega
  exact h.matches_test hm hpc hr.1 hc.left hc.right.head hzero hnonzero

theorem Related.matches_loop (hm : m.stepLimit = none) (h : Related slots m.code x s)
    (hpc : s.pc = p) (hbeg : BeginsAt slots m.code p (.loop t b :: rest)) :
    Matches slots m x s (x.withValue m.args t fun v =>
      { x with todo := if v = 0 then rest else b ++ .loop t b :: rest }) := by
  obtain ⟨hc, hr, hrest⟩ := hbeg
  -- the branch behind the body leads back to this very statement
  have hback : Continues slots m.code (.loop t b :: rest) p := .stmt hc hr hrest
  rw [Stmt.refusal?, Option.or_eq_none_iff] at hr
  rw [Stmt.code, loopCode] at hc hrest
  have hbody := hc.right.tail
  have hzero : Continues slots m.code rest
      (p + (t.code slots).length + ((Block.code slots b).length + 2)) := by
    refine cast (congrArg _ ?_) hrest
    simp only [List.length_append, List.length_cons, List.length_nil]
    omega
  have hnonzero : Continues slots m.code (b ++ .loop t b :: rest)
      (p + (t.code slots).length + 1) := by
    refine Continues.block hbody.left hr.2 (.jump hbody.right.head ?_ hback)
    push_cast
    omega
  exact h.matches_test hm hpc hr.1 hc.left hc.right.head hzero hnonzero

/-- The simulation of a step, when the code of the first thing to do begins at the program
counter. -/
theorem Related.matches_here (hm : m.stepLimit = none) (hnd : slots.Nodup)
    (h : Related slots m.code x s) (hpc : s.pc = p) (hbeg : BeginsAt slots m.code p x.todo) :
    Matches slots m x s (x.step m.args) := by
  unfold Execution.step
  cases htodo : x.todo with
  | nil => rw [htodo] at hbeg; exact h.matches_nil hm hpc hbeg
  | cons st rest =>
      rw [htodo] at hbeg
      cases st with
      | assign name e => exact h.matches_assign hm hnd hpc hbeg
      | print e => exact h.matches_print hm hpc hbeg
      | cond t b o => exact h.matches_cond hm hpc hbeg
      | loop t b => exact h.matches_loop hm hpc hbeg
      | stray d =>
          have hr := hbeg.2.1
          rw [Stmt.refusal?] at hr
          cases hr

end Statements

theorem BeginsAt.continues {code : List Instr} {todo : Block} (h : BeginsAt slots code p todo) :
    Continues slots code todo p := by
  cases todo with
  | nil => exact .done h.1 h.2
  | cons st rest => exact .stmt h.1 h.2.1 h.2.2

/-- Steps that lead to a state in front do not matter. -/
theorem Matches.of_reaches {x : Execution} {n : Nat} {t : State} {r : Progression}
    (hn : m.Reaches n s t) (ho : t.output = s.output) (h : Matches slots m x t r) :
    Matches slots m x s r := by
  cases r with
  | running y =>
      obtain ⟨k, u, hk, hu⟩ := h
      exact ⟨n + k, u, hn.trans hk, hu⟩
  | finished =>
      obtain ⟨k, u, hk, hu⟩ := h
      exact ⟨n + k, u, (hn k).trans hk, hu⟩
  | failed => exact hn.failsReading ho h

/-- **The simulation of one step.** -/
theorem Related.step (hm : m.stepLimit = none) (hnd : slots.Nodup) {x : Execution}
    (h : Related slots m.code x s) : Matches slots m x s (x.step m.args) := by
  obtain ⟨p, hpc, hcont⟩ := h.continues
  obtain ⟨n, q, hn, hbeg⟩ := hcont.reaches hm h.running hpc
  have hmoved : Related slots m.code x (s.movedTo n q) :=
    ⟨h.running, h.fp, h.locals, h.stack, h.output, q, rfl, hbeg.continues⟩
  exact Matches.of_reaches hn rfl (hmoved.matches_here hm hnd rfl hbeg)

/-- **The simulation of a run.** The machine comes to a state that belongs to the last one of the
execution, and has taken at least as many steps if the execution goes on. -/
theorem Related.run (hm : m.stepLimit = none) (hnd : slots.Nodup) {x y : Execution} {n : Nat}
    {e : Ending} (h : Related slots m.code x s) (hrun : x.runFor m.args n = (e, y)) :
    ∃ k t, m.Reaches k s t ∧ Related slots m.code y t ∧
      match e with
      | .finished => y.step m.args = .finished
      | .failed => y.step m.args = .failed
      | .unfinished => n ≤ k := by
  induction n generalizing x s with
  | zero =>
      cases hrun
      exact ⟨0, s, Machine.Reaches.refl m s, h, Nat.le_refl 0⟩
  | succ n ih =>
      rw [Execution.runFor] at hrun
      have hstep := h.step hm hnd
      cases hx : x.step m.args with
      | running z =>
          rw [hx] at hrun hstep
          obtain ⟨k, t, hk, ht⟩ := hstep
          obtain ⟨j, u, hj, hu, he⟩ := ih ht hrun
          refine ⟨k + 1 + j, u, hk.trans hj, hu, ?_⟩
          cases e with
          | finished => exact he
          | failed => exact he
          | unfinished => exact Nat.le_trans (Nat.succ_le_succ he) (by omega)
      | finished =>
          rw [hx] at hrun
          cases hrun
          exact ⟨0, s, Machine.Reaches.refl m s, h, hx⟩
      | failed =>
          rw [hx] at hrun
          cases hrun
          exact ⟨0, s, Machine.Reaches.refl m s, h, hx⟩

/-! ## Whole programs -/

namespace Block

variable {b : Block} {args out : List Int}

/-- The first step opens the frame, and leads to the state that belongs to the start. -/
theorem start_related (hb : Block.refusal? b.slotTable b = none) (args : List Int) :
    ∃ t, (Machine.unlimited b.programCode args).Reaches 1 {} t ∧
      Related b.slotTable b.programCode b.start t := by
  have hexec : (Instr.enter b.slotTable.length).exec
      (Machine.unlimited b.programCode args).toSetting {} = .done (.advance 1)
        { fp := 1, locals := 0 :: List.replicate b.slotTable.length 0 } := by
    have hadm : (Machine.unlimited b.programCode args).admits b.slotTable.length = true := by
      simp [Setting.admits, Machine.unlimited, Word.least]
    simp [Instr.exec, State.saveFrame, hadm]
  have hstep := Machine.step_of_advance (m := Machine.unlimited b.programCode args) (s := {}) rfl
    rfl rfl hexec
  refine ⟨_, Machine.reaches_of_step hstep, rfl, rfl, ?_, rfl, rfl, 1, rfl, ?_⟩
  · simp [start]
  · have hc := b.standsAt_programCode
    have hdone : Continues b.slotTable b.programCode []
        (1 + (Block.code b.slotTable b).length) := .done hc.right.head hc.right.tail.head
    simpa [start] using Continues.block hc.left hb hdone

theorem Finishes.halts (hb : Block.refusal? b.slotTable b = none) (h : b.Finishes args out) :
    (Machine.unlimited b.programCode args).Halts out := by
  obtain ⟨n, x, hx, rfl⟩ := h
  obtain ⟨t, ht, hrel⟩ := start_related hb args
  obtain ⟨k, u, hu, hrel', hstep⟩ :=
    hrel.run (m := .unlimited b.programCode args) rfl b.nodup_slotTable hx
  have hend := hrel'.step (m := .unlimited b.programCode args) rfl b.nodup_slotTable
  rw [hstep] at hend
  obtain ⟨j, v, hv, hout⟩ := hend
  exact ⟨1 + k + j, v, (ht.trans hu j).trans hv, hout⟩

theorem Fails.faults (hb : Block.refusal? b.slotTable b = none) (h : b.Fails args out) :
    (Machine.unlimited b.programCode args).FaultsOnAddress out := by
  obtain ⟨n, x, hx, rfl⟩ := h
  obtain ⟨t, ht, hrel⟩ := start_related hb args
  obtain ⟨k, u, hu, hrel', hstep⟩ :=
    hrel.run (m := .unlimited b.programCode args) rfl b.nodup_slotTable hx
  have hend := hrel'.step (m := .unlimited b.programCode args) rfl b.nodup_slotTable
  rw [hstep] at hend
  obtain ⟨j, f, v, hv, hf, hout⟩ := hend
  exact ⟨1 + k + j, f, v, (ht.trans hu j).trans hv, hf, hout.trans hrel'.output⟩

theorem Diverges.runsForever (hb : Block.refusal? b.slotTable b = none)
    (h : b.Diverges args) : (Machine.unlimited b.programCode args).RunsForever := by
  intro n
  obtain ⟨t, ht, hrel⟩ := start_related hb args
  cases hx : b.start.runFor args n with
  | mk e x =>
      have he : e = .unfinished := by simpa [hx] using h n
      subst he
      obtain ⟨k, u, hu, _, hk⟩ :=
        hrel.run (m := .unlimited b.programCode args) rfl b.nodup_slotTable hx
      exact (ht.trans hu).unfinished_of_le (Nat.le_trans hk (Nat.le_add_left k 1))

/-! The converse directions: a program behaves in one of three ways, and the machine with it. -/

theorem halts_iff (hb : Block.refusal? b.slotTable b = none) :
    (Machine.unlimited b.programCode args).Halts out ↔ b.Finishes args out := by
  refine ⟨fun h => ?_, fun h => h.halts hb⟩
  rcases b.behaviour_cases args with ⟨out', hf⟩ | ⟨out', hf⟩ | hd
  · rwa [h.unique rfl (hf.halts hb)]
  · exact absurd (hf.faults hb) (h.not_faultsOnAddress rfl)
  · exact absurd (hd.runsForever hb) h.not_runsForever

theorem faults_iff (hb : Block.refusal? b.slotTable b = none) :
    (Machine.unlimited b.programCode args).FaultsOnAddress out ↔ b.Fails args out := by
  refine ⟨fun h => ?_, fun h => h.faults hb⟩
  rcases b.behaviour_cases args with ⟨out', hf⟩ | ⟨out', hf⟩ | hd
  · exact absurd h ((hf.halts hb).not_faultsOnAddress rfl)
  · rwa [h.unique rfl (hf.faults hb)]
  · exact absurd (hd.runsForever hb) h.not_runsForever

theorem runsForever_iff (hb : Block.refusal? b.slotTable b = none) :
    (Machine.unlimited b.programCode args).RunsForever ↔ b.Diverges args := by
  refine ⟨fun h => ?_, fun h => h.runsForever hb⟩
  rcases b.behaviour_cases args with ⟨out, hf⟩ | ⟨out, hf⟩ | hd
  · exact absurd h (hf.halts hb).not_runsForever
  · exact absurd h (hf.faults hb).not_runsForever
  · exact hd

/-- **Compiled code behaves as its program does.** On every argument vector, it halts exactly if
the program comes to its end, fails on an address exactly if the program reads an argument that is
not there, and runs for ever exactly if the program does; in the first two cases it has printed
what the program has. -/
theorem compile_preserves_behaviour {a : Assembly} (h : b.compile = .ok a) (args : List Int) :
    (∀ out, (Machine.unlimited a.code args).Halts out ↔ b.Finishes args out) ∧
    (∀ out, (Machine.unlimited a.code args).FaultsOnAddress out ↔ b.Fails args out) ∧
    ((Machine.unlimited a.code args).RunsForever ↔ b.Diverges args) := by
  obtain ⟨hb, hcode, _⟩ := compile_eq_ok h
  rw [hcode]
  exact ⟨fun _ => halts_iff hb, fun _ => faults_iff hb, runsForever_iff hb⟩

/-- A conditional in a loop: squares from an argument down to four, then one, then the argument
again. -/
def countdown : Block :=
  [.assign "n" (.input (.num 0)),
   .loop (.bin .gt (.var "n") (.num 0))
     [.cond (.bin .lt (.var "n") (.num 2)) [.print (.var "n")]
       [.assign "x" (.bin .mul (.var "n") (.var "n")), .print (.var "x")],
      .assign "n" (.bin .sub (.var "n") (.num 1))],
   .print (.input (.var "n"))]

theorem countdown_behaviour : ∃ a, countdown.compile = .ok a ∧
    (Machine.unlimited a.code [3]).Halts [9, 4, 1, 3] ∧ countdown.Finishes [3] [9, 4, 1, 3] ∧
    (Machine.unlimited a.code []).FaultsOnAddress [] ∧ countdown.Fails [] [] := by
  obtain ⟨a, ha⟩ : ∃ a, countdown.compile = .ok a := ⟨_, rfl⟩
  have hcode : a.code = countdown.programCode := (compile_eq_ok ha).2.1
  have hhalts : (Machine.unlimited a.code [3]).Halts [9, 4, 1, 3] := by
    rw [hcode]
    exact ⟨100, _, rfl, rfl⟩
  have hfaults : (Machine.unlimited a.code []).FaultsOnAddress [] := by
    rw [hcode]
    exact ⟨10, _, _, rfl, rfl, rfl⟩
  have h := compile_preserves_behaviour ha
  exact ⟨a, ha, hhalts, ((h [3]).1 _).1 hhalts, hfaults, ((h []).2.1 _).1 hfaults⟩

end Block

end WhileLang
