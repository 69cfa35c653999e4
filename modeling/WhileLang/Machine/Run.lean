import WhileLang.Machine.Exec

/-!
# Running code

The machine fetches the instruction at the program counter, executes it and goes on where the
instruction says, until it stops or fails. Before it fetches, the program counter must lie in
the code, and fewer steps must have been taken than the limit allows.

* `Machine.step`: one step.
* `Machine.runFor`: steps up to a given number; `Machine.run`: a whole run from the first
  instruction on. A step limit bounds the run by itself; without one the number of steps is
  bounded by the caller's patience, and a run that outlasts it is `unfinished`.
* `Machine.event?`, `Machine.events`: what a run reports to a trace, one event for each
  instruction that is executed.
-/

namespace WhileLang

/-- A machine with the code and the arguments of a program. -/
structure Machine extends Setting where
  /-- The code. -/
  code : List Instr
  /-- How many steps may be taken; none is no limit. -/
  stepLimit : Option CountLimit := none
deriving Repr

/-- The result of one step, with the state that it leaves. -/
inductive StepResult where
  | running (state : State)
  | stopped (state : State)
  | failed (failure : Failure) (state : State)
deriving DecidableEq, Repr

/-- How a run ended. -/
inductive Outcome where
  | halted
  | failed (failure : Failure)
  /-- The machine was still running when patience ended. -/
  | unfinished
deriving DecidableEq, Repr

/-- An instruction on the point of being executed, and the operand stack before it. -/
structure Event where
  /-- The position of the instruction. -/
  pc : Int
  /-- The instruction. -/
  instr : Instr
  /-- The operand stack, topmost value first. -/
  stack : List Int
deriving DecidableEq, Repr

/-- The plain wording of an event. -/
def Event.message (e : Event) : String :=
  "Executing " ++ Text.padLeft 4 (toString e.pc) ++ " " ++ e.instr.text

/-- What is reported when a run has stopped. -/
def haltMessage (s : State) : String :=
  "Halted after " ++ toString s.steps ++ " steps"

namespace Machine

/-- The instruction at a position. -/
def instrAt? (m : Machine) (pc : Int) : Option Instr :=
  if pc < 0 then none else m.code[pc.toNat]?

/-- The step limit, if it is used up. -/
def exhausted (m : Machine) (s : State) : Option CountLimit :=
  m.stepLimit.filter (·.count ≤ s.steps)

/-- The next instruction, or why none may be executed. -/
def fetch (m : Machine) (s : State) : Except Failure Instr :=
  match m.instrAt? s.pc with
  | none => .error ⟨.pcOutside m.code.length, s.pc, none⟩
  | some instr =>
    match m.exhausted s with
    | some limit => .error ⟨.stepLimit limit, s.pc, some instr⟩
    | none => .ok instr

/-- One step. A machine that has stopped stays as it is. -/
def step (m : Machine) (s : State) : StepResult :=
  if s.halted then .stopped s else
  match m.fetch s with
  | .error failure => .failed failure s
  | .ok instr =>
    match instr.exec m.toSetting s with
    | .fault fault s' => .failed ⟨fault, s.pc, some instr⟩ s'
    | .done .halt s' => .stopped { s' with steps := s'.steps + 1, halted := true }
    | .done (.advance offset) s' =>
      .running { s' with steps := s'.steps + 1, pc := s'.pc + offset }

/-- Executes the instruction at the program counter, which may count from either end of the code,
without a step being taken: nothing is checked or counted, and the program counter stays. -/
def execHere (m : Machine) (s : State) : Option (Instr × ExecResult) :=
  ((position? m.code.length s.pc).bind (m.code[·]?)).map fun instr =>
    (instr, instr.exec m.toSetting s)

/-- At most a given number of steps. -/
def runFor (m : Machine) : Nat → State → Outcome × State
  | 0, s => (.unfinished, s)
  | n + 1, s =>
    match m.step s with
    | .running s' => runFor m n s'
    | .stopped s' => (.halted, s')
    | .failed failure s' => (.failed failure, s')

/-- How many steps a run may try: one more than the limit leaves, since the step that exceeds it
fails; without a limit, as many as the caller has patience for. -/
def allowance (m : Machine) (patience : Nat) (s : State) : Nat :=
  match m.stepLimit with
  | some limit => (limit.count - s.steps).toNat + 1
  | none => patience

/-- A run from the first instruction on. -/
def run (m : Machine) (patience : Nat) (s : State) : Outcome × State :=
  m.runFor (m.allowance patience s) { s with pc := 0 }

/-- What the next step reports. -/
def event? (m : Machine) (s : State) : Option Event :=
  if s.halted then none else
  match m.fetch s with
  | .error _ => none
  | .ok instr => some ⟨s.pc, instr, s.stack⟩

/-- What at most a given number of steps report. -/
def events (m : Machine) : Nat → State → List Event
  | 0, _ => []
  | n + 1, s =>
    (m.event? s).toList ++
      match m.step s with
      | .running s' => events m n s'
      | _ => []

/-- What a run from the first instruction on reports before it ends. -/
def runEvents (m : Machine) (patience : Nat) (s : State) : List Event :=
  m.events (m.allowance patience s) { s with pc := 0 }

end Machine

end WhileLang
