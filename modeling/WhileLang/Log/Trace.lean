import WhileLang.Log.Line
import WhileLang.Machine.Run

/-!
# Trace lines

A trace shows each executed instruction in the columns of the code listing, followed by the
operand stack. A record that is not about an instruction is shown by its message.

* `LogRecord`: a message, and the fields of the step that it reports if there is one.
* `LogRecord.trace`: the record as a line of a trace.
* `Machine.records`: what a run reports; `Machine.trace`: the same as the text of a trace.
-/

namespace WhileLang

/-- What is reported. -/
structure LogRecord where
  /-- The message. -/
  message : String
  /-- The position of the instruction. -/
  pc : Option Int := none
  /-- The instruction in writing. -/
  instr : Option String := none
  /-- The operand stack, topmost value last. -/
  stack : Option (List Int) := none
deriving DecidableEq, Repr

/-- How many characters a trace line has in front of the operand stack. -/
def stackColumn : Nat := 28

/-- The record as a line of a trace. -/
def LogRecord.trace (r : LogRecord) (showStack : Bool) : String :=
  match r.pc with
  | none => r.message
  | some pc =>
    let line := Text.padLeft 4 (toString pc) ++ "  " ++ r.instr.getD "?"
    match showStack, r.stack with
    | true, some stack => Text.padRight stackColumn line ++ "stack=" ++ Text.bracketed stack
    | _, _ => line

/-- The record of an instruction on the point of being executed. -/
def Event.record (e : Event) : LogRecord :=
  { message := e.message, pc := some e.pc, instr := some e.instr.text
    stack := some e.stack.reverse }

/-- What is reported after the last step of a run. -/
def Outcome.records (o : Outcome) (s : State) : List LogRecord :=
  match o with
  | .halted => [{ message := haltMessage s }]
  | _ => []

namespace Machine

/-- What a run reports, in order. -/
def records (m : Machine) (patience : Nat) (s : State) : List LogRecord :=
  let (outcome, s') := m.run patience s
  (m.runEvents patience s).map Event.record ++ outcome.records s'

/-- The trace of a run. -/
def trace (m : Machine) (patience : Nat) (s : State) : String :=
  String.join ((m.records patience s).map fun r => r.trace true ++ "\n")

end Machine

end WhileLang
