import WhileLang.Machine.Fault
import WhileLang.Position

/-!
# The machine's state, and what each instruction does to it

The state holds an operand stack and a row of locals. Frames lie in the locals back to back:
opening one saves the frame pointer in a cell of its own, and the new frame begins behind it.

A slot is checked against the upper end of the locals only. Code that closes a frame which it
did not open can load any integer into the frame pointer; a slot then may name a cell counted
from the end, or none.

A frame of a negative size has no slots. If the size is too far below zero to be a word, or above
the greatest size that a frame may have, the machine fails when the frame pointer is saved
already.

* `State`: the state of the machine.
* `Setting`: what an instruction may use besides the state.
* `Instr.exec`: the effect of one instruction, with the state that it leaves in every case.
-/

namespace WhileLang

/-- The state of the machine. -/
structure State where
  /-- The position of the next instruction. -/
  pc : Int := 0
  /-- The position of the open frame's first slot in `locals`. -/
  fp : Int := 0
  /-- How many instructions have been executed. -/
  steps : Int := 0
  /-- Whether the machine has stopped. -/
  halted : Bool := false
  /-- The operand stack, topmost value first. -/
  stack : List Int := []
  /-- All frames, the oldest first. -/
  locals : List Int := []
  /-- The printed values, in order. -/
  output : List Int := []
  /-- What the printer has received, in order. -/
  printed : List Int := []
deriving DecidableEq, Repr

namespace State

/-- The state with a value pushed on the operand stack. -/
def push (s : State) (v : Int) : State :=
  { s with stack := v :: s.stack }

/-- The program counter and the operand stack, for a diagnosis. -/
def dump (s : State) : String :=
  "pc = " ++ toString s.pc ++ "\nstack = " ++ Text.bracketed s.stack.reverse

end State

/-- Where the machine goes on after an instruction. -/
inductive Effect where
  /-- At a distance from the instruction. -/
  | advance (offset : Int)
  /-- Nowhere: it stops. -/
  | halt
deriving DecidableEq, Repr

/-- The result of one instruction, with the state that it leaves. -/
inductive ExecResult where
  | done (effect : Effect) (state : State)
  | fault (fault : Fault) (state : State)
deriving DecidableEq, Repr

/-- A slot's cell, as a position in the locals: the slot must be there in the open frame as far
as its upper end tells. -/
def State.cell (s : State) (slot : Int) : Except Fault Int :=
  if slot < 0 ∨ s.locals.length ≤ s.fp + slot then
    .error (.badSlot slot s.fp s.locals.length)
  else
    .ok (s.fp + slot)

/-- The argument at a position. -/
def argument? (args : List Int) (index : Int) : Option Int :=
  if index < 0 then none else args[index.toNat]?

/-- What a program runs with. -/
structure Setting where
  /-- The program arguments; they are integers of any size. -/
  args : List Int := []
  /-- The greatest number of slots that a frame may have; none is no limit. -/
  frameLimit : Option Int := none
deriving DecidableEq, Repr

/-- Whether a frame of a given size can be opened. -/
def Setting.admits (setting : Setting) (count : Int) : Bool :=
  Word.least ≤ count && setting.frameLimit.all (count ≤ ·)

/-- The state with the frame pointer saved and a new frame begun, which has no slots yet. -/
def State.saveFrame (s : State) : State :=
  { s with locals := s.locals ++ [s.fp], fp := s.locals.length + 1 }

namespace Instr

/-- What an instruction does in a setting. -/
def exec (setting : Setting) (s : State) : Instr → ExecResult
  | halt => .done .halt s
  | literal n => .done (.advance 1) (s.push (Word.wrap n))
  | binary op =>
    match s.stack with
    | right :: left :: rest =>
      .done (.advance 1) { s with stack := op.eval left right :: rest }
    | [_] => .fault .stackUnderflow { s with stack := [] }
    | [] => .fault .stackUnderflow s
  | print =>
    match s.stack with
    | v :: rest =>
      .done (.advance 1)
        { s with stack := rest, output := s.output ++ [v], printed := s.printed ++ [v] }
    | [] => .fault .stackUnderflow s
  | enter count =>
    let opened := s.saveFrame
    if setting.admits count then
      .done (.advance 1) { opened with locals := opened.locals ++ List.replicate count.toNat 0 }
    else .fault (.frameSize count) opened
  | exit count =>
    if count < 0 ∨ s.locals.length < count + 1 then
      .fault (.frameUnderflow count s.locals.length) s
    else
      let saved := s.locals.length - (count.toNat + 1)
      .done (.advance 1) { s with fp := s.locals.getD saved 0, locals := s.locals.take saved }
  | getLocal slot =>
    match s.cell slot with
    | .error f => .fault f s
    | .ok index =>
      match (position? s.locals.length index).bind (s.locals[·]?) with
      | some v => .done (.advance 1) (s.push v)
      | none => .fault (.missingCell .read (.of index)) s
  | setLocal slot =>
    match s.cell slot with
    | .error f => .fault f s
    | .ok index =>
      match s.stack with
      | [] => .fault .stackUnderflow s
      | v :: rest =>
        match position? s.locals.length index with
        | some n => .done (.advance 1) { s with stack := rest, locals := s.locals.set n v }
        | none => .fault (.missingCell .write (.of index)) { s with stack := rest }
  | inputRead =>
    match s.stack with
    | [] => .fault .stackUnderflow s
    | index :: rest =>
      match argument? setting.args index with
      | some v => .done (.advance 1) { s with stack := v :: rest }
      | none => .fault (.badArgument index setting.args.length) { s with stack := rest }
  | branch offset => .done (.advance offset) s
  | branchIfZero offset =>
    match s.stack with
    | [] => .fault .stackUnderflow s
    | v :: rest => .done (.advance (if v = 0 then offset else 1)) { s with stack := rest }

end Instr

end WhileLang
