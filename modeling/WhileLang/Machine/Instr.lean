import WhileLang.Number.Numeral
import WhileLang.Program.Basic
import WhileLang.Text.Column
import WhileLang.Text.Quoted

/-!
# Instructions

The instruction set of the stack machine. An instruction is written as its name, followed by
its operand if it has one; a branch offset always shows its sign.

* `Instr`: the instructions, each with the operand it takes.
* `Instr.ofParts`: the instruction with a given name and operand; `MalformedInstr` says why there
  is none.
* `Instr.text`, `listing`: an instruction and a whole code in writing; `Instr.isWritable`: whether
  the operand does not have too many digits for that.
-/

namespace WhileLang

/-- An instruction. -/
inductive Instr where
  /-- Stops the machine. -/
  | halt
  /-- Pushes an integer, reduced to a word. -/
  | literal (value : Int)
  /-- Replaces the two topmost values by the value of an operator. -/
  | binary (op : BinOp)
  /-- Pops a value and prints it. -/
  | print
  /-- Opens a frame with `count` slots. -/
  | enter (count : Int)
  /-- Closes a frame with `count` slots. -/
  | exit (count : Int)
  /-- Pushes the value of a slot. -/
  | getLocal (slot : Int)
  /-- Pops a value into a slot. -/
  | setLocal (slot : Int)
  /-- Replaces the topmost value by the program argument at that position. -/
  | inputRead
  /-- Goes on at a distance from this instruction. -/
  | branch (offset : Int)
  /-- Pops a value and goes on at a distance from this instruction if it is zero. -/
  | branchIfZero (offset : Int)
deriving DecidableEq, Repr

/-- The name of the instruction that computes an operator. -/
def BinOp.instrName : BinOp → String
  | add => "Add"
  | sub => "Sub"
  | mul => "Mul"
  | lt => "LessThan"
  | gt => "GreaterThan"

/-- Why a name and an operand make no instruction. -/
inductive MalformedInstr where
  /-- No instruction has the name. -/
  | unknownName (name : String)
  /-- The instruction needs an operand and there is none. -/
  | missingOperand (name : String)
  /-- There is an operand and the instruction takes none. -/
  | surplusOperand (name : String)
deriving DecidableEq, Repr

/-- The wording of the error. -/
def MalformedInstr.message : MalformedInstr → String
  | unknownName name => Text.quote name ++ " is not a valid Opcode"
  | missingOperand name => name ++ " requires an operand"
  | surplusOperand name => name ++ " takes no operand"

namespace Instr

/-- The name of the instruction. -/
def name : Instr → String
  | halt => "Halt"
  | literal _ => "Literal"
  | binary op => op.instrName
  | print => "Print"
  | enter _ => "Enter"
  | exit _ => "Exit"
  | getLocal _ => "GetLocal"
  | setLocal _ => "SetLocal"
  | inputRead => "InputRead"
  | branch _ => "Branch"
  | branchIfZero _ => "BranchIfZero"

/-- The operand of the instruction, if it takes one. -/
def operand? : Instr → Option Int
  | literal n | enter n | exit n | getLocal n | setLocal n | branch n | branchIfZero n => some n
  | halt | binary _ | print | inputRead => none

/-- Whether the instruction may go on elsewhere than at the next one. -/
def isBranch : Instr → Bool
  | branch _ | branchIfZero _ => true
  | _ => false

/-- The instructions without an operand. -/
def plain : List Instr :=
  [halt, print, inputRead] ++ BinOp.all.map binary

/-- The instructions with an operand, for a given operand. -/
def parametric (n : Int) : List Instr :=
  [literal n, enter n, exit n, getLocal n, setLocal n, branch n, branchIfZero n]

/-- The instruction with a given name and operand. -/
def ofParts (name : String) (operand : Option Int) : Except MalformedInstr Instr :=
  match plain.find? (·.name == name), operand with
  | some i, none => .ok i
  | some _, some _ => .error (.surplusOperand name)
  | none, operand =>
    match (parametric (operand.getD 0)).find? (·.name == name) with
    | none => .error (.unknownName name)
    | some i => if operand.isSome then .ok i else .error (.missingOperand name)

/-- The same instruction with another operand. -/
def withOperand (i : Instr) (n : Int) : Except MalformedInstr Instr :=
  match i with
  | literal _ => .ok (literal n)
  | enter _ => .ok (enter n)
  | exit _ => .ok (exit n)
  | getLocal _ => .ok (getLocal n)
  | setLocal _ => .ok (setLocal n)
  | branch _ => .ok (branch n)
  | branchIfZero _ => .ok (branchIfZero n)
  | halt | binary _ | print | inputRead => .error (.surplusOperand i.name)

/-- The instruction in writing. -/
def text (i : Instr) : String :=
  match i.operand? with
  | none => i.name
  | some n => i.name ++ " " ++ (if i.isBranch then Text.signed n else toString n)

/-- Whether the operand of the instruction, if it has one, can be written. -/
def isWritable (i : Instr) : Bool :=
  i.operand?.all Numeral.isWritable

end Instr

/-- A code in writing: one instruction on each line, behind its position. -/
def listing (code : List Instr) : String :=
  "\n".intercalate (code.zipIdx.map fun (i, n) =>
    Text.padLeft 4 (toString n) ++ "  " ++ i.text)

end WhileLang
