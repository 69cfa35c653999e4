import WhileLang.Machine.Instr
import WhileLang.Position

/-!
# Faults

What can go wrong while the machine runs, and where. A failure tells the integers that it is about;
if one of them cannot be written, that is what the failure is about instead.

* `Fault`: the causes; `Fault.hasPlace`: whether the place is told with it.
* `Failure`: a fault with the place where it happened; `Failure.message` is its wording.
* `Failure.isWritable`: whether all integers that the wording shows can be written.
-/

namespace WhileLang

/-- The two ways to use a cell. -/
inductive Access where
  | read
  | write
deriving DecidableEq, Repr

/-- How often something may be done, and how that was written. -/
structure CountLimit where
  /-- The number. -/
  count : Int
  /-- How it was written. -/
  text : String := toString count
deriving DecidableEq, Repr

/-- Why the machine cannot go on. -/
inductive Fault where
  /-- A value is needed and the operand stack is empty. -/
  | stackUnderflow
  /-- A frame of `count` slots is to be closed and there are too few locals. -/
  | frameUnderflow (count : Int) (locals : Nat)
  /-- The slot does not lie in the open frame. -/
  | badSlot (slot fp : Int) (locals : Nat)
  /-- There is no program argument at the position. -/
  | badArgument (index : Int) (arguments : Nat)
  /-- The program counter has left the code. -/
  | pcOutside (length : Nat)
  /-- The allowed number of steps has been taken. -/
  | stepLimit (limit : CountLimit)
  /-- The frame pointer has gone astray so far that the slot names no cell at all. -/
  | missingCell (access : Access) (cause : NoCell)
  /-- No frame can have that many slots. -/
  | frameSize (count : Int)
deriving DecidableEq, Repr

/-- The wording of the cause. -/
def Fault.message : Fault → String
  | stackUnderflow => "operand stack underflow"
  | frameUnderflow count locals =>
    "cannot release " ++ toString count ++ " slots from " ++ toString locals ++ " locals"
  | badSlot slot fp locals =>
    "local slot " ++ toString slot ++ " outside frame (fp=" ++ toString fp ++ ", locals=" ++
      toString locals ++ ")"
  | badArgument index arguments =>
    "argument index " ++ toString index ++ " out of range (" ++ toString arguments ++
      " arguments)"
  | pcOutside length => "program counter outside code (length " ++ toString length ++ ")"
  | stepLimit limit => "step limit of " ++ limit.text ++ " exhausted"
  | missingCell .read cause => cause.message "list index out of range"
  | missingCell .write cause => cause.message "list assignment index out of range"
  | frameSize count => if Word.IsWord count then "" else NoCell.wide.message ""

/-- A fault and where it happened. -/
structure Failure where
  /-- The cause. -/
  fault : Fault
  /-- The program counter at that moment. -/
  pc : Int
  /-- The instruction that was to be executed, if there was one. -/
  instr : Option Instr
deriving DecidableEq, Repr

/-- Whether a fault is reported with the place where it happened; one about the memory of the
machine itself is not. -/
def Fault.hasPlace : Fault → Bool
  | missingCell .. | frameSize _ => false
  | _ => true

/-- The integers in the wording of the cause; lengths are not among them, since no list is so long
that its length cannot be written. -/
def Fault.numbers : Fault → List Int
  | frameUnderflow count _ => [count]
  | badSlot slot fp _ => [slot, fp]
  | badArgument index _ => [index]
  | stepLimit limit => [limit.count]
  | stackUnderflow | pcOutside _ | missingCell .. | frameSize _ => []

namespace Failure

/-- Whether the place of the failure can be written. -/
def placeIsWritable (f : Failure) : Bool :=
  Numeral.isWritable f.pc && f.instr.all Instr.isWritable

/-- Whether all integers that the failure tells can be written. -/
def isWritable (f : Failure) : Bool :=
  f.fault.numbers.all Numeral.isWritable && (!f.fault.hasPlace || f.placeIsWritable)

/-- Where the failure happened, in writing. -/
def place (f : Failure) : String :=
  match f.instr with
  | none => " at pc=" ++ toString f.pc
  | some i => " at pc=" ++ toString f.pc ++ " (" ++ i.text ++ ")"

/-- The wording of the failure: the cause and the place, unless they cannot be written. -/
def message (f : Failure) : String :=
  if f.isWritable then f.fault.message ++ if f.fault.hasPlace then f.place else ""
  else Numeral.tooWide

end Failure

end WhileLang
