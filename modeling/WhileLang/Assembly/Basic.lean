import WhileLang.Assembly.Slots
import WhileLang.Machine.Instr
import WhileLang.Position
import WhileLang.Program.Refusal

/-!
# Assembling code

Code is written front to back. A branch to a place that is not known yet is written with offset
zero and settled as soon as its target is known, so code that is broken off by a refusal still
holds such placeholders.

| construct | code |
|---|---|
| variable | `GetLocal slot` |
| integer | `Literal n` |
| operator | left, right, the operator |
| argument | index, `InputRead` |
| assignment | value, `SetLocal slot` |
| print | value, `Print` |
| if | test, `BranchIfZero` to the alternative, body, `Branch` to the end, alternative |
| while | test, `BranchIfZero` to the end, body, `Branch` back to the test |
| program | `Enter n`, block, `Exit n`, `Halt` |

* `Assembly`: the code written so far and the slot table.
* `Assembly.patch`: settles the branch at a position.
* `Asm`: writing that may be refused; what has been written stays.
* `Expr.assemble`, `Stmt.assemble`, `Block.assemble`, `Block.assembleProgram`.
* `Block.compile`: the assembly of a program from scratch.
-/

namespace WhileLang

/-- What is noted about the work, in order. -/
inductive Remark where
  /-- A name got a slot. -/
  | slot (number : Nat) (name : String)
  /-- A branch was settled. -/
  | settled (instr : String) (site target offset : Int)
deriving DecidableEq, Repr

/-- The wording of a remark. -/
def Remark.message : Remark → String
  | slot number name => "assigned slot " ++ toString number ++ " to " ++ name
  | settled instr site target offset =>
    "patched " ++ instr ++ " at " ++ toString site ++ " -> " ++ toString target ++ " (" ++
      Text.signed offset ++ ")"

/-- Code that is being written. -/
structure Assembly where
  /-- The code written so far. -/
  code : List Instr := []
  /-- The assigned names, each at the position that is its slot. -/
  slots : List String := []
  /-- What was noted, in order. -/
  remarks : List Remark := []
deriving DecidableEq, Repr

/-- Why a branch cannot be settled. -/
inductive PatchError where
  /-- There is no instruction at the position. -/
  | noSite (cause : NoCell)
  /-- The instruction there cannot hold an offset. -/
  | malformed (cause : MalformedInstr)
deriving DecidableEq, Repr

/-- The wording of the error. -/
def PatchError.message : PatchError → String
  | noSite cause => cause.message "list index out of range"
  | malformed cause => cause.message

/-- The offset of a branch at `source` that leads to `target`. -/
def branchOffset (source target : Int) : Int :=
  target - source

namespace Assembly

/-- The position of the next instruction to be written. -/
def here (a : Assembly) : Nat :=
  a.code.length

/-- The slot of a name. -/
def slotOf? (a : Assembly) (name : String) : Option Nat :=
  a.slots.idxOf? name

/-- The assembly with one more instruction. -/
def push (a : Assembly) (i : Instr) : Assembly :=
  { a with code := a.code ++ [i] }

/-- Makes the branch at `site`, counted from either end, lead to `target`. -/
def patch (a : Assembly) (site target : Int) : Except PatchError Assembly :=
  match position? a.code.length site with
  | none => .error (.noSite (.of site))
  | some n =>
    match a.code[n]? with
    | none => .error (.noSite (.of site))
    | some i =>
      match i.withOperand (branchOffset site target) with
      | .error cause => .error (.malformed cause)
      | .ok i' =>
        .ok { a with
          code := a.code.set n i'
          remarks := a.remarks ++ [.settled i.name site target (branchOffset site target)] }

/-- Gives a name the next slot, unless it has one. -/
def allocate (a : Assembly) (name : String) : Assembly :=
  if name ∈ a.slots then a else
    { a with
      slots := addSlot a.slots name
      remarks := a.remarks ++ [.slot a.slots.length name] }

/-- Gives slots to all names that a block assigns. -/
def allocateAll (a : Assembly) (b : Block) : Assembly :=
  b.targets.foldl allocate a

end Assembly

/-- Writing code, which may be refused; what has been written stays. -/
abbrev Asm := EStateM Refusal Assembly

namespace Asm

/-- Writes one instruction. -/
def emit (i : Instr) : Asm Unit :=
  modify (·.push i)

/-- The position of the next instruction. -/
def here : Asm Nat :=
  return (← get).here

/-- The slot of a name. -/
def slotOf (name : String) : Asm Nat := do
  match (← get).slotOf? name with
  | some n => return n
  | none => throw (.unresolved name)

/-- Settles a branch that was written before. -/
def settle (site target : Nat) : Asm Unit :=
  modify fun a =>
    match a.patch site target with
    | .ok a' => a'
    | .error _ => a

end Asm

open Asm

/-- Writes the code that pushes the value of an expression. -/
def Expr.assemble : Expr → Asm Unit
  | var name => do
    let slot ← slotOf name
    emit (.getLocal slot)
  | num n => emit (.literal n)
  | bin op l r => do
    l.assemble
    r.assemble
    emit (.binary op)
  | input i => do
    i.assemble
    emit .inputRead
  | stray d => throw (.notExpression d)

mutual

/-- Writes the code of a statement. -/
def Stmt.assemble : Stmt → Asm Unit
  | .assign x e => do
    e.assemble
    let slot ← slotOf x
    emit (.setLocal slot)
  | .print e => do
    e.assemble
    emit .print
  | .cond t b o => do
    t.assemble
    let toElse ← here
    emit (.branchIfZero 0)
    Block.assemble b
    let toEnd ← here
    emit (.branch 0)
    let elseStart ← here
    Block.assemble o
    let elseEnd ← here
    settle toElse elseStart
    settle toEnd elseEnd
  | .loop t b => do
    let start ← here
    t.assemble
    let toEnd ← here
    emit (.branchIfZero 0)
    Block.assemble b
    let back ← here
    emit (.branch 0)
    let finish ← here
    settle toEnd finish
    settle back start
  | .stray d => throw (.notStatement d)

/-- Writes the code of a block. -/
def Block.assemble : Block → Asm Unit
  | [] => return
  | s :: rest => do
    s.assemble
    Block.assemble rest

end

/-- Writes the code of a whole program: slots for all names that it assigns, then the block in a
frame of that size. -/
def Block.assembleProgram (b : Block) : Asm Unit := do
  modify (·.allocateAll b)
  let count := (← get).slots.length
  emit (.enter count)
  Block.assemble b
  emit (.exit count)
  emit .halt

/-- The assembly of a program from scratch. -/
def Block.compile (b : Block) : Except Refusal Assembly :=
  match b.assembleProgram.run {} with
  | .ok _ a => .ok a
  | .error r _ => .error r

end WhileLang
