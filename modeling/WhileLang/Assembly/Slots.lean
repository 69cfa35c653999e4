import WhileLang.Program.Basic

/-!
# Slots

Every variable that a program assigns has a slot of its own for the whole program. Slots are
numbered in the order of the first assignment in the text, where the block taken on a nonzero
test comes before the other one.

* `Stmt.targets`, `Block.targets`: the assigned names in the order of the text.
* `addSlot`, `addSlots`: a slot table with names added that it does not hold yet; the slot of a
  name is its position in the table.
* `SlotMap`: slots by name, with a counter for the next one; `Stmt.assignSlots`,
  `Block.assignSlots`: the map after a program, which is gone through block by block.
-/

namespace WhileLang

mutual

/-- The names that a statement assigns, in the order of the text. -/
def Stmt.targets : Stmt → List String
  | .assign x _ => [x]
  | .print _ => []
  | .cond _ b o => Block.targets b ++ Block.targets o
  | .loop _ b => Block.targets b
  | .stray _ => []

/-- The names that a block assigns, in the order of the text. -/
def Block.targets : Block → List String
  | [] => []
  | s :: rest => s.targets ++ Block.targets rest

end

/-- The table with a name added at the end, unless the table holds it. -/
def addSlot (slots : List String) (name : String) : List String :=
  if name ∈ slots then slots else slots ++ [name]

/-- The table with names added one after the other. -/
def addSlots (slots names : List String) : List String :=
  names.foldl addSlot slots

/-- Slots by name, and a counter. -/
structure SlotMap where
  /-- The names that have a slot, each with its slot. -/
  entries : List (String × Nat) := []
  /-- The next slot. -/
  next : Nat := 0
deriving DecidableEq, Repr

namespace SlotMap

/-- The slot of a name. -/
def slotOf? (m : SlotMap) (name : String) : Option Nat :=
  m.entries.lookup name

/-- Gives a name the next slot, unless it has one. -/
def assign (m : SlotMap) (name : String) : SlotMap :=
  if (m.slotOf? name).isSome then m else
    { entries := m.entries ++ [(name, m.next)], next := m.next + 1 }

end SlotMap

mutual

/-- The map after a statement. -/
def Stmt.assignSlots : Stmt → SlotMap → SlotMap
  | .assign x _, m => m.assign x
  | .print _, m => m
  | .cond _ b o, m => Block.assignSlots o (Block.assignSlots b m)
  | .loop _ b, m => Block.assignSlots b m
  | .stray _, m => m

/-- The map after a block. -/
def Block.assignSlots : Block → SlotMap → SlotMap
  | [], m => m
  | s :: rest, m => Block.assignSlots rest (s.assignSlots m)

end

end WhileLang
