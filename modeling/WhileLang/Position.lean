import WhileLang.Number.Word

/-!
# Positions counted from either end

A position in a row of cells may be given by its distance from the front, or as a negative
number that counts back from the end: `-1` is the last cell.

* `position?`: the distance from the front that an integer means, if it means a cell at all.
* `NoCell`: why it means none.
-/

namespace WhileLang

/-- The distance from the front that `i` means in a row of `length` cells. -/
def position? (length : Nat) (i : Int) : Option Nat :=
  if 0 ≤ i then
    if i < length then some i.toNat else none
  else
    if -(length : Int) ≤ i then some (i + length).toNat else none

/-- Why an integer means no cell. -/
inductive NoCell where
  /-- It leads out of the row. -/
  | outside
  /-- It is not a word, so it is no position in any row. -/
  | wide
deriving DecidableEq, Repr

/-- Why `i`, which means no cell, does not. -/
def NoCell.of (i : Int) : NoCell :=
  if Word.IsWord i then outside else wide

/-- The wording of the cause, given the one for an integer that leads out of the row. -/
def NoCell.message (leadsOut : String) : NoCell → String
  | outside => leadsOut
  | wide => "cannot fit 'int' into an index-sized integer"

theorem lt_of_position?_eq_some {length : Nat} {i : Int} {n : Nat}
    (h : position? length i = some n) : n < length := by
  unfold position? at h
  split at h <;> split at h <;> simp only [Option.some.injEq, reduceCtorEq] at h <;> omega

theorem position?_eq_none_iff {length : Nat} {i : Int} :
    position? length i = none ↔ i < -(length : Int) ∨ (length : Int) ≤ i := by
  unfold position?
  split <;> split <;> simp only [reduceCtorEq, true_iff, false_iff] <;> omega

end WhileLang
