import WhileLang.Text.Blank
import WhileLang.Text.Digit
import WhileLang.Text.Quoted

/-!
# Integers from text

A numeral is an integer written in decimal: white space around it, one sign, and digits of any
script, with single underscores allowed between digits. Its digits are limited in number, as
reading and writing many takes long; too many of them are refused before anything behind them is
looked at.

* `Numeral.maxDigits`: how many digits a numeral may have.
* `Numeral.read`: the integer that a text denotes.
* `Numeral.isWritable`: the integers that can be written; `Numeral.tooWide`: what is said of others.
* `NotInteger`: why something given for an integer is none.
-/

namespace WhileLang

namespace Numeral

open Text

/-- Reads the rest of a row of digits, of which `n` has been read: each digit may follow one
underscore. -/
def readDigits? : List Char → Nat → Option Nat
  | [], n => some n
  | '_' :: c :: cs, n => (digitValue? c).bind fun d => readDigits? cs (10 * n + d)
  | c :: cs, n => (digitValue? c).bind fun d => readDigits? cs (10 * n + d)

/-- Reads a row of digits that begins with a digit. -/
def readNat? : List Char → Option Nat
  | [] => none
  | c :: cs => (digitValue? c).bind fun d => readDigits? cs d

/-- Whether a character may stand in a row of digits. -/
def isDigitOrMark (c : Char) : Bool :=
  c == '_' || (digitValue? c).isSome

/-- How many digits a numeral may have. -/
def maxDigits : Nat := 4300

/-- The least natural number with more than `maxDigits` digits. -/
def bound : Nat := Nat.pow 10 maxDigits

/-- Whether an integer can be written with at most `maxDigits` digits. -/
def isWritable (n : Int) : Bool :=
  n.natAbs < bound

/-- What is said instead of a text in which an integer cannot be written. -/
def tooWide : String :=
  "Exceeds the limit (" ++ toString maxDigits ++ " digits) for integer string conversion; " ++
    "use sys.set_int_max_str_digits() to increase the limit"

end Numeral

/-- Why a value given for an integer is none. -/
inductive NotInteger where
  /-- The text is no numeral. -/
  | text (s : String)
  /-- The text has too many digits. -/
  | tooLong (digits : Nat)
  /-- The value is of a kind that never denotes an integer. -/
  | kind (name : String)
  /-- The number is too large for any finite value. -/
  | infinite
deriving DecidableEq, Repr

namespace NotInteger

/-- How much of a text is shown. -/
def shownLength : Nat := 200

/-- The wording of the error. -/
def message : NotInteger → String
  | text s =>
    "invalid literal for int() with base 10: " ++ ((Text.quote s).take shownLength).toString
  | tooLong digits =>
    "Exceeds the limit (" ++ toString Numeral.maxDigits ++
      " digits) for integer string conversion: value has " ++ toString digits ++
      " digits; use sys.set_int_max_str_digits() to increase the limit"
  | kind name =>
    "int() argument must be a string, a bytes-like object or a real number, not '" ++ name ++ "'"
  | infinite => "cannot convert float infinity to integer"

end NotInteger

namespace Numeral

/-- The natural number that characters denote, or why the text `s` that they are from has none. -/
def readMagnitude (s : String) (cs : List Char) : Except NotInteger Nat :=
  let row := cs.takeWhile isDigitOrMark
  match readNat? row with
  | none => .error (.text s)
  | some n =>
    let digits := row.countP (· ≠ '_')
    if maxDigits < digits then .error (.tooLong digits)
    else if row.length < cs.length then .error (.text s)
    else .ok n

/-- The integer that a text denotes, or why there is none. -/
def read (s : String) : Except NotInteger Int :=
  match Text.trim Text.isWhite s.toList with
  | '-' :: cs => (readMagnitude s cs).map fun n => -(n : Int)
  | '+' :: cs => (readMagnitude s cs).map Int.ofNat
  | cs => (readMagnitude s cs).map Int.ofNat

end Numeral

end WhileLang
