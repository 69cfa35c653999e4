/-!
# Text from bytes

UTF-8 writes a character as one byte, or as a leading byte that announces one to three
continuation bytes. After some leading bytes the first continuation byte has a narrower range, so
that no character has two forms and no surrogate has any.

* `Utf8.Opening`: what a leading byte announces.
* `Utf8.decode`: the text of a row of bytes, or the first place where there is none.
* `Utf8.DecodeError`: such a place; `Utf8.DecodeError.message` is its wording.
-/

namespace WhileLang.Utf8

/-- What is wrong with bytes that are no text. -/
inductive Flaw where
  /-- No character begins with the byte. -/
  | start
  /-- The byte after those in question does not continue the character. -/
  | continuation
  /-- The bytes end within a character. -/
  | truncated
deriving DecidableEq, Repr

/-- The wording of the flaw. -/
def Flaw.message : Flaw → String
  | start => "invalid start byte"
  | continuation => "invalid continuation byte"
  | truncated => "unexpected end of data"

/-- The first bytes that are no text. -/
structure DecodeError where
  /-- The position of the first of them. -/
  position : Nat
  /-- How many they are. -/
  count : Nat
  /-- The first of them. -/
  byte : Nat
  /-- What is wrong with them. -/
  flaw : Flaw
deriving DecidableEq, Repr

/-- Two hexadecimal digits of a byte. -/
def hexByte (b : Nat) : String :=
  String.ofList (Nat.toDigits 16 (b / 16) ++ Nat.toDigits 16 (b % 16))

/-- The wording of the error. -/
def DecodeError.message (e : DecodeError) : String :=
  let which :=
    if e.count = 1 then
      "byte 0x" ++ hexByte e.byte ++ " in position " ++ toString e.position
    else
      "bytes in position " ++ toString e.position ++ "-" ++
        toString (e.position + e.count - 1)
  "'utf-8' codec can't decode " ++ which ++ ": " ++ e.flaw.message

/-- A character of which not all bytes have been read. -/
structure Opening where
  /-- How many continuation bytes are missing. -/
  owed : Nat
  /-- The least byte that may follow. -/
  low : Nat := 0x80
  /-- The greatest byte that may follow. -/
  high : Nat := 0xBF
  /-- The bits of the character that have been read. -/
  bits : Nat
deriving DecidableEq, Repr

/-- What a leading byte announces; a byte below `0x80` is a whole character. -/
def opening? (b : Nat) : Option Opening :=
  if b < 0x80 then some { owed := 0, bits := b }
  else if b < 0xC2 then none
  else if b < 0xE0 then some { owed := 1, bits := b - 0xC0 }
  else if b = 0xE0 then some { owed := 2, low := 0xA0, bits := 0 }
  else if b = 0xED then some { owed := 2, high := 0x9F, bits := b - 0xE0 }
  else if b < 0xF0 then some { owed := 2, bits := b - 0xE0 }
  else if b = 0xF0 then some { owed := 3, low := 0x90, bits := 0 }
  else if b < 0xF4 then some { owed := 3, bits := b - 0xF0 }
  else if b = 0xF4 then some { owed := 3, high := 0x8F, bits := b - 0xF0 }
  else none

/-- What is open after a continuation byte. -/
def Opening.continue? (o : Opening) (b : Nat) : Option Opening :=
  if o.low ≤ b ∧ b ≤ o.high then
    some { owed := o.owed - 1, bits := o.bits * 64 + (b - 0x80) }
  else none

/-- Reads bytes from a position on, with the characters before them in reverse. The last argument
but one says what is open, and where it began with which byte. -/
def decodeFrom (before : List Char) (position : Nat) :
    Option (Nat × Nat × Opening) → List UInt8 → Except DecodeError (List Char)
  | none, [] => .ok before.reverse
  | some (start, byte, _), [] => .error ⟨start, position - start, byte, .truncated⟩
  | none, b :: rest =>
    match opening? b.toNat with
    | none => .error ⟨position, 1, b.toNat, .start⟩
    | some o =>
      if o.owed = 0 then decodeFrom (Char.ofNat o.bits :: before) (position + 1) none rest
      else decodeFrom before (position + 1) (some (position, b.toNat, o)) rest
  | some (start, byte, o), b :: rest =>
    match o.continue? b.toNat with
    | none => .error ⟨start, position - start, byte, .continuation⟩
    | some o' =>
      if o'.owed = 0 then decodeFrom (Char.ofNat o'.bits :: before) (position + 1) none rest
      else decodeFrom before (position + 1) (some (start, byte, o')) rest

/-- The text of a row of bytes, or the first bytes that are none. -/
def decode (bytes : List UInt8) : Except DecodeError String :=
  (decodeFrom [] 0 none bytes).map String.ofList

end WhileLang.Utf8
