import WhileLang.Log.Trace
import WhileLang.Text.Alphanumeric
import WhileLang.Text.Digit
import WhileLang.Text.Quoted

/-!
# Line formats

A handler writes a record as a line of a trace, or as a format says. In a format, `%%` is a
percent sign, and a directive such as `%(message)s` or `%(levelname)-8s` asks for a field of the
record. After the field's name in parentheses a directive may have flags, a least width and a
greatest length; the letter at its end says whether the field is written as it is, in quotes, or
in quotes without any character beyond ASCII.

A text is taken for a format if it holds anything that looks like a directive. Whether it can be
applied shows only then: a format with a part that means nothing writes nothing.

* `LineFormat`: a way to write records.
* `LineFormat.read?`: the format that a text describes.
* `LineFormat.line?`: a record as a line.
-/

namespace WhileLang

namespace Format

/-- The fields of a record that a format may ask for. -/
inductive Field where
  | message
  | levelName
deriving DecidableEq, Repr

/-- The field with a given name. -/
def Field.ofName? (name : List Char) : Option Field :=
  if name = "message".toList then some .message
  else if name = "levelname".toList then some .levelName
  else none

/-- How a field is written. -/
inductive Form where
  /-- As it is. -/
  | plain
  /-- In quotes. -/
  | quoted
  /-- In quotes and in ASCII. -/
  | ascii
deriving DecidableEq, Repr

/-- The form that a letter stands for. -/
def Form.ofLetter? : Char → Option Form
  | 's' => some plain
  | 'r' => some quoted
  | 'a' => some ascii
  | _ => none

/-- A text in a form. -/
def Form.apply (form : Form) (s : String) : String :=
  match form with
  | plain => s
  | quoted => Text.quote s
  | ascii =>
    String.ofList ((Text.quote s).toList.flatMap fun c =>
      if c.toNat < 0x80 then [c] else Text.codePointEscape c)

/-- A piece of a format. -/
inductive Part where
  /-- A character that stands for itself. -/
  | char (c : Char)
  /-- A field of the record, cut to a length and filled to a width, on its left or right. -/
  | field (field : Field) (form : Form) (length : Option Nat) (width : Nat) (toLeft : Bool)
deriving DecidableEq, Repr

/-- The characters that may stand between a field's name and its width. -/
def isFlag (c : Char) : Bool :=
  c == '#' || c == '0' || c == '-' || c == ' ' || c == '+'

/-- The number that digits write. -/
def natOf (cs : List Char) : Nat :=
  cs.foldl (fun n c => 10 * n + (c.toNat - '0'.toNat)) 0

/-- The widest field that can be written. -/
def maxWidth : Nat := 1000000000

/-- Reads the rest of a directive behind the percent sign and the parenthesis; also gives what
comes after it. -/
def readField? (cs : List Char) : Option (Part × List Char) := do
  let name := cs.takeWhile (· ≠ ')')
  let field ← Field.ofName? name
  let cs := cs.drop (name.length + 1)
  let flags := cs.takeWhile isFlag
  let cs := cs.drop flags.length
  let width := cs.takeWhile Char.isDigit
  let cs := cs.drop width.length
  let (length, cs) := match cs with
    | '.' :: cs =>
      let digits := cs.takeWhile Char.isDigit
      (some (natOf digits), cs.drop digits.length)
    | cs => (none, cs)
  let cs := match cs with
    | 'h' :: cs | 'l' :: cs | 'L' :: cs => cs
    | cs => cs
  match cs with
  | [] => none
  | letter :: cs =>
    let form ← Form.ofLetter? letter
    if natOf width ≤ maxWidth && length.all (· ≤ maxWidth) then
      some (.field field form length (natOf width) (flags.contains '-'), cs)
    else none

/-- The pieces of a format, if all of it means something. -/
def readParts? : List Char → Option (List Part)
  | [] => some []
  | '%' :: '%' :: cs => (readParts? cs).map (.char '%' :: ·)
  | '%' :: '(' :: cs =>
    match readField? cs with
    | none => none
    | some (part, rest) =>
      if _h : rest.length < cs.length + 2 then (readParts? rest).map (part :: ·) else none
  | '%' :: _ => none
  | c :: cs => (readParts? cs).map (.char c :: ·)
termination_by cs => cs.length

/-- Whether a character may stand in a name. -/
def isNameChar (c : Char) : Bool :=
  Text.isAlphanumeric c || c == '_'

/-- Whether a character may end what looks like a directive. Small and capital letters count
alike, and so do the dotted capital i, the dotless i and the long s. -/
def isEndChar (c : Char) : Bool :=
  "diouxefgcrsa%İıſ".toList.contains c.toLower

/-- The characters without a number or a star in front. -/
def dropNumber : List Char → Option (List Char)
  | '*' :: cs => some cs
  | cs =>
    let rest := cs.dropWhile (Text.digitValue? · |>.isSome)
    if rest.length < cs.length then some rest else none

/-- Whether characters begin with what looks like the rest of a directive behind the percent sign
and the parenthesis. -/
def looksLikeField (cs : List Char) : Bool :=
  let afterName := cs.dropWhile isNameChar
  if afterName.length = cs.length then false else
    match afterName with
    | ')' :: cs =>
      let cs := cs.dropWhile isFlag
      let cs := (dropNumber cs).getD cs
      let cs := match cs with
        | '.' :: afterDot => (dropNumber afterDot).getD cs
        | cs => cs
      match cs with
      | [] => false
      | c :: _ => isEndChar c
    | _ => false

/-- Whether something in a text looks like a directive. -/
def looksLikeFormat : List Char → Bool
  | [] => false
  | '%' :: '(' :: cs => looksLikeField cs || looksLikeFormat ('(' :: cs)
  | _ :: cs => looksLikeFormat cs

/-- A piece in writing. -/
def Part.text (level : Level) (message : String) : Part → String
  | char c => c.toString
  | field f form length width toLeft =>
    let whole := form.apply (match f with
      | .message => message
      | .levelName => level.name)
    let cut := match length with
      | some n => (whole.take n).toString
      | none => whole
    if toLeft then Text.padRight width cut else Text.padLeft width cut

end Format

/-- How a handler writes a record. -/
inductive LineFormat where
  /-- As a line of a trace. -/
  | trace
  /-- As a text says. -/
  | custom (format : String)
deriving DecidableEq, Repr

namespace LineFormat

/-- The format that a text describes; the empty one asks for the message. -/
def read? (s : String) : Option LineFormat :=
  if s = "" then some (custom "%(message)s")
  else if Format.looksLikeFormat s.toList then some (custom s)
  else none

/-- A record as a line, if the format can be applied. -/
def line? (f : LineFormat) (level : Level) (r : LogRecord) : Option String :=
  match f with
  | trace => some (r.trace true)
  | custom format =>
    (Format.readParts? format.toList).map fun parts =>
      String.join (parts.map (·.text level r.message))

end LineFormat

end WhileLang
