import WhileLang.Text.Printable

/-!
# Quoted text

Messages show a name between quotes, in a form that keeps every character visible on one line.
Single quotes are used unless the text holds a single quote and no double quote. The quote in
use and the backslash are escaped, line feed, carriage return and tab have short escapes, and a
character that is not printable is written by its code point in lower-case hexadecimal, in the
shortest of the forms `\xNN`, `\uNNNN` and `\UNNNNNNNN`.

* `quote`: the quoted form of a text.
-/

namespace WhileLang.Text

/-- A number in lower-case hexadecimal, filled with zeros to `width` digits. -/
def hexPadded (width n : Nat) : List Char :=
  let digits := Nat.toDigits 16 n
  List.replicate (width - digits.length) '0' ++ digits

/-- The escape that gives a character by its code point. -/
def codePointEscape (c : Char) : List Char :=
  let n := c.toNat
  if n < 0x100 then '\\' :: 'x' :: hexPadded 2 n
  else if n < 0x10000 then '\\' :: 'u' :: hexPadded 4 n
  else '\\' :: 'U' :: hexPadded 8 n

/-- How a character is written between the quotes `q`. -/
def quoteChar (q c : Char) : List Char :=
  if c = q ∨ c = '\\' then ['\\', c]
  else if c = '\n' then ['\\', 'n']
  else if c = '\r' then ['\\', 'r']
  else if c = '\t' then ['\\', 't']
  else if isPrintable c then [c]
  else codePointEscape c

/-- The quote that needs fewest escapes; of the two, the single quote first. -/
def quoteMark (cs : List Char) : Char :=
  if '\'' ∈ cs ∧ '"' ∉ cs then '"' else '\''

/-- The quoted form of a text. -/
def quote (s : String) : String :=
  let q := quoteMark s.toList
  String.ofList (q :: s.toList.flatMap (quoteChar q) ++ [q])

end WhileLang.Text
