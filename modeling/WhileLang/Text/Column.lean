/-!
# Columns

Listings and traces line up in columns: a cell shorter than its column is filled with blanks,
and a longer one is left as it is. Widths count characters.

* `padLeft`, `padRight`: fill a cell on one side.
* `signed`: an integer with its sign always written.
* `bracketed`: a row of integers between square brackets.
-/

namespace WhileLang.Text

/-- The text `s`, filled with blanks on the left to `width` characters. -/
def padLeft (width : Nat) (s : String) : String :=
  String.ofList (List.replicate (width - s.length) ' ') ++ s

/-- The text `s`, filled with blanks on the right to `width` characters. -/
def padRight (width : Nat) (s : String) : String :=
  s ++ String.ofList (List.replicate (width - s.length) ' ')

/-- An integer in decimal, with `+` in front of zero and the positive ones. -/
def signed (n : Int) : String :=
  if n < 0 then toString n else "+" ++ toString n

/-- Integers in decimal, separated by a comma and a blank, between square brackets. -/
def bracketed (ns : List Int) : String :=
  "[" ++ ", ".intercalate (ns.map toString) ++ "]"

end WhileLang.Text
