/-!
# Blank characters

Two classes of white space. Around a numeral stands white space in Unicode's sense; around a
name the four information separators `U+001C` to `U+001F` count as blanks too.

* `isWhite`, `isBlank`: the two classes.
* `trim`: a list of characters without a class at its two ends.
* `strip`: a text without the blanks at its two ends.
-/

namespace WhileLang.Text

/-- White space in Unicode's sense. -/
def isWhite (c : Char) : Bool :=
  let n := c.toNat
  (0x09 ≤ n && n ≤ 0x0D) || n == 0x20 || n == 0x85 || n == 0xA0 || n == 0x1680 ||
    (0x2000 ≤ n && n ≤ 0x200A) || n == 0x2028 || n == 0x2029 || n == 0x202F || n == 0x205F ||
    n == 0x3000

/-- White space, and the information separators. -/
def isBlank (c : Char) : Bool :=
  isWhite c || (0x1C ≤ c.toNat && c.toNat ≤ 0x1F)

/-- The characters without those of the class `p` in front and behind. -/
def trim (p : Char → Bool) (cs : List Char) : List Char :=
  ((cs.dropWhile p).reverse.dropWhile p).reverse

/-- The text without the blanks in front and behind. -/
def strip (s : String) : String :=
  String.ofList (trim isBlank s.toList)

end WhileLang.Text
