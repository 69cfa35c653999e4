/-!
# Decimal fractions

A number written with a fraction or an exponent stands for the binary floating-point number
nearest to it: 53 significant bits, exponents down to `-1074`, ties to the even neighbour.

* `Decimal`: such a number as written, `± digits · 10 ^ exponent`.
* `Decimal.exact`: its value as written.
* `Decimal.nearest?`: the value it stands for, if that is finite; `Decimal.roundBinary` rounds any
  rational in the same way.
* `Decimal.toRat`: that value, or the exact one beyond the finite range.
-/

namespace WhileLang

/-- The number `digits · 10 ^ exponent`, or its negative. -/
structure Decimal where
  /-- Whether a minus sign stands in front; zero may have one. -/
  negative : Bool := false
  /-- The digits, read as one number. -/
  digits : Nat
  /-- The power of ten that scales the digits. -/
  exponent : Int
deriving DecidableEq, Repr

namespace Decimal

/-- `base` to an integral power. -/
def power (base : Nat) (e : Int) : Rat :=
  if 0 ≤ e then (Nat.pow base e.toNat : Rat) else 1 / (Nat.pow base (-e).toNat : Rat)

/-- The exact value of the digits as written, without the sign. -/
def magnitude (d : Decimal) : Rat :=
  (d.digits : Rat) * power 10 d.exponent

/-- The greatest `k` with `2 ^ k ≤ q`, for a positive `q`. -/
def binaryOrder (q : Rat) : Int :=
  let k := (Nat.log2 q.num.toNat : Int) - (Nat.log2 q.den : Int)
  if q < power 2 k then k - 1 else k

/-- A rational rounded to the nearest integer, a half to the even neighbour. -/
def roundEven (q : Rat) : Int :=
  let below := q.floor
  let rest := q - (below : Rat)
  if rest < 1 / 2 then below
  else if 1 / 2 < rest then below + 1
  else if below % 2 = 0 then below else below + 1

/-- The floating-point number nearest to a non-negative rational; none if it would not be
finite. -/
def roundBinary? (q : Rat) : Option Rat :=
  if q = 0 then some 0 else
    let e := max (-1074) (binaryOrder q - 52)
    let r := (roundEven (q / power 2 e) : Rat) * power 2 e
    if r < power 2 1024 then some r else none

/-- The floating-point number nearest to a rational; beyond the finite range the rational. -/
def roundBinary (q : Rat) : Rat :=
  if q < 0 then -((roundBinary? (-q)).getD (-q)) else (roundBinary? q).getD q

/-- Puts the sign of `d` on a magnitude. -/
def withSign (d : Decimal) (q : Rat) : Rat :=
  if d.negative then -q else q

/-- The number exactly as written. -/
def exact (d : Decimal) : Rat :=
  d.withSign d.magnitude

/-- The floating-point number that `d` stands for, if it is finite. -/
def nearest? (d : Decimal) : Option Rat :=
  (roundBinary? d.magnitude).map d.withSign

/-- The floating-point number that `d` stands for; beyond the finite range the exact value, which
compares in the same way with every finite number. -/
def toRat (d : Decimal) : Rat :=
  d.nearest?.getD d.exact

/-- Whether the number is zero, with either sign. -/
def isZero (d : Decimal) : Bool :=
  d.toRat == 0

end Decimal

/-- The integer next to a rational on the way to zero. -/
def truncate (q : Rat) : Int :=
  if q < 0 then q.ceil else q.floor

end WhileLang
