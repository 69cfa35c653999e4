import WhileLang.Number.Decimal

/-!
# Budgets

The application of rules may be limited in the number of its iterations and in time. When a
limit is reached, which one it is and what to say about it are noted once, and no further
iteration is granted.

What the clock shows is given with each request; the time that has passed since the start is the
difference, as a binary floating-point number.

* `Clock`: what the clock shows each time it is looked at.
* `Budget`: the limits and what has been used.
* `Budget.restart`: the same limits with nothing used.
* `Budget.request`: asks for one more iteration.
-/

namespace WhileLang

/-- What the clock shows each time it is looked at, in seconds. -/
abbrev Clock := Nat → Rat

/-- What the clock shows after the first look. -/
def Clock.later (clock : Clock) : Clock :=
  fun n => clock (n + 1)

/-- Limits and what has been used. -/
structure Budget where
  /-- How many iterations may be made; none is no limit. -/
  maxIterations : Option Int := some 30
  /-- How many seconds may pass; none, zero and less are no limit. -/
  maxSeconds : Option Rat := some 5
  /-- Whether reaching a limit is an error. -/
  strict : Bool := false
  /-- What the clock showed at the start. -/
  start : Rat := 0
  /-- The iterations granted since the start. -/
  iterations : Int := 0
  /-- Whether a limit is reached. -/
  reached : Bool := false
  /-- Which limit is reached. -/
  limitKind : Option String := none
  /-- What to say about it. -/
  limitReason : Option String := none

namespace Budget

/-- The same limits with nothing used, when the clock shows `now`. -/
def restart (b : Budget) (now : Rat) : Budget :=
  { b with start := now, iterations := 0, reached := false, limitKind := none, limitReason := none }

/-- Notes that a limit is reached, unless one is noted already. -/
def note (b : Budget) (kind reason : String) : Budget :=
  if b.reached then b else
    { b with reached := true, limitKind := some kind, limitReason := some reason }

/-- Whether the iterations are used up. -/
def outOfIterations (b : Budget) : Bool :=
  match b.maxIterations with
  | some limit => limit ≤ b.iterations
  | none => false

/-- Whether the time is used up when the clock shows `now`. -/
def outOfTime (b : Budget) (now : Rat) : Bool :=
  match b.maxSeconds with
  | some limit => 0 < limit && limit ≤ Decimal.roundBinary (now - b.start)
  | none => false

/-- Asks for one more iteration when the clock shows `now`: whether it is granted, and the budget
after that. -/
def request (b : Budget) (now : Rat) : Bool × Budget :=
  if b.reached then (false, b)
  else if b.outOfIterations then (false, b.note "iteration_budget" "iteration budget exceeded")
  else if b.outOfTime now then (false, b.note "time_budget" "time limit exceeded")
  else (true, { b with iterations := b.iterations + 1 })

/-- How many requests may be made: one more than the limit leaves, since the one that exceeds it
is refused; without a limit, as many as the caller has patience for. -/
def allowance (b : Budget) (patience : Nat) : Nat :=
  match b.maxIterations with
  | some limit => (limit - b.iterations).toNat + 1
  | none => patience

end Budget

end WhileLang
