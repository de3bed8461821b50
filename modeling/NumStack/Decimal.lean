import NumStack.Binary.Bits

/-!
# Decimal fractions

A non-negative decimal fraction is a numerator over a power of ten. It is written positionally, with
exactly as many digits after the point as it has places, and a literal is read back to the same
fraction.

The decimals that round to a given magnitude of a binary format form an interval around it. The
decimal chosen for a magnitude lies on the coarsest power-of-ten grid that has a point in this
interval, and is the nearer of the magnitude's two neighbours on that grid. A unit of a format is
`5 ^ scale` steps of the grid `10 ^ -scale`, so that all magnitudes, interval ends and grid points
are natural numbers counted in such steps, and on this finest grid the magnitude itself is a point.
-/

namespace NumStack

/-- The decimal fraction `numerator / 10 ^ places`. -/
structure Decimal where
  numerator : Nat
  places : Nat
  deriving DecidableEq, Repr

namespace Decimal

/-! ## Writing -/

/-- The positional text of a decimal fraction: its whole part, then a point and one digit for each
place. -/
def text (d : Decimal) : List Char :=
  Nat.toDigits 10 (d.numerator / Nat.pow 10 d.places) ++
    if d.places = 0 then []
    else '.' :: (Nat.toDigits 10 (d.numerator % Nat.pow 10 d.places)).leftpad d.places '0'

/-! ## Reading -/

/-- Whether a text is a non-empty run of decimal digits. -/
def isDigits (cs : List Char) : Bool := !cs.isEmpty && cs.all Char.isDigit

/-- The sign of a literal and the text after it. -/
def splitSign : List Char → Bool × List Char
  | '-' :: cs => (true, cs)
  | '+' :: cs => (false, cs)
  | cs => (false, cs)

/-- The value of an unsigned literal: digits, then possibly a point and more digits. -/
def ofUnsigned? (cs : List Char) : Option Decimal :=
  let whole := cs.takeWhile (· != '.')
  match cs.dropWhile (· != '.') with
  | [] => if isDigits whole then some ⟨Nat.ofDigitChars 10 whole 0, 0⟩ else none
  | _ :: fraction =>
    if isDigits whole && isDigits fraction then
      some ⟨Nat.ofDigitChars 10 (whole ++ fraction) 0, fraction.length⟩
    else none

/-- The sign and the magnitude of a literal, `none` if the text is not one. -/
def ofLiteral? (cs : List Char) : Option (Bool × Decimal) :=
  (ofUnsigned? (splitSign cs).2).map fun d => ((splitSign cs).1, d)

/-- Whether a text is a numeric literal: an optional sign, digits, and possibly a point and more
digits. -/
def isLiteral (cs : List Char) : Bool := (ofLiteral? cs).isSome

end Decimal

/-! ## Rounding intervals -/

/-- A magnitude with the interval of values that round to it. The ends are the midpoints to the
neighbouring magnitudes, held twice over so that they are whole; `closed` says whether they belong
to the interval. -/
structure RoundingInterval where
  value : Nat
  twiceLow : Nat
  twiceHigh : Nat
  closed : Bool
  deriving Repr

namespace RoundingInterval

/-- Whether a value lies in the interval. -/
def contains (i : RoundingInterval) (n : Nat) : Bool :=
  if i.closed then decide (i.twiceLow ≤ 2 * n ∧ 2 * n ≤ i.twiceHigh)
  else decide (i.twiceLow < 2 * n ∧ 2 * n < i.twiceHigh)

/-- The point of the grid of multiples of `step` chosen for the interval, if it has one: the nearer
neighbour of the value, the upper one on a tie. -/
def gridPoint? (i : RoundingInterval) (step : Nat) : Option Nat :=
  let below := i.value / step
  let lowerHit := i.contains (below * step)
  let upperHit := i.contains ((below + 1) * step)
  if upperHit && (!lowerHit || decide (step ≤ 2 * (i.value % step))) then some (below + 1)
  else if lowerHit then some below
  else none

/-- A grid `10 ^ j`, from the given `j` downward to the coarsest one that has a point in the
interval, with that point. The finest grid has the value itself. -/
def coarsest (i : RoundingInterval) : Nat → Nat × Nat
  | 0 => (0, i.value)
  | j + 1 =>
    match i.gridPoint? (Nat.pow 10 (j + 1)) with
    | some n => (j + 1, n)
    | none => i.coarsest j

end RoundingInterval

namespace Format

/-- The magnitude of a code, counted in steps of `10 ^ -scale`. -/
def steps (f : Format) (code : Nat) : Nat := f.units code * Nat.pow 5 f.scale

/-- The interval of the values, in steps, that round to a positive code. On a midpoint the even code
wins. -/
def interval (f : Format) (code : Nat) : RoundingInterval where
  value := f.steps code
  twiceLow := f.steps (code - 1) + f.steps code
  twiceHigh := f.steps code + f.steps (code + 1)
  closed := code % 2 == 0

/-- The point number `n` of the grid of `10 ^ j` steps, as a decimal fraction. -/
def gridDecimal (f : Format) (j n : Nat) : Decimal :=
  if j ≤ f.scale then ⟨n, f.scale - j⟩ else ⟨n * Nat.pow 10 (j - f.scale), 0⟩

/-- The decimal of fewest digits that rounds to a finite code, the nearest one among those. Because
`2 ^ 100 < 10 ^ 31`, the search starts above every grid that can have a point in the interval. -/
def shortest (f : Format) (code : Nat) : Decimal :=
  if code = 0 then ⟨0, 0⟩
  else
    let i := f.interval code
    let found := i.coarsest (i.value.log2 * 31 / 100 + 2)
    f.gridDecimal found.1 found.2

end Format

namespace Binary

variable {f : Format}

/-! ## Text of a number -/

/-- The text of a number: a minus sign where it is negative, zero included, and the shortest
decimal. -/
def chars : Binary f → List Char
  | nan => ['N', 'a', 'N']
  | number negative code _ =>
    (if negative then ['-'] else []) ++
      if code = f.infinity then ['i', 'n', 'f'] else (f.shortest code).text

/-- The text of a number as a string. -/
def text (x : Binary f) : String := String.ofList x.chars

/-- The number nearest to a signed decimal fraction. -/
def ofDecimal (negative : Bool) (d : Decimal) : Binary f :=
  ofRatio negative (d.numerator * Nat.pow 2 f.scale) (Nat.pow 10 d.places)

end Binary

end NumStack
