import NumStack.Binary.Format

/-!
# Binary floating-point numbers

A number of a format is a sign and the code of a magnitude, or it is not a number at all. Zero is
signed, and the greatest code is infinity. Every way to obtain a number from an exact value is one
rounding of a quotient of natural numbers, `Binary.ofRatio`. A bit pattern holds the sign in its
highest bit and the code of the magnitude in the bits below. The patterns above infinity stand for
`nan`.
-/

namespace NumStack

/-- A floating-point number of the format `f`. -/
inductive Binary (f : Format) where
  | nan
  | number (negative : Bool) (code : Nat) (code_le : code ≤ f.infinity)
  deriving DecidableEq, Repr

/-- Single-precision numbers. -/
abbrev Single := Binary Format.single

/-- Double-precision numbers. -/
abbrev Double := Binary Format.double

namespace Binary

variable {f g : Format}

/-! ## Building numbers -/

/-- The number nearest to `num / den` units, with the given sign. -/
def ofRatio (negative : Bool) (num den : Nat) : Binary f :=
  number negative (f.nearest num den) (f.nearest_le_infinity num den)

/-- Signed infinity. -/
def infinite (negative : Bool) : Binary f := number negative f.infinity (Nat.le_refl _)

/-- Signed zero. -/
def zero (negative : Bool) : Binary f := number negative 0 (Nat.zero_le _)

/-- The finite number of greatest magnitude with the given sign. -/
def largest (negative : Bool) : Binary f := number negative (f.infinity - 1) (Nat.sub_le _ _)

/-- The number nearest to an integer; the integer zero is positive zero. -/
def ofInt (n : Int) : Binary f := ofRatio (n < 0) (n.natAbs * Nat.pow 2 f.scale) 1

/-! ## Classes and order -/

/-- Whether the number is neither infinite nor `nan`. -/
def isFinite : Binary f → Bool
  | nan => false
  | number _ code _ => code < f.infinity

/-- Whether the number is `nan`. -/
def isNan : Binary f → Bool
  | nan => true
  | number _ _ _ => false

/-- Whether the number is a zero of either sign. -/
def isZero : Binary f → Bool
  | nan => false
  | number _ code _ => code == 0

/-- The signed code. Codes ascend with the magnitudes, so it orders numbers as their values do. -/
def key : Binary f → Option Int
  | nan => none
  | number negative code _ => some (if negative then -code else code)

/-- Strict comparison of values: the two zeros are equal, and `nan` compares with nothing. -/
def less (x y : Binary f) : Bool :=
  match x.key, y.key with
  | some a, some b => a < b
  | _, _ => false

/-! ## Exact views -/

/-- The exact value of a finite number in units. -/
def signedUnits : Binary f → Int
  | nan => 0
  | number negative code _ => if negative then -(f.units code : Int) else f.units code

/-- The whole part of a finite number, truncated toward zero. -/
def truncate (x : Binary f) : Int := x.signedUnits.tdiv (Int.pow 2 f.scale)

/-! ## Conversion and arithmetic -/

/-- The nearest number of another format. -/
def convert : Binary f → Binary g
  | nan => nan
  | number negative code _ =>
    if code = f.infinity then infinite negative
    else ofRatio negative (f.units code * Nat.pow 2 g.scale) (Nat.pow 2 f.scale)

/-- The number with the other sign. -/
def neg : Binary f → Binary f
  | nan => nan
  | number negative code h => number (!negative) code h

/-- The exact sum, rounded. A sum of zero is positive unless both numbers are negative. -/
def add (x y : Binary f) : Binary f :=
  match x, y with
  | number s a _, number t b _ =>
    if a = f.infinity then if b = f.infinity ∧ s ≠ t then nan else infinite s
    else if b = f.infinity then infinite t
    else
      let sum := x.signedUnits + y.signedUnits
      if sum = 0 then zero (s && t) else ofRatio (sum < 0) sum.natAbs 1
  | _, _ => nan

/-- The exact difference, rounded. -/
def sub (x y : Binary f) : Binary f := x.add y.neg

/-- The exact product, rounded. -/
def mul (x y : Binary f) : Binary f :=
  match x, y with
  | number s a _, number t b _ =>
    if a = f.infinity ∨ b = f.infinity then if a = 0 ∨ b = 0 then nan else infinite (s ^^ t)
    else ofRatio (s ^^ t) (f.units a * f.units b) (Nat.pow 2 f.scale)
  | _, _ => nan

/-- The exact quotient, rounded. -/
def div (x y : Binary f) : Binary f :=
  match x, y with
  | number s a _, number t b _ =>
    if a = f.infinity then if b = f.infinity then nan else infinite (s ^^ t)
    else if b = f.infinity then zero (s ^^ t)
    else if b = 0 then if a = 0 then nan else infinite (s ^^ t)
    else ofRatio (s ^^ t) (f.units a * Nat.pow 2 f.scale) (f.units b)
  | _, _ => nan

/-- The exact remainder of the quotient truncated toward zero, with the sign of the dividend. -/
def rem (x y : Binary f) : Binary f :=
  match x, y with
  | number s a _, number _ b _ =>
    if a = f.infinity ∨ b = 0 then nan
    else if b = f.infinity then x
    else ofRatio s (f.units a % f.units b) 1
  | _, _ => nan


/-! ## Bit patterns -/

/-- The weight of the sign bit. -/
def signWeight (f : Format) : Nat := Nat.pow 2 (f.exponentBits + f.fractionBits)

/-- The number that a bit pattern stands for. -/
def ofBits (bits : Nat) : Binary f :=
  let code := bits % signWeight f
  if h : code ≤ f.infinity then number (bits / signWeight f % 2 = 1) code h else nan

/-- The bit pattern of a number; `nan` has none of its own. -/
def toBits? : Binary f → Option Nat
  | nan => none
  | number negative code _ => some (if negative then signWeight f + code else code)

end Binary

end NumStack
