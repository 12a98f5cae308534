import ValueCore.Binary64

/-!
# Shortest decimal text of a float

A finite float is written with the fewest significant digits that still read back as the same
float; among decimals of that many digits the nearest to the exact value is taken, and of two
equally near ones the one whose last digit is even.

The rule is computed in exact integer arithmetic. The reals that round to a float `x` form an
interval around it, half a spacing to each side (a quarter below a power of two, where the spacing
halves), ends included exactly when the significand is even. On the grid of decimals with `n`
significant digits only the two neighbours of the exact value can be the nearest point of the
interval, so the first `n` for which one of them lies inside gives the answer.

The text is positional or scientific, whichever is shorter, and positional on a tie.
-/

namespace ValueCore

/-- The number `digits * 10 ^ exponent`. -/
structure Decimal where
  digits : Nat
  exponent : Int
  deriving DecidableEq

namespace Decimal

/-- Moves trailing zeros of the digits into the exponent, at most `fuel` of them. -/
def strip : Nat → Decimal → Decimal
  | 0, d => d
  | fuel + 1, d =>
    if d.digits % 10 = 0 ∧ d.digits ≠ 0 then strip fuel ⟨d.digits / 10, d.exponent + 1⟩ else d

end Decimal

namespace Binary64

/-- Bounds are compared in quarters of a unit, so that halves of a spacing and the shorter step
below a power of two are whole numbers: `2 ^ 1076` quarters make one. -/
def quartersPerOne : Nat := 2 ^ 1076

/-- Distance from a float down to the nearest real that reads back as its lower neighbour, in
quarters. -/
def lowerGap (x : Binary64) : Nat :=
  if x.fraction = 0 ∧ 1 < x.exponentField then x.spacing else 2 * x.spacing

/-- Does `candidate` grid points of size `10 ^ k` read back as `x`? The magnitudes are compared
after scaling both sides to integers. -/
def readsBack (x : Binary64) (k : Int) (candidate : Nat) : Bool :=
  let value := 4 * x.magnitude
  let point := candidate * 10 ^ k.toNat * quartersPerOne
  let low := (value - x.lowerGap) * 10 ^ (-k).toNat
  let high := (value + 2 * x.spacing) * 10 ^ (-k).toNat
  if x.significand % 2 = 0 then low ≤ point && point ≤ high else low < point && point < high

/-- The multiple of `10 ^ k` nearest to `x` among those that read back as `x`, if there is one. -/
def nearestOnGrid (x : Binary64) (k : Int) : Option Nat :=
  let value := 4 * x.magnitude * 10 ^ (-k).toNat
  let step := 10 ^ k.toNat * quartersPerOne
  let below := value / step
  let above := below + 1
  match x.readsBack k below, x.readsBack k above with
  | true, true =>
    let toBelow := value - below * step
    let toAbove := above * step - value
    if toBelow < toAbove then some below
    else if toAbove < toBelow then some above
    else if below % 2 = 0 then some below else some above
  | true, false => some below
  | false, true => some above
  | false, false => none

/-- Exponent of the leading decimal digit of a finite float other than zero. Scaling by `10 ^ 330`
makes even the smallest float a number above one. -/
def leadingExponent (x : Binary64) : Int :=
  let scaled := 4 * x.magnitude * 10 ^ 330 / quartersPerOne
  (Bytes.decimalNat scaled).length - 331

/-- Tries grids from `digits` significant digits on; seventeen always suffice. -/
def shortestFrom (x : Binary64) (lead : Int) : Nat → Nat → Decimal
  | 0, _ => ⟨0, 0⟩
  | fuel + 1, digits =>
    let k := lead - digits + 1
    match x.nearestOnGrid k with
    | some d => Decimal.strip 20 ⟨d, k⟩
    | none => shortestFrom x lead fuel (digits + 1)

/-- The shortest decimal that reads back as the magnitude of a finite float other than zero. -/
def shortest (x : Binary64) : Decimal := shortestFrom x x.leadingExponent 20 1

end Binary64

/-! ## Text -/

namespace Decimal

/-- The exponent part of scientific notation: a sign and at least two digits. -/
def exponentText (e : Int) : Bytes :=
  let digits := Bytes.decimalNat e.natAbs
  (if e < 0 then ascii "-" else ascii "+") ++ (if digits.length < 2 then ascii "0" else []) ++ digits

/-- One digit, the rest behind a point, then the exponent. -/
def scientific (d : Decimal) : Bytes :=
  let digits := Bytes.decimalNat d.digits
  let rest := digits.drop 1
  digits.take 1 ++ (if rest.isEmpty then [] else ascii "." ++ rest) ++ ascii "e" ++
    exponentText (d.exponent + rest.length)

/-- Positional notation of a decimal with digits behind the point. -/
def positional (d : Decimal) : Bytes :=
  let digits := Bytes.decimalNat d.digits
  let places := (-d.exponent).toNat
  if places < digits.length then
    digits.take (digits.length - places) ++ ascii "." ++ digits.drop (digits.length - places)
  else ascii "0." ++ Bytes.repeated (ascii "0") (places - digits.length) ++ digits

end Decimal

namespace Binary64

/-- The whole part of the magnitude, in full. -/
def wholePart (x : Binary64) : Nat := x.magnitude / 2 ^ 1074

/-- Shortest text of the magnitude of a finite float. A whole number in positional notation is
written out exactly, not padded with zeros. -/
def magnitudeText (x : Binary64) : Bytes :=
  if x.magnitude = 0 then ascii "0" else
    let d := x.shortest
    let positional := if d.exponent < 0 then d.positional else Bytes.decimalNat x.wholePart
    if positional.length ≤ d.scientific.length then positional else d.scientific

/-- The display form of a float. A finite one always shows a point or an exponent, so that it cannot
be taken for an integer. -/
def display (x : Binary64) : Bytes :=
  match x.denotation with
  | .notANumber => ascii "nan"
  | .infinite true => ascii "-inf"
  | .infinite false => ascii "+inf"
  | .finite _ =>
    let body := x.magnitudeText
    let marked := body.any fun c => c == 46 || c == 101
    (if x.negative then ascii "-" else []) ++ body ++ (if marked then [] else ascii ".0")

end Binary64

end ValueCore
