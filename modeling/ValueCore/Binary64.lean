import ValueCore.Bytes

/-!
# Floats as bit patterns

A float is a 64-bit pattern in the binary64 interchange format. Nothing here uses the machine's
floating-point operations: a pattern is decoded to the number it denotes, exactly, and comparison
and conversion are then integer arithmetic.

Every finite binary64 number is an integer multiple of the smallest subnormal `2 ^ (-1074)`. The
decoded magnitude is counted in that unit, so a float and an integer `i` are the same number exactly
when the float has `i * 2 ^ 1074` units.
-/

-- powers of numbers are those of the core library, also where a power of monoids is in scope
attribute [instance (high + 1), default_instance (high + 1)] instPowNat

namespace ValueCore

/-- A float, given by its 64 bits. -/
structure Binary64 where
  bits : UInt64
  deriving DecidableEq, Inhabited

namespace Binary64

/-- What a bit pattern denotes: a finite number counted in units of `2 ^ (-1074)`, an infinity, or
nothing. The two zeros denote the same number. -/
inductive Denotation where
  | finite (units : Int)
  | infinite (negative : Bool)
  | notANumber
  deriving DecidableEq

def negative (x : Binary64) : Bool := x.bits.toNat / 2 ^ 63 % 2 == 1

def exponentField (x : Binary64) : Nat := x.bits.toNat / 2 ^ 52 % 2 ^ 11

def fraction (x : Binary64) : Nat := x.bits.toNat % 2 ^ 52

/-- The spacing of the floats that share the exponent of `x`, in units. -/
def spacing (x : Binary64) : Nat := 2 ^ (x.exponentField - 1)

/-- The integer significand, with the leading one that a normal number leaves out. -/
def significand (x : Binary64) : Nat :=
  if x.exponentField = 0 then x.fraction else 2 ^ 52 + x.fraction

/-- Magnitude of a finite pattern, in units. -/
def magnitude (x : Binary64) : Nat := x.significand * x.spacing

/-- The number that a bit pattern denotes. -/
def denotation (x : Binary64) : Denotation :=
  if x.exponentField = 2047 then
    if x.fraction = 0 then .infinite x.negative else .notANumber
  else .finite (if x.negative then -(x.magnitude : Int) else x.magnitude)

/-- How many units make one. -/
def unitsPerOne : Int := 2 ^ 1074

/-- Numeric equality of floats: the two zeros are equal, and what is not a number equals nothing. -/
def equal (x y : Binary64) : Bool :=
  x.denotation == y.denotation && x.denotation != .notANumber

/-- The 64-bit integer that a float equals, if there is one. -/
def toInt64? (x : Binary64) : Option Int64 :=
  match x.denotation with
  | .finite units =>
    let i := units / unitsPerOne
    if units % unitsPerOne = 0 ∧ -(2 ^ 63) ≤ i ∧ i < 2 ^ 63 then some (Int64.ofInt i) else none
  | _ => none

/-- Numeric equality of an integer and a float, with no rounding. -/
def equalInt (x : Binary64) (i : Int64) : Bool := x.toInt64? == some i

/-- The two halves of the pattern, folded to 32 bits. -/
def foldedBits (x : Binary64) : UInt32 := (x.bits ^^^ (x.bits >>> 32)).toUInt32

end Binary64

end ValueCore
