import Calculator.Binary64
import Calculator.Decimal
/-!
# Binary64.Nearest — reading a decimal as the nearest double

`nearest num den` is the magnitude of the double nearest to `num / den`, ties going to the even significand,
subnormals and overflow included.  The quotient is cut at 53 significant bits, or at the unit when fewer are there, and
rounded once; a carry out of the significand runs into the exponent bits of the magnitude, which is what they are for.
-/
namespace Calculator
namespace Binary64

/-- `num / den` to the nearest whole number, a half to the even one. -/
def roundHalfEven (num den : Nat) : Nat :=
  let q := num / den
  match compare (2 * (num % den)) den with
  | .lt => q
  | .eq => q + q % 2
  | .gt => q + 1

/-- How many low bits of a number of units lie below the 53 that a significand holds. -/
def shiftOf (units : Nat) : Nat := units.log2 - 52

/-- The magnitude nearest to `num / den`. -/
def nearest (num den : Nat) : Nat :=
  let scaled := num * Nat.pow 2 1074
  let shift := shiftOf (scaled / den)
  min (shift * Nat.pow 2 52 + roundHalfEven scaled (den * Nat.pow 2 shift)) infinity

end Binary64

def Decimal.nearest (d : Decimal) : Nat := Binary64.nearest d.digits (Nat.pow 10 d.scale)

def Decimal.toFloat (d : Decimal) : Float := Binary64.ofMagnitude d.nearest

end Calculator
