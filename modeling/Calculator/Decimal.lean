/-!
# Decimal — exact decimal numerals

A `Decimal` is `digits / 10 ^ scale`, a nonnegative rational with a finite decimal expansion.  A numeral (digits, then
optionally a point and more digits) reads as one, exactly and at any length.  It is written in two ways: plainly,
every digit in its place, or in scientific form, one digit before the point and the power of ten after an `e`.

A numeral may have leading zeros, trailing zeros and a bare point at its end; the written forms have none of these.
-/
namespace Calculator

structure Decimal where
  digits : Nat
  scale : Nat
deriving DecidableEq, Repr, Inhabited

namespace Decimal

def wholePart (numeral : List Char) : List Char := numeral.takeWhile Char.isDigit

/-- The digits after the point: none when there is no point or nothing after it. -/
def fractionPart (numeral : List Char) : List Char := (numeral.dropWhile Char.isDigit).drop 1

/-- The value of a numeral `digits` or `digits.digits`. -/
def ofNumeral (numeral : List Char) : Decimal where
  digits := Nat.ofDigitChars 10 (wholePart numeral ++ fractionPart numeral) 0
  scale := (fractionPart numeral).length

def dropTrailingZeros (cs : List Char) : List Char := (cs.reverse.dropWhile (· == '0')).reverse

/-- The integer part, without leading zeros: `0` below one. -/
def wholeDigits (d : Decimal) : List Char := Nat.toDigits 10 (d.digits / Nat.pow 10 d.scale)

/-- The digits after the point, up to the last one that is not zero. -/
def fractionDigits (d : Decimal) : List Char :=
  let ds := Nat.toDigits 10 (d.digits % Nat.pow 10 d.scale)
  dropTrailingZeros (List.replicate (d.scale - ds.length) '0' ++ ds)

/-- Every digit in its place and no more: a whole number has no point. -/
def plain (d : Decimal) : String :=
  match d.fractionDigits with
  | [] => String.ofList d.wholeDigits
  | c :: cs => String.ofList (d.wholeDigits ++ '.' :: c :: cs)

/-- Every digit in its place, and at least one after the point. -/
def pointed (d : Decimal) : String :=
  match d.fractionDigits with
  | [] => String.ofList (d.wholeDigits ++ ['.', '0'])
  | c :: cs => String.ofList (d.wholeDigits ++ '.' :: c :: cs)

/-- The power of ten of the first digit. -/
def exponent (d : Decimal) : Int := (Nat.toDigits 10 d.digits).length - 1 - d.scale

/-- The first digit, a point and the other significant digits if there are any, and the exponent. -/
def scientific (d : Decimal) : String :=
  let mantissa := match dropTrailingZeros (Nat.toDigits 10 d.digits) with
    | [] => ['0']
    | [c] => [c]
    | c :: cs => c :: '.' :: cs
  s!"{String.ofList mantissa}e{d.exponent}"

end Decimal
end Calculator
