/-!
# Binary64 — the fields of a double

A double is a sign and a magnitude of 63 bits.  As a number the magnitude orders the nonnegative doubles: zero, the
subnormals, the normals, then infinity, and above it NaN.  Every finite double is a whole number of units, the unit
being the least subnormal `2 ^ -1074`: its significand, doubled as often as its exponent says.
-/
namespace Calculator
namespace Binary64

/-- The magnitude of infinity, the first that is not finite. -/
def infinity : Nat := 0x7FF0000000000000

/-- The bits without the sign. -/
def magnitude (x : Float) : Nat := x.toBits.toNat % Nat.pow 2 63

/-- The sign bit, which a negative zero has too. -/
def isNegative (x : Float) : Bool := decide (Nat.pow 2 63 ≤ x.toBits.toNat)

/-- The significand of a finite magnitude; that of a normal one has a bit more than is stored. -/
def significand (magnitude : Nat) : Nat :=
  if magnitude / Nat.pow 2 52 = 0 then magnitude else Nat.pow 2 52 + magnitude % Nat.pow 2 52

/-- How often the unit is doubled before the significand counts it.  Zero, subnormals and the least normals share the
unit itself. -/
def doublings (magnitude : Nat) : Nat := magnitude / Nat.pow 2 52 - 1

/-- The value of a finite magnitude in units of `2 ^ -1074`. -/
def units (magnitude : Nat) : Nat := significand magnitude * Nat.pow 2 (doublings magnitude)

def ofMagnitude (magnitude : Nat) : Float := Float.ofBits (UInt64.ofNat magnitude)

end Binary64
end Calculator
