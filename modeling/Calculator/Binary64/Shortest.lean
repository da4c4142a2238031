import Calculator.Binary64.Nearest
/-!
# Binary64.Shortest — the shortest decimal that reads back

Every finite magnitude is a decimal, since a power of two below one is a power of five over a power of ten.  Among the
decimals that read back as the same magnitude, `shortest` is one with the fewest significant digits, of those the one
nearest to the exact value, and of two equally near the larger.

The search goes from the grid with one significant digit to the finest.  On each grid only the two neighbours of the
exact value are tried: what reads back is an interval around that value, so if any point of the grid does, one of the
neighbours does.  On the finest grid the value is its own neighbour.
-/
namespace Calculator
namespace Binary64

/-- The exact value of a finite magnitude: a whole number of units `5 ^ 1074 / 10 ^ 1074`, less the powers of ten that
its doublings cancel. -/
def exact (magnitude : Nat) : Decimal where
  digits := significand magnitude * Nat.pow 2 (doublings magnitude - 1074) * Nat.pow 5 (1074 - doublings magnitude)
  scale := 1074 - doublings magnitude

/-- The multiple of `step` next to a decimal that reads back as the magnitude: the nearer one if both do, the upper one
on a tie. -/
def neighbour? (magnitude : Nat) (d : Decimal) (step : Nat) : Option Decimal :=
  let lower : Decimal := ⟨d.digits / step * step, d.scale⟩
  let upper : Decimal := ⟨lower.digits + step, d.scale⟩
  if lower.nearest = magnitude then
    if upper.nearest = magnitude then
      if d.digits - lower.digits < upper.digits - d.digits then some lower else some upper
    else some lower
  else if upper.nearest = magnitude then some upper
  else none

/-- The first hit on the grids of step `10 ^ k`, `10 ^ (k - 1)`, …, and the decimal itself if there is none. -/
def coarsest (magnitude : Nat) (d : Decimal) : Nat → Decimal
  | 0 => d
  | k + 1 => (neighbour? magnitude d (Nat.pow 10 (k + 1))).getD (coarsest magnitude d k)

/-- The shortest decimal that reads back as a finite magnitude. -/
def shortest (magnitude : Nat) : Decimal :=
  let d := exact magnitude
  coarsest magnitude d ((Nat.toDigits 10 d.digits).length - 1)

end Binary64
end Calculator
