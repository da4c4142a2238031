import Calculator.Binary64.Shortest
/-!
# Binary64.Notation — the two texts of a double

Results, outlines and token texts give a number plainly: the shortest decimal that reads back, never an exponent, no
point on a whole number.  The trace gives the same decimal with at least one digit after the point, and in scientific
form when it is too small or too large to be read at a glance.  In both, a minus sign says that the sign bit is set, a
negative zero included, and NaN has no sign.
-/
namespace Calculator
namespace Binary64

/-- The text of a number whose finite magnitudes are written by `write`. -/
def signed (write : Decimal → String) (x : Float) : String :=
  if infinity < magnitude x then "NaN"
  else
    let body := if magnitude x = infinity then "inf" else write (shortest (magnitude x))
    if isNegative x then "-" ++ body else body

/-- Whether the trace writes a decimal plainly: zero, and from `10 ^ -4` up to but not including `10 ^ 16`. -/
def isPlainRange (d : Decimal) : Bool :=
  d.digits == 0 ||
    (decide (Nat.pow 10 d.scale ≤ d.digits * Nat.pow 10 4) && decide (d.digits < Nat.pow 10 (16 + d.scale)))

/-- The text of a number in results, outlines and messages. -/
def text (x : Float) : String := signed Decimal.plain x

def traceText (x : Float) : String :=
  signed (fun d => if isPlainRange d then d.pointed else d.scientific) x

end Binary64
end Calculator
