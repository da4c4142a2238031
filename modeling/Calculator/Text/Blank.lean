/-!
# Text.Blank — the blanks around an expression

The characters with the Unicode property White_Space, all of which are trimmed from both ends of a line and of an
expression given as an argument.  Inside an expression only the space separates.
-/
namespace Calculator
namespace Text

/-- The ranges of White_Space, both ends included. -/
def blankRanges : List (Nat × Nat) :=
  [(0x09, 0x0D), (0x20, 0x20), (0x85, 0x85), (0xA0, 0xA0), (0x1680, 0x1680), (0x2000, 0x200A), (0x2028, 0x2029),
    (0x202F, 0x202F), (0x205F, 0x205F), (0x3000, 0x3000)]

def isBlank (c : Char) : Bool := blankRanges.any fun r => decide (r.1 ≤ c.toNat) && decide (c.toNat ≤ r.2)

def trimList (cs : List Char) : List Char := ((cs.dropWhile isBlank).reverse.dropWhile isBlank).reverse

/-- A text without the blanks at its ends. -/
def trim (s : String) : String := String.ofList (trimList s.toList)

end Text
end Calculator
