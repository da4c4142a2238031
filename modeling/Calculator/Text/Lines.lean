/-!
# Text.Lines — bytes, texts and lines

Input is bytes.  A line ends at a newline byte, which no other character of UTF-8 contains, so lines can be cut before
they are decoded; the last line may lack its newline.
-/
namespace Calculator
namespace Text

def encode (s : String) : List UInt8 := s.toUTF8.data.toList

def decode? (bytes : List UInt8) : Option String := String.fromUTF8? ⟨bytes.toArray⟩

def newline : UInt8 := 10

/-- The lines of an input whose first line has begun with some bytes, given backwards. -/
def linesFrom (begun : List UInt8) : List UInt8 → List (List UInt8)
  | [] => if begun.isEmpty then [] else [begun.reverse]
  | b :: bs => if b = newline then begun.reverse :: linesFrom [] bs else linesFrom (b :: begun) bs

/-- The lines of an input, without their newlines. -/
def lines (bytes : List UInt8) : List (List UInt8) := linesFrom [] bytes

end Text
end Calculator
