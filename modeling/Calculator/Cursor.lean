import Calculator.Fault
import Calculator.Token.Lexeme
/-!
# Cursor — reading the tokens of a source one at a time

A cursor stands at a place of its source.  Nothing is read ahead: `peek` and `get` scan from where it stands, so what
is wrong further on does not show before it is reached.  Only the space character separates tokens; every other
character that starts no lexeme is unrecognized, with its place in bytes of UTF-8.

`peek`, and a `get` that fails, still leave the cursor past the spaces before it.  No reading after that can tell.
-/
namespace Calculator

def isSpace (c : Char) : Bool := c == ' '

/-- The length of a text in bytes of UTF-8. -/
def byteCount : List Char → Nat
  | [] => 0
  | c :: cs => c.utf8Size + byteCount cs

structure Cursor where
  source : List Char
  rest : List Char
  offset : Nat
deriving DecidableEq, Repr, Inhabited

namespace Cursor

def ofList (source : List Char) : Cursor := ⟨source, source, 0⟩

def ofString (source : String) : Cursor := ofList source.toList

def reset (c : Cursor) : Cursor := ofList c.source

/-- True once only spaces remain. -/
def atEnd (c : Cursor) : Bool := c.rest.all isSpace

def skipSpaces (c : Cursor) : Cursor :=
  { c with
    rest := c.rest.dropWhile isSpace
    offset := c.offset + byteCount (c.rest.takeWhile isSpace) }

def skipLexeme (c : Cursor) : Cursor :=
  { c with
    rest := c.rest.drop (lexeme c.rest).length
    offset := c.offset + byteCount (lexeme c.rest) }

/-- The token of the lexeme at the cursor, or why there is none. -/
def token (c : Cursor) : Except Fault Token :=
  match Token.ofLexeme? (lexeme c.rest), c.rest with
  | some t, _ => .ok t
  | none, [] => .error .endOfInput
  | none, symbol :: _ => .error (.unrecognizedSymbol symbol c.offset)

/-- The next token, which stays. -/
def peek (c : Cursor) : Except Fault Token × Cursor := (c.skipSpaces.token, c.skipSpaces)

/-- The next token, which is used up; a failure uses up nothing. -/
def get (c : Cursor) : Except Fault Token × Cursor :=
  match c.skipSpaces.token with
  | .ok t => (.ok t, c.skipSpaces.skipLexeme)
  | .error e => (.error e, c.skipSpaces)

/-- As `get`, and `none` once only spaces remain. -/
def next? (c : Cursor) : Option (Except Fault Token) × Cursor :=
  if c.atEnd then (none, c) else ((some c.get.1), c.get.2)

/-! ## A token that is read leaves less to read -/

theorem length_skipSpaces_le (c : Cursor) : c.skipSpaces.rest.length ≤ c.rest.length :=
  (List.dropWhile_sublist _).length_le

theorem length_skipLexeme_lt (c : Cursor) (t : Token) (h : c.token = .ok t) :
    c.skipLexeme.rest.length < c.rest.length := by
  have hl : lexeme c.rest ≠ [] := by
    intro hn
    unfold token at h
    rw [hn, Token.ofLexeme?_nil] at h
    split at h <;> simp_all
  have hr : c.rest ≠ [] := by
    intro hn
    rw [hn] at hl
    exact hl rfl
  have := List.length_pos_iff.2 hl
  have := List.length_pos_iff.2 hr
  simp only [skipLexeme, List.length_drop]
  omega

theorem length_get_lt (c c' : Cursor) (t : Token) (h : c.get = (.ok t, c')) : c'.rest.length < c.rest.length := by
  unfold get at h
  split at h
  · rename_i u hu
    obtain ⟨-, rfl⟩ := Prod.mk.inj h
    exact Nat.lt_of_lt_of_le (length_skipLexeme_lt _ u hu) (length_skipSpaces_le c)
  · simp at h

/-- The tokens from the cursor to the end, or the first failure; a failure stops the cursor where it met it. -/
def collect (c : Cursor) : Except Fault (List Token) × Cursor :=
  if c.atEnd then (.ok [], c)
  else
    match _h : c.get with
    | (.error e, c') => (.error e, c')
    | (.ok t, c') =>
      let others := c'.collect
      (others.1.map (t :: ·), others.2)
termination_by c.rest.length
decreasing_by exact length_get_lt c c' t ‹_›

end Cursor
end Calculator
