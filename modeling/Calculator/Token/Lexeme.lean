import Calculator.Token
/-!
# Token.Lexeme — the lexeme at the front of a text, and the token it stands for

A lexeme is a symbol of one character, a numeral (digits, then optionally a point and more digits, or none), or a name
(an ASCII letter, then ASCII letters and digits).  `lexeme` cuts the longest one at the front of a text, and nothing
when none starts there; `ofLexeme?` reads it.  No lexeme contains a space.
-/
namespace Calculator

/-- The longest numeral at the front: a point belongs to it even with no digit after it, a second point never. -/
def numeral (text : List Char) : List Char :=
  text.takeWhile Char.isDigit ++
    match text.dropWhile Char.isDigit with
    | '.' :: fraction => '.' :: fraction.takeWhile Char.isDigit
    | _ => []

/-- The longest lexeme at the front of a text, empty when none starts there. -/
def lexeme : List Char → List Char
  | [] => []
  | c :: cs =>
    if (Token.ofChar? c).isSome then [c]
    else if c.isDigit then numeral (c :: cs)
    else if c.isAlpha then (c :: cs).takeWhile Char.isAlphanum
    else []

/-- The token that a lexeme stands for. -/
def Token.ofLexeme? : List Char → Option Token
  | [] => none
  | c :: cs =>
    match Token.ofChar? c with
    | some t => some t
    | none =>
      if c.isDigit then some (.number (Decimal.ofNumeral (c :: cs)).toFloat)
      else if c.isAlpha then some (.name (String.ofList (c :: cs)))
      else none

theorem Token.ofLexeme?_nil : ofLexeme? [] = none := rfl

/-! ## A lexeme is cut from the front -/

theorem numeral_append_drop (text : List Char) : numeral text ++ text.drop (numeral text).length = text := by
  rw [← List.prefix_iff_eq_append]
  conv => rhs; rw [← List.takeWhile_append_dropWhile (p := Char.isDigit) (l := text)]
  unfold numeral
  rw [List.prefix_append_right_inj]
  split
  · rename_i fraction h
    rw [h, List.cons_prefix_cons]
    exact ⟨rfl, List.takeWhile_prefix _⟩
  · exact List.nil_prefix

theorem lexeme_append_drop (text : List Char) : lexeme text ++ text.drop (lexeme text).length = text := by
  unfold lexeme
  split
  · rfl
  · split
    · rfl
    · split
      · exact numeral_append_drop _
      · split
        · exact List.prefix_iff_eq_append.1 <| List.takeWhile_prefix _
        · rfl

end Calculator
