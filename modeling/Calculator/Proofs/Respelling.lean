import Calculator.Proofs.Indentation
import Calculator.Proofs.Remainder
/-!
# Proofs.Respelling — the texts of tokens are read as the tokens

The text of a token that was read is a lexeme of that token, though seldom the one that was read: a number has the
shortest numeral of its double.  With a space after each no lexeme goes on into the next, so the tokens of a source can
be written out and read again, and no answer can tell the difference.

Only a number that was read as infinity has no numeral to stand for it.  Its text is a name, and read as one.
-/
namespace Calculator

open Binary64

/-- The texts of tokens, a space between each two. -/
def spelling (ts : List Token) : String := " ".intercalate (ts.map Token.text)

/-- The token that the text of a token is read as: infinity is the name that it is written as. -/
def Token.nameInfinity : Token → Token
  | number x => if magnitude x = infinity then name "inf" else number x
  | t => t

/-! ## One token -/

theorem Token.text_of_infinity {x : Float} (hs : isNegative x = false) (hx : magnitude x = infinity) :
    (number x).text = "inf" := by
  rw [text, Binary64.text_of_infinity hx, hs]
  rfl

theorem Token.nameInfinity_of_infinity {x : Float} (hx : magnitude x = infinity) :
    (number x).nameInfinity = name "inf" := if_pos hx

theorem Token.nameInfinity_of_ne {x : Float} (hx : magnitude x ≠ infinity) :
    (number x).nameInfinity = number x := if_neg hx

/-- A number that was read is not negative, and no NaN. -/
theorem Spells.number_bounds {w : List Char} {x : Float} (h : Spells w (.number x)) :
    isNegative x = false ∧ magnitude x ≤ infinity := by
  cases h with
  | number =>
    have hle := (Decimal.ofNumeral w).nearest_le_infinity
    rw [Decimal.toFloat, magnitude_ofMagnitude hle]
    exact ⟨isNegative_ofMagnitude hle, hle⟩

theorem spells_text_number {x : Float} (hs : isNegative x = false) (hle : magnitude x ≤ infinity) :
    Spells (Token.number x).text.toList (Token.number x).nameInfinity := by
  by_cases hx : magnitude x = infinity
  · rw [Token.text_of_infinity hs hx, Token.nameInfinity_of_infinity hx]
    exact isName_inf.spells
  · have hplain := spells_shortest hle
    rw [ofMagnitude_magnitude hs] at hplain
    rw [Token.nameInfinity_of_ne hx, Token.text, text_of_lt_infinity (Nat.lt_of_le_of_ne hle hx), hs]
    exact hplain

/-- **The text of a token that was read is a lexeme of it**, but for infinity. -/
theorem Spells.text {w : List Char} {t : Token} (h : Spells w t) : Spells t.text.toList t.nameInfinity := by
  cases h with
  | operator op =>
    have hsymbol : (Token.operator op).text.toList = [op.symbol] := String.toList_singleton _
    exact hsymbol ▸ .operator op
  | leftParen => exact .leftParen
  | rightParen => exact .rightParen
  | name hw => exact IsName.spells (String.toList_ofList ▸ hw)
  | number hw =>
    obtain ⟨hs, hle⟩ := (Spells.number hw).number_bounds
    exact spells_text_number hs hle

/-- What a text is read as has the same text. -/
theorem Spells.text_nameInfinity {w : List Char} {t : Token} (h : Spells w t) : t.nameInfinity.text = t.text := by
  cases h with
  | operator | leftParen | rightParen | name => rfl
  | number hw =>
    obtain ⟨hs, -⟩ := (Spells.number hw).number_bounds
    by_cases hx : magnitude (Decimal.ofNumeral w).toFloat = infinity
    · rw [Token.nameInfinity_of_infinity hx, Token.text_of_infinity hs hx]
      rfl
    · rw [Token.nameInfinity_of_ne hx]

/-! ## All tokens -/

theorem toList_spelling_cons (t u : Token) (ts : List Token) :
    (spelling (t :: u :: ts)).toList = t.text.toList ++ ([' '] ++ (spelling (u :: ts)).toList) := by
  have hspace : " ".toList = [' '] := rfl
  rw [spelling, List.map_cons, List.map_cons, String.intercalate_cons_cons, String.toList_append, String.toList_append,
    hspace, List.append_assoc]
  rfl

theorem writes_spelling : ∀ {ts : List Token}, (∀ t ∈ ts, ∃ w, Spells w t) →
    Writes [] (spelling ts).toList (ts.map Token.nameInfinity)
  | [], _ => Writes.nil
  | [t], h => by
    obtain ⟨w, hw⟩ := h t List.mem_cons_self
    have htext : spelling [t] = t.text := String.intercalate_singleton
    exact htext ▸ hw.text.writes stops_nil
  | t :: u :: ts, h => by
    obtain ⟨w, hw⟩ := h t List.mem_cons_self
    have hgap : ∀ c ∈ [' '], c = ' ' := fun _ hc => List.mem_singleton.1 hc
    have hothers := (writes_spelling (fun v hv => h v (List.mem_cons_of_mem t hv))).spaces hgap
    rw [toList_spelling_cons]
    exact hothers.spelled hw.text (stops_cons rfl (by decide) _)

theorem Expr.outcome_parse_of_collect {source source' : String} {ts : List Token}
    (h : (Cursor.ofString source).collect.1 = .ok ts) (h' : (Cursor.ofString source').collect.1 = .ok ts)
    (maxDepth : Nat) : (Expr.parse maxDepth source').outcome = (Expr.parse maxDepth source).outcome := by
  obtain ⟨hfault, hwords⟩ := Cursor.collect_eq_ok_iff.1 h
  obtain ⟨hfault', hwords'⟩ := Cursor.collect_eq_ok_iff.1 h'
  rw [Expr.parse, Expr.parse, Cursor.outcome_parse, Cursor.outcome_parse, hfault, hfault', hwords, hwords']

/-- **The tokens of a source can be written out and read again.**  Each is read as itself, numbers with all their bits,
and so is the expression under every limit, unless a number is infinite: that is read as the name that is its text, and
all other tokens as they were.  What is read again has the same texts. -/
theorem collect_spelling {source : String} {ts : List Token} (h : (Cursor.ofString source).collect.1 = .ok ts) :
    (Cursor.ofString (spelling ts)).collect.1 = .ok (ts.map Token.nameInfinity) ∧
    spelling (ts.map Token.nameInfinity) = spelling ts ∧
    (∀ x, .number x ∈ ts → magnitude x = infinity → (Token.number x).text = "inf") ∧
    ((∀ x, .number x ∈ ts → magnitude x ≠ infinity) →
      (Cursor.ofString (spelling ts)).collect.1 = .ok ts ∧
      ∀ maxDepth, (Expr.parse maxDepth (spelling ts)).outcome = (Expr.parse maxDepth source).outcome) := by
  have hspelled : ∀ t ∈ ts, ∃ w, Spells w t := by
    obtain ⟨-, rfl⟩ := Cursor.collect_eq_ok_iff.1 h
    exact fun t ht => Cursor.spells_of_mem_words ht
  have hread := collect_of_writes (writes_spelling hspelled)
  refine ⟨hread, ?_, fun x hx hinfinite => ?_, fun hfinite => ?_⟩
  · have htexts : (ts.map Token.nameInfinity).map Token.text = ts.map Token.text := by
      rw [List.map_map]
      refine List.map_congr_left (fun t ht => ?_)
      obtain ⟨w, hw⟩ := hspelled t ht
      exact hw.text_nameInfinity
    rw [spelling, htexts, spelling]
  · obtain ⟨w, hw⟩ := hspelled _ hx
    exact Token.text_of_infinity hw.number_bounds.1 hinfinite
  · have hsame : ts.map Token.nameInfinity = ts := by
      conv_rhs => rw [← List.map_id ts]
      refine List.map_congr_left (fun t ht => ?_)
      cases t with
      | number x => exact Token.nameInfinity_of_ne (hfinite x ht)
      | operator | name | leftParen | rightParen => rfl
    rw [hsame] at hread
    exact ⟨hread, Expr.outcome_parse_of_collect h hread⟩

theorem collect_spelling_difference : ∃ x, (Cursor.ofString "00.10-a").collect.1
      = .ok [.number x, .operator .minus, .name "a"] ∧
    (Cursor.ofString "0.1 - a").collect.1 = .ok [.number x, .operator .minus, .name "a"] ∧
    (Expr.parse 2 "0.1 - a").outcome = (Expr.parse 2 "00.10-a").outcome := by
  obtain ⟨x, hx⟩ : ∃ x, x = (Decimal.ofNumeral ['0', '0', '.', '1', '0']).toFloat := ⟨_, rfl⟩
  have hts : (Cursor.ofString "00.10-a").collect.1 = .ok [.number x, .operator .minus, .name "a"] := by
    have hnumeral : IsNumeral (['0', '0'] ++ '.' :: ['1', '0']) :=
      .pointed (List.cons_ne_nil _ _) (List.all_eq_true.1 rfl) (List.all_eq_true.1 rfl)
    have hnumber : Spells ['0', '0', '.', '1', '0'] (.number x) := hx ▸ .number hnumeral
    have hletter : IsName "a".toList := (.intro rfl (List.forall_mem_nil _) : IsName ['a'])
    have hname : Writes [] ['a'] [.name "a"] := hletter.spells.writes stops_nil
    have hminus : Writes [] ['-', 'a'] [.operator .minus, .name "a"] := hname.symbol rfl
    exact collect_of_writes (hminus.spelled hnumber (stops_cons rfl (by decide) _))
  have hspelling : spelling [.number x, .operator .minus, .name "a"] = "0.1 - a" := by
    rw [hx]
    decide +kernel
  have hfinite : magnitude x ≠ infinity := by
    rw [hx]
    decide +kernel
  obtain ⟨-, -, -, hread⟩ := collect_spelling hts
  obtain ⟨hcollect, hparse⟩ := hread (fun y hy => by
    obtain rfl : y = x := by simpa using hy
    exact hfinite)
  rw [hspelling] at hcollect hparse
  exact ⟨x, hts, hcollect, hparse 2⟩

end Calculator
