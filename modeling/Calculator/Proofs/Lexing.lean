import Calculator.Proofs.Scan
/-!
# Proofs.Lexing — what follows a source does not change its tokens

A character that extends no lexeme ends every lexeme before it.  So the tokens of a source stay what they are when such
a character follows, and putting a source in parentheses puts its tokens in parentheses.
-/
namespace Calculator

theorem takeWhile_append_cons {p : Char → Bool} {x : Char} (hx : p x = false) (rest : List Char) :
    ∀ text : List Char, (text ++ x :: rest).takeWhile p = text.takeWhile p
  | [] => List.takeWhile_cons_of_neg (by rw [hx]; decide)
  | c :: cs => by
    rw [List.cons_append, List.takeWhile_cons, List.takeWhile_cons, takeWhile_append_cons hx rest cs]

theorem dropWhile_append_cons {p : Char → Bool} {x : Char} (hx : p x = false) (rest : List Char) :
    ∀ text : List Char, (text ++ x :: rest).dropWhile p = text.dropWhile p ++ x :: rest
  | [] => List.dropWhile_cons_of_neg (by rw [hx]; decide)
  | c :: cs => by
    rw [List.cons_append, List.dropWhile_cons, List.dropWhile_cons, dropWhile_append_cons hx rest cs]
    split <;> rfl

section
variable {x : Char} (ha : x.isAlphanum = false) (hp : x ≠ '.')
include ha hp

theorem numeral_append_cons (text rest : List Char) : numeral (text ++ x :: rest) = numeral text := by
  have hd : x.isDigit = false := by
    unfold Char.isAlphanum at ha
    exact (Bool.or_eq_false_iff.1 ha).2
  unfold numeral
  rw [takeWhile_append_cons hd, dropWhile_append_cons hd]
  congr 1
  cases text.dropWhile Char.isDigit with
  | nil =>
    split
    · rename_i h
      exact absurd (List.cons.inj h).1 hp
    · rfl
  | cons c cs =>
    rw [List.cons_append]
    by_cases hc : c = '.'
    · subst hc
      simp only [takeWhile_append_cons hd]
    · split
      · rename_i h
        exact absurd (List.cons.inj h).1 hc
      · split
        · rename_i h
          exact absurd (List.cons.inj h).1 hc
        · rfl

theorem lexeme_append_cons {text : List Char} (ht : text ≠ []) (rest : List Char) :
    lexeme (text ++ x :: rest) = lexeme text := by
  cases text with
  | nil => exact absurd rfl ht
  | cons c cs =>
    have hn := numeral_append_cons ha hp (c :: cs) rest
    have hw := takeWhile_append_cons ha rest (c :: cs)
    rw [List.cons_append] at hn hw ⊢
    simp only [lexeme, hn, hw]

end

namespace Cursor

theorem get_eq_ok {c : Cursor} {t : Token} (h : c.skipSpaces.token = .ok t) :
    c.get = (.ok t, c.skipSpaces.skipLexeme) := by
  rw [get, h]

theorem token_of_get_ok {c c' : Cursor} {t : Token} (h : c.get = (.ok t, c')) :
    c.skipSpaces.token = .ok t ∧ c' = c.skipSpaces.skipLexeme := by
  unfold get at h
  split at h
  · rename_i ht
    obtain ⟨ho, rfl⟩ := Prod.mk.inj h
    injection ho with ho
    exact ⟨ho ▸ ht, rfl⟩
  · cases h

/-- A closing parenthesis at the end of a source is one token more. -/
theorem scan_append_rightParen {c c' : Cursor} (hr : c'.rest = c.rest ++ [')']) (hf : c.scan.fault = none) :
    c'.scan.fault = none ∧ c'.scan.words = c.scan.words ++ [.rightParen] := by
  have hspace : isSpace ')' = false := rfl
  induction hn : c.rest.length using Nat.strongRecOn generalizing c c' with
  | ind n ih =>
    have hs : c'.skipSpaces.rest = c.skipSpaces.rest ++ [')'] := by
      simp only [skipSpaces, hr, dropWhile_append_cons hspace]
    have hne' : ¬ c'.atEnd = true := by
      intro h
      have := List.all_eq_true.1 h ')' (by rw [hr]; simp)
      rw [hspace] at this
      cases this
    by_cases h : c.atEnd = true
    · have hnil : c.skipSpaces.rest = [] := List.dropWhile_eq_nil_iff.2 (fun d hd => List.all_eq_true.1 h d hd)
      rw [hnil, List.nil_append] at hs
      have ht : c'.skipSpaces.token = .ok .rightParen := by
        unfold token
        rw [hs]
        rfl
      have hend : c'.skipSpaces.skipLexeme.atEnd = true := by
        simp only [atEnd, skipLexeme, hs]
        rfl
      rw [scan_of_get_ok hne' (get_eq_ok ht), scan_of_atEnd hend, scan_of_atEnd h]
      exact ⟨rfl, rfl⟩
    · rcases hg : c.get with ⟨e | t, d⟩
      · rw [scan_of_get_error h hg] at hf
        cases hf
      · have hlt : d.rest.length < n := hn ▸ length_get_lt c d t hg
        obtain ⟨ht, hd⟩ := token_of_get_ok hg
        have hlex : lexeme c'.skipSpaces.rest = lexeme c.skipSpaces.rest := by
          rw [hs]
          exact lexeme_append_cons rfl (by decide) (rest_skipSpaces_ne_nil h) []
        have ht' : c'.skipSpaces.token = .ok t := by
          unfold token at ht ⊢
          rw [hlex]
          split at ht
          · rename_i hl
            rw [hl]
            exact ht
          · cases ht
          · cases ht
        have hrest : c'.skipSpaces.skipLexeme.rest = d.rest ++ [')'] := by
          have hle : (lexeme c.skipSpaces.rest).length ≤ c.skipSpaces.rest.length := by
            have := congrArg List.length (lexeme_append_drop c.skipSpaces.rest)
            rw [List.length_append] at this
            omega
          rw [hd]
          simp only [skipLexeme]
          rw [hlex, hs, List.drop_append_of_le_length hle]
        rw [scan_of_get_ok h hg] at hf ⊢
        rw [scan_of_get_ok hne' (get_eq_ok ht')]
        obtain ⟨hf', hw⟩ := ih _ hlt hrest hf rfl
        refine ⟨hf', ?_⟩
        simp only [Scan.words, List.map_cons, List.cons_append] at hw ⊢
        rw [hw]

/-- **A source in parentheses has its tokens in parentheses.** -/
theorem collect_parentheses {source : String} {ts : List Token} (h : (ofString source).collect.1 = .ok ts) :
    (ofString ("(" ++ source ++ ")")).collect.1 = .ok (.leftParen :: ts ++ [.rightParen]) := by
  rw [collect_eq_ok_iff] at h ⊢
  obtain ⟨hf, rfl⟩ := h
  generalize hc : ofString ("(" ++ source ++ ")") = c
  have hr : c.rest = '(' :: (source.toList ++ [')']) := by
    rw [← hc]
    simp [ofString, ofList]
  have hne : ¬ c.atEnd = true := by
    rw [atEnd, hr]
    exact fun h => by cases h
  have hs : c.skipSpaces.rest = c.rest := by
    simp only [skipSpaces, hr]
    rfl
  have ht : c.skipSpaces.token = .ok .leftParen := by
    unfold token
    rw [hs, hr]
    rfl
  have hrest : c.skipSpaces.skipLexeme.rest = (ofString source).rest ++ [')'] := by
    simp only [skipLexeme, hs, hr]
    rfl
  obtain ⟨hf', hw⟩ := scan_append_rightParen hrest hf
  rw [scan_of_get_ok hne (get_eq_ok ht)]
  refine ⟨hf', ?_⟩
  simp only [Scan.words, List.map_cons, List.cons_append] at hw ⊢
  rw [hw]

end Cursor
end Calculator
