import Calculator.Proofs.Lexing
/-!
# Proofs.Spelling — what a lexeme is, and that the longest one is cut

`Spells` says of a text that it is a lexeme, and of which token: a relation, with no word on how lexemes are found.
`lexeme` cuts the longest text at the front that spells something (`lexeme_longest`), and reads it as what it spells.
-/
namespace Calculator

/-- Digits, then optionally a point and more digits, or none. -/
inductive IsNumeral : List Char → Prop
  | whole {ds} : ds ≠ [] → (∀ c ∈ ds, c.isDigit = true) → IsNumeral ds
  | pointed {ds fs} : ds ≠ [] → (∀ c ∈ ds, c.isDigit = true) → (∀ c ∈ fs, c.isDigit = true) →
      IsNumeral (ds ++ '.' :: fs)

/-- A letter, then letters and digits. -/
inductive IsName : List Char → Prop
  | intro {c cs} : c.isAlpha = true → (∀ d ∈ cs, d.isAlphanum = true) → IsName (c :: cs)

/-- The text is a lexeme of the token. -/
inductive Spells : List Char → Token → Prop
  | operator (op : Operator) : Spells [op.symbol] (.operator op)
  | leftParen : Spells ['('] .leftParen
  | rightParen : Spells [')'] .rightParen
  | number {w} : IsNumeral w → Spells w (.number (Decimal.ofNumeral w).toFloat)
  | name {w} : IsName w → Spells w (.name (String.ofList w))

/-- A lexeme that no longer one starts with where it stands, before the rest. -/
def Longest (w rest : List Char) : Prop :=
  (∃ t, Spells w t) ∧ ∀ v t, Spells v t → v <+: w ++ rest → v.length ≤ w.length

/-- What no lexeme starts with, and no run of spaces. -/
def IsForeign (c : Char) : Prop :=
  c ≠ ' ' ∧ c ∉ ['+', '-', '*', '/', '(', ')'] ∧ c.isAlpha = false ∧ c.isDigit = false

/-! ## Classes of characters -/

theorem isDigit_eq_false_of_isAlpha {c : Char} (h : c.isAlpha = true) : c.isDigit = false := by
  delta Char.isAlpha Char.isUpper Char.isLower at h
  delta Char.isDigit
  simp only [Bool.or_eq_true, Bool.and_eq_true, decide_eq_true_iff, Bool.and_eq_false_iff, decide_eq_false_iff_not,
    UInt32.le_iff_toNat_le, ge_iff_le] at h ⊢
  have h0 : ('0' : Char).val.toNat = 48 ∧ ('9' : Char).val.toNat = 57 ∧ ('A' : Char).val.toNat = 65 ∧
    ('a' : Char).val.toNat = 97 := by decide
  omega

theorem Token.ofChar?_eq_none_iff {c : Char} :
    Token.ofChar? c = none ↔ c ∉ ['+', '-', '*', '/', '(', ')'] := by
  unfold Token.ofChar? Operator.ofChar?
  constructor
  · intro h hc
    simp only [List.mem_cons, List.not_mem_nil, or_false] at hc
    rcases hc with rfl | rfl | rfl | rfl | rfl | rfl <;> cases h
  · intro hc
    simp only [List.mem_cons, List.not_mem_nil, not_or] at hc
    split
    · exact absurd rfl hc.2.2.2.2.1
    · exact absurd rfl hc.2.2.2.2.2.1
    · split
      · exact absurd rfl hc.1
      · exact absurd rfl hc.2.1
      · exact absurd rfl hc.2.2.1
      · exact absurd rfl hc.2.2.2.1
      · rfl

theorem Token.ofChar?_of_isAlphanum {c : Char} (h : c.isAlphanum = true) : Token.ofChar? c = none := by
  rw [ofChar?_eq_none_iff]
  intro hc
  simp only [List.mem_cons, List.not_mem_nil, or_false] at hc
  rcases hc with rfl | rfl | rfl | rfl | rfl | rfl <;> cases h

theorem isAlphanum_of_isDigit {c : Char} (h : c.isDigit = true) : c.isAlphanum = true := by
  rw [Char.isAlphanum, h, Bool.or_true]

theorem isAlphanum_of_isAlpha {c : Char} (h : c.isAlpha = true) : c.isAlphanum = true := by
  rw [Char.isAlphanum, h, Bool.true_or]

/-! ## Numerals -/

theorem prefix_takeWhile_of_forall {p : Char → Bool} {ds text : List Char} (hds : ∀ c ∈ ds, p c = true)
    (h : ds <+: text) : ds <+: text.takeWhile p := by
  obtain ⟨rest, rfl⟩ := h
  rw [List.takeWhile_append_of_pos hds]
  exact List.prefix_append _ _

theorem isNumeral_numeral {c : Char} {cs : List Char} (h : c.isDigit = true) : IsNumeral (numeral (c :: cs)) := by
  have hne : (c :: cs).takeWhile Char.isDigit ≠ [] := by
    rw [List.takeWhile_cons_of_pos h]
    exact List.cons_ne_nil _ _
  have hall : ∀ d ∈ (c :: cs).takeWhile Char.isDigit, d.isDigit = true := fun d hd => List.mem_takeWhile_imp hd
  unfold numeral
  split
  · exact .pointed hne hall (fun d hd => List.mem_takeWhile_imp hd)
  · rw [List.append_nil]
    exact .whole hne hall

theorem IsNumeral.length_le {w text : List Char} (h : IsNumeral w) (hw : w <+: text) :
    w.length ≤ (numeral text).length := by
  cases h with
  | whole hne hds =>
    have := (prefix_takeWhile_of_forall hds hw).length_le
    rw [numeral, List.length_append]
    omega
  | @pointed ds fs hne hds hfs =>
    obtain ⟨rest, rfl⟩ := hw
    have hstop : Char.isDigit '.' = false := rfl
    have htake : (ds ++ '.' :: (fs ++ rest)).takeWhile Char.isDigit = ds := by
      rw [takeWhile_append_cons hstop, List.takeWhile_eq_self_iff.2 hds]
    have hdrop : (ds ++ '.' :: (fs ++ rest)).dropWhile Char.isDigit = '.' :: (fs ++ rest) := by
      rw [dropWhile_append_cons hstop, List.dropWhile_eq_nil_iff.2 hds]
      rfl
    have := (prefix_takeWhile_of_forall hfs (List.prefix_append fs rest)).length_le
    rw [List.append_assoc, List.cons_append, numeral, htake, hdrop]
    simp only [List.length_append, List.length_cons]
    omega

theorem IsNumeral.exists_cons {w : List Char} (h : IsNumeral w) : ∃ c cs, w = c :: cs ∧ c.isDigit = true := by
  cases h with
  | whole hne hds =>
    obtain ⟨c, cs, rfl⟩ := List.exists_cons_of_ne_nil hne
    exact ⟨c, cs, rfl, hds c List.mem_cons_self⟩
  | @pointed ds fs hne hds _ =>
    obtain ⟨c, cs, rfl⟩ := List.exists_cons_of_ne_nil hne
    exact ⟨c, cs ++ '.' :: fs, rfl, hds c List.mem_cons_self⟩

/-! ## What is spelled is read -/

theorem Spells.ofLexeme? {w : List Char} {t : Token} (h : Spells w t) : Token.ofLexeme? w = some t := by
  cases h with
  | operator op => cases op <;> rfl
  | leftParen => rfl
  | rightParen => rfl
  | number hw =>
    obtain ⟨c, cs, rfl, hc⟩ := hw.exists_cons
    simp only [Token.ofLexeme?, Token.ofChar?_of_isAlphanum (isAlphanum_of_isDigit hc), hc, if_true]
  | name hw =>
    obtain ⟨hc, -⟩ := hw
    simp only [Token.ofLexeme?, Token.ofChar?_of_isAlphanum (isAlphanum_of_isAlpha hc), isDigit_eq_false_of_isAlpha hc,
      hc, if_true]
    rfl

theorem Spells.unique {w : List Char} {t t' : Token} (h : Spells w t) (h' : Spells w t') : t = t' := by
  have := h.ofLexeme?.symm.trans h'.ofLexeme?
  injection this

/-- A symbol of one character is a lexeme at once, whatever follows it. -/
theorem lexeme_of_ofChar? {c : Char} {t : Token} (h : Token.ofChar? c = some t) (cs : List Char) :
    lexeme (c :: cs) = [c] := by
  rw [lexeme, h]
  rfl

theorem lexeme_of_isDigit {c : Char} (h : c.isDigit = true) (cs : List Char) :
    lexeme (c :: cs) = numeral (c :: cs) := by
  rw [lexeme, Token.ofChar?_of_isAlphanum (isAlphanum_of_isDigit h), if_neg (by decide), if_pos h]

theorem lexeme_of_isAlpha {c : Char} (h : c.isAlpha = true) (cs : List Char) :
    lexeme (c :: cs) = (c :: cs).takeWhile Char.isAlphanum := by
  have hd : ¬ c.isDigit = true := by
    rw [isDigit_eq_false_of_isAlpha h]
    decide
  rw [lexeme, Token.ofChar?_of_isAlphanum (isAlphanum_of_isAlpha h), if_neg (by decide), if_neg hd, if_pos h]

theorem spells_of_ofChar? {c : Char} {t : Token} (h : Token.ofChar? c = some t) : Spells [c] t := by
  unfold Token.ofChar? at h
  split at h
  · cases h
    exact .leftParen
  · cases h
    exact .rightParen
  · obtain ⟨op, hop, rfl⟩ := Option.map_eq_some_iff.1 h
    obtain rfl : c = op.symbol := by
      unfold Operator.ofChar? at hop
      split at hop <;> cases hop <;> rfl
    exact .operator op

/-! ## The longest lexeme -/

theorem lexeme_eq_nil_iff {c : Char} {cs : List Char} :
    lexeme (c :: cs) = [] ↔ c ∉ ['+', '-', '*', '/', '(', ')'] ∧ c.isAlpha = false ∧ c.isDigit = false := by
  rw [← Token.ofChar?_eq_none_iff]
  cases hc : Token.ofChar? c with
  | some t => simp [lexeme_of_ofChar? hc]
  | none =>
    by_cases hd : c.isDigit = true
    · rw [lexeme_of_isDigit hd]
      have hnumeral : IsNumeral (numeral (c :: cs)) := isNumeral_numeral hd
      obtain ⟨d, ds, hn, -⟩ := hnumeral.exists_cons
      simp [hn, hd]
    · by_cases ha : c.isAlpha = true
      · simp [lexeme_of_isAlpha ha, isAlphanum_of_isAlpha ha, ha]
      · simp [lexeme, hc, hd, ha]

theorem spells_lexeme {text : List Char} (h : lexeme text ≠ []) : ∃ t, Spells (lexeme text) t := by
  cases text with
  | nil => exact absurd rfl h
  | cons c cs =>
    cases hc : Token.ofChar? c with
    | some t =>
      rw [lexeme_of_ofChar? hc]
      exact ⟨t, spells_of_ofChar? hc⟩
    | none =>
      by_cases hd : c.isDigit = true
      · rw [lexeme_of_isDigit hd]
        exact ⟨_, .number (isNumeral_numeral hd)⟩
      · by_cases ha : c.isAlpha = true
        · rw [lexeme_of_isAlpha ha, List.takeWhile_cons_of_pos (isAlphanum_of_isAlpha ha)]
          exact ⟨_, .name (.intro ha (fun d hd => List.mem_takeWhile_imp hd))⟩
        · exact absurd (lexeme_eq_nil_iff.2 ⟨Token.ofChar?_eq_none_iff.1 hc, by simpa using ha, by simpa using hd⟩) h

theorem Spells.length_le {w text : List Char} {t : Token} (h : Spells w t) (hw : w <+: text) :
    w.length ≤ (lexeme text).length := by
  have hsymbol : ∀ {c : Char}, (Token.ofChar? c).isSome = true → [c] <+: text → 1 ≤ (lexeme text).length := by
    rintro c hc ⟨rest, rfl⟩
    obtain ⟨u, hu⟩ := Option.isSome_iff_exists.1 hc
    rw [List.singleton_append, lexeme_of_ofChar? hu]
    exact Nat.le_refl _
  cases h with
  | operator op => exact hsymbol (by cases op <;> rfl) hw
  | leftParen => exact hsymbol rfl hw
  | rightParen => exact hsymbol rfl hw
  | number hn =>
    have hle := hn.length_le hw
    obtain ⟨c, cs, rfl, hc⟩ := hn.exists_cons
    obtain ⟨rest, rfl⟩ := hw
    rw [List.cons_append] at hle ⊢
    rwa [lexeme_of_isDigit hc]
  | name hn =>
    obtain ⟨hc, hcs⟩ := hn
    have hall := prefix_takeWhile_of_forall (List.forall_mem_cons.2 ⟨isAlphanum_of_isAlpha hc, hcs⟩) hw
    obtain ⟨rest, rfl⟩ := hw
    rw [List.cons_append] at hall ⊢
    rw [lexeme_of_isAlpha hc]
    exact hall.length_le

/-- **`lexeme` cuts the longest lexeme.** -/
theorem lexeme_longest {text : List Char} (h : lexeme text ≠ []) :
    Longest (lexeme text) (text.drop (lexeme text).length) := by
  refine ⟨spells_lexeme h, fun v t hv hprefix => ?_⟩
  rw [lexeme_append_drop] at hprefix
  exact hv.length_le hprefix

theorem Spells.ne_nil {w : List Char} {t : Token} (h : Spells w t) : w ≠ [] := by
  rintro rfl
  cases h.ofLexeme?

/-- **A longest lexeme is what `lexeme` cuts.** -/
theorem Longest.lexeme_eq {w rest : List Char} (h : Longest w rest) : lexeme (w ++ rest) = w := by
  obtain ⟨⟨t, ht⟩, hlongest⟩ := h
  have hle := ht.length_le (List.prefix_append w rest)
  have hne : lexeme (w ++ rest) ≠ [] := by
    intro hnil
    rw [hnil] at hle
    exact ht.ne_nil (List.length_eq_zero_iff.1 (Nat.le_zero.1 hle))
  obtain ⟨u, hu⟩ := spells_lexeme hne
  have hprefix : lexeme (w ++ rest) <+: w ++ rest := ⟨_, lexeme_append_drop (w ++ rest)⟩
  exact List.prefix_of_prefix_length_le hprefix (List.prefix_append w rest) (hlongest _ u hu hprefix)
    |>.eq_of_length_le hle

/-! ## Where a lexeme ends -/

/-- No lexeme goes on into the text. -/
def Stops (text : List Char) : Prop := ∀ c ∈ text.head?, c.isAlphanum = false ∧ c ≠ '.'

theorem stops_nil : Stops [] := fun _ hc => nomatch hc

theorem stops_cons {c : Char} (ha : c.isAlphanum = false) (hp : c ≠ '.') (text : List Char) : Stops (c :: text) := by
  intro d hd
  cases hd
  exact ⟨ha, hp⟩

theorem Spells.lexeme_eq {w : List Char} {t : Token} (h : Spells w t) : lexeme w = w := by
  have hprefix : lexeme w <+: w := ⟨_, lexeme_append_drop w⟩
  exact hprefix.eq_of_length_le (h.length_le List.prefix_rfl)

theorem longest_of_lexeme_eq {w rest : List Char} (hne : w ≠ []) (h : lexeme (w ++ rest) = w) : Longest w rest := by
  have hlongest : Longest (lexeme (w ++ rest)) _ := lexeme_longest (by rw [h]; exact hne)
  rwa [h, List.drop_left] at hlongest

theorem Spells.longest {w rest : List Char} {t : Token} (h : Spells w t) (hrest : Stops rest) : Longest w rest := by
  refine longest_of_lexeme_eq h.ne_nil ?_
  cases rest with
  | nil => rw [List.append_nil, h.lexeme_eq]
  | cons c cs =>
    obtain ⟨ha, hp⟩ := hrest c rfl
    rw [lexeme_append_cons ha hp h.ne_nil, h.lexeme_eq]

/-! ## The tokens of a source are spelled -/

theorem Cursor.spells_of_get_ok {c c' : Cursor} {t : Token} (h : c.get = (.ok t, c')) : ∃ w, Spells w t := by
  obtain ⟨ht, -⟩ := token_of_get_ok h
  unfold token at ht
  split at ht
  · rename_i u hu
    cases ht
    have hne : lexeme c.skipSpaces.rest ≠ [] := by
      intro hnil
      rw [hnil] at hu
      cases hu
    obtain ⟨u, hw⟩ := spells_lexeme hne
    have htu := hw.ofLexeme?.symm.trans hu
    injection htu with htu
    exact ⟨_, htu ▸ hw⟩
  · cases ht
  · cases ht

theorem Cursor.spells_of_mem_words {c : Cursor} {t : Token} (h : t ∈ c.scan.words) : ∃ w, Spells w t := by
  induction hn : c.rest.length using Nat.strongRecOn generalizing c with
  | ind n ih =>
    by_cases hend : c.atEnd = true
    · rw [scan_of_atEnd hend] at h
      cases h
    · rcases hg : c.get with ⟨e | u, c'⟩
      · rw [scan_of_get_error hend hg] at h
        cases h
      · rw [scan_of_get_ok hend hg] at h
        rcases List.mem_cons.1 h with rfl | h
        · exact spells_of_get_ok hg
        · exact ih _ (hn ▸ length_get_lt c c' u hg) h rfl

end Calculator
