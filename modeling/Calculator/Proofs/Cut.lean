import Calculator.Proofs.Spelling
import Mathlib.Data.String.Basic
/-!
# Proofs.Cut — a text as spaces and lexemes

`Cut` takes a text apart into runs of spaces and lexemes, each lexeme the longest where it stands.  It is a relation on
the text alone, without a cursor and without places.  A text can always be cut up to its end or to a character that
starts no lexeme (`exists_cut`), and what a cursor yields is read off that cut (`Cursor.scan_of_cut`); so the tokens of
a source are those of its cut, and an unrecognized symbol is the character behind the cut, at its place in bytes.
-/
namespace Calculator

/-- The text is spaces and longest lexemes, when another text comes after it. -/
inductive Cut (after : List Char) : List Char → List (List Char) → Prop
  | spaces {gap} : (∀ c ∈ gap, c = ' ') → Cut after gap []
  | lexeme {gap w rest ws} : (∀ c ∈ gap, c = ' ') → Longest w (rest ++ after) → Cut after rest ws →
      Cut after (gap ++ w ++ rest) (w :: ws)

/-! ## Spaces are no part of a lexeme -/

theorem isSpace_eq_false_of_isAlphanum {c : Char} (h : c.isAlphanum = true) : isSpace c = false := by
  rw [isSpace, beq_eq_false_iff_ne]
  rintro rfl
  cases h

theorem IsNumeral.isSpace {w : List Char} (h : IsNumeral w) : ∀ c ∈ w, isSpace c = false := by
  have hdigits : ∀ {ds : List Char}, (∀ c ∈ ds, c.isDigit = true) → ∀ c ∈ ds, Calculator.isSpace c = false :=
    fun hds c hc => isSpace_eq_false_of_isAlphanum (isAlphanum_of_isDigit (hds c hc))
  cases h with
  | whole _ hds => exact hdigits hds
  | pointed _ hds hfs =>
    intro c hc
    rcases List.mem_append.1 hc with hc | hc
    · exact hdigits hds c hc
    · rcases List.mem_cons.1 hc with rfl | hc
      · rfl
      · exact hdigits hfs c hc

theorem Spells.isSpace {w : List Char} {t : Token} (h : Spells w t) : ∀ c ∈ w, isSpace c = false := by
  cases h with
  | operator op => cases op <;> exact List.forall_mem_singleton.2 rfl
  | leftParen => exact List.forall_mem_singleton.2 rfl
  | rightParen => exact List.forall_mem_singleton.2 rfl
  | number hw => exact hw.isSpace
  | name hw =>
    obtain ⟨hc, hcs⟩ := hw
    exact List.forall_mem_cons.2 ⟨isSpace_eq_false_of_isAlphanum (isAlphanum_of_isAlpha hc),
      fun d hd => isSpace_eq_false_of_isAlphanum (hcs d hd)⟩

theorem isSpace_of_gap {gap : List Char} (h : ∀ c ∈ gap, c = ' ') : ∀ c ∈ gap, isSpace c = true :=
  fun c hc => by rw [h c hc]; rfl

theorem gap_of_isSpace {text : List Char} : ∀ c ∈ text.takeWhile isSpace, c = ' ' := fun c hc => by
  have : isSpace c = true := List.mem_takeWhile_imp hc
  simpa [isSpace] using this

theorem IsForeign.isSpace {c : Char} (h : IsForeign c) : isSpace c = false := by
  rw [Calculator.isSpace, beq_eq_false_iff_ne]
  exact h.1

/-- Nothing but the spaces in front is dropped, if no space comes after them. -/
theorem dropWhile_gap {gap text : List Char} (hgap : ∀ c ∈ gap, c = ' ') (htext : ∀ c ∈ text.head?, isSpace c = false) :
    (gap ++ text).dropWhile isSpace = text ∧ (gap ++ text).takeWhile isSpace = gap := by
  rw [List.dropWhile_append_of_pos (isSpace_of_gap hgap), List.takeWhile_append_of_pos (isSpace_of_gap hgap)]
  cases text with
  | nil => exact ⟨rfl, List.append_nil gap⟩
  | cons c cs =>
    have hc : ¬ isSpace c = true := by
      rw [htext c rfl]
      decide
    rw [List.dropWhile_cons_of_neg hc, List.takeWhile_cons_of_neg hc, List.append_nil]
    exact ⟨rfl, rfl⟩

theorem Spells.head?_append {w : List Char} {t : Token} (h : Spells w t) (rest : List Char) :
    ∀ c ∈ (w ++ rest).head?, Calculator.isSpace c = false := by
  obtain ⟨d, ds, rfl⟩ := List.exists_cons_of_ne_nil h.ne_nil
  intro c hc
  cases hc
  exact h.isSpace d List.mem_cons_self

/-! ## Every text has a cut, and no other one -/

/-- **A text can be cut up to its end, or to a character that starts no lexeme.** -/
theorem exists_cut (text : List Char) :
    ∃ before after ws, text = before ++ after ∧ Cut after before ws ∧ ∀ c ∈ after.head?, IsForeign c := by
  induction hn : text.length using Nat.strongRecOn generalizing text with
  | ind n ih =>
    have htext := List.takeWhile_append_dropWhile (p := isSpace) (l := text)
    have hgap : ∀ c ∈ text.takeWhile isSpace, c = ' ' := gap_of_isSpace
    generalize text.takeWhile isSpace = gap at htext hgap
    cases hdrop : text.dropWhile isSpace with
    | nil =>
      rw [hdrop] at htext
      exact ⟨gap, [], [], htext.symm, .spaces hgap, fun c hc => by cases hc⟩
    | cons c cs =>
      have hc : isSpace c = false := by
        have := List.head?_dropWhile_not isSpace text
        rw [hdrop] at this
        simpa using this
      rw [hdrop] at htext
      by_cases hnil : lexeme (c :: cs) = []
      · refine ⟨gap, c :: cs, [], htext.symm, .spaces hgap, fun d hd => ?_⟩
        cases hd
        refine ⟨?_, lexeme_eq_nil_iff.1 hnil⟩
        rintro rfl
        cases hc
      · have hlen : ((c :: cs).drop (lexeme (c :: cs)).length).length < n := by
          have := congrArg List.length htext
          have := List.length_pos_iff.2 hnil
          rw [List.length_append] at *
          rw [List.length_drop]
          simp only [List.length_cons] at *
          omega
        obtain ⟨before, after, ws, hrest, hcut, hforeign⟩ := ih _ hlen _ rfl
        have hsplit := lexeme_append_drop (c :: cs)
        have hlongest := lexeme_longest hnil
        rw [hrest] at hsplit hlongest
        refine ⟨gap ++ lexeme (c :: cs) ++ before, after, _, ?_, .lexeme hgap hlongest hcut, hforeign⟩
        rw [← htext, ← hsplit]
        simp only [hsplit, List.append_assoc]

section
variable {after text : List Char}

/-- The lexemes are the text without its spaces. -/
theorem Cut.flatten {ws : List (List Char)} (h : Cut after text ws) :
    ws.flatten = text.filter (fun c => !isSpace c) := by
  have hnone : ∀ {gap : List Char}, (∀ c ∈ gap, c = ' ') → gap.filter (fun c => !isSpace c) = [] := fun hgap =>
    List.filter_eq_nil_iff.2 (fun c hc => by rw [isSpace_of_gap hgap c hc]; decide)
  induction h with
  | spaces hgap => exact (hnone hgap).symm
  | @lexeme gap w rest ws hgap hw _ ih =>
    obtain ⟨⟨t, ht⟩, -⟩ := hw
    have hall : w.filter (fun c => !isSpace c) = w :=
      List.filter_eq_self.2 (fun c hc => by rw [ht.isSpace c hc]; rfl)
    rw [List.flatten_cons, ih, List.filter_append, List.filter_append, hnone hgap, hall, List.nil_append]

theorem Cut.unique {ws ws' : List (List Char)} (h : Cut after text ws) (h' : Cut after text ws') : ws = ws' := by
  induction h generalizing ws' with
  | @spaces gap hgap =>
    cases h' with
    | spaces => rfl
    | @lexeme gap' w rest _ _ hw _ =>
      obtain ⟨⟨t, ht⟩, -⟩ := hw
      obtain ⟨d, ds, rfl⟩ := List.exists_cons_of_ne_nil ht.ne_nil
      have hd := ht.isSpace d List.mem_cons_self
      rw [isSpace_of_gap hgap d (by simp)] at hd
      cases hd
  | @lexeme gap w rest ws hgap hw _ ih =>
    obtain ⟨⟨t, ht⟩, -⟩ := id hw
    generalize htext : gap ++ w ++ rest = text at h'
    rw [List.append_assoc] at htext
    cases h' with
    | spaces hgap' =>
      obtain ⟨d, ds, rfl⟩ := List.exists_cons_of_ne_nil ht.ne_nil
      have hd := ht.isSpace d List.mem_cons_self
      rw [isSpace_of_gap hgap' d (by rw [← htext]; simp)] at hd
      cases hd
    | @lexeme gap' w' rest' ws' hgap' hw' hcut' =>
      obtain ⟨⟨t', ht'⟩, -⟩ := id hw'
      rw [List.append_assoc] at htext
      have hdrop := (dropWhile_gap hgap (ht.head?_append rest)).1
      rw [htext, (dropWhile_gap hgap' (ht'.head?_append rest')).1] at hdrop
      -- both lexemes are the one that `lexeme` cuts there
      have hlex := hw.lexeme_eq
      rw [← List.append_assoc, ← hdrop, List.append_assoc, hw'.lexeme_eq] at hlex
      subst hlex
      rw [List.append_cancel_left hdrop] at hcut'
      rw [ih hcut']

end

/-! ## Cuts of texts one after the other -/

theorem Cut.append {after text text' : List Char} {ws ws' : List (List Char)} (h : Cut (text' ++ after) text ws)
    (h' : Cut after text' ws') : Cut after (text ++ text') (ws ++ ws') := by
  have hgap : ∀ {gap gap' : List Char}, (∀ c ∈ gap, c = ' ') → (∀ c ∈ gap', c = ' ') → ∀ c ∈ gap ++ gap', c = ' ' :=
    fun hg hg' c hc => (List.mem_append.1 hc).elim (hg c) (hg' c)
  induction h with
  | spaces hg =>
    cases h' with
    | spaces hg' => exact .spaces (hgap hg hg')
    | lexeme hg' hw hcut =>
      rw [List.nil_append, List.append_assoc, ← List.append_assoc, ← List.append_assoc]
      exact .lexeme (hgap hg hg') hw hcut
  | @lexeme gap w rest ws hg hw _ ih =>
    rw [← List.append_assoc] at hw
    rw [List.append_assoc]
    exact .lexeme hg hw ih

/-! ## What a cursor yields -/

theorem byteCount_append : ∀ xs ys : List Char, byteCount (xs ++ ys) = byteCount xs + byteCount ys
  | [], ys => (Nat.zero_add (byteCount ys)).symm
  | x :: xs, ys => by
    rw [List.cons_append, byteCount, byteCount, byteCount_append xs ys, Nat.add_assoc]

theorem byteCount_eq_utf8Len : ∀ xs : List Char, byteCount xs = String.utf8Len xs
  | [] => rfl
  | x :: xs => by
    rw [byteCount, String.utf8Len_cons, byteCount_eq_utf8Len xs, Nat.add_comm]

namespace Cursor

theorem skipSpaces_of_gap {c : Cursor} {gap text : List Char} (hr : c.rest = gap ++ text) (hgap : ∀ x ∈ gap, x = ' ')
    (htext : ∀ x ∈ text.head?, isSpace x = false) :
    c.skipSpaces = ⟨c.source, text, c.offset + byteCount gap⟩ := by
  obtain ⟨hdrop, htake⟩ := dropWhile_gap hgap htext
  rw [skipSpaces, hr, hdrop, htake]

theorem not_atEnd_of_skipSpaces {c : Cursor} (h : c.skipSpaces.rest ≠ []) : ¬ c.atEnd = true := by
  intro hend
  exact h (List.dropWhile_eq_nil_iff.2 (fun x hx => List.all_eq_true.1 hend x hx))

theorem get_of_spells {c : Cursor} {w rest : List Char} {t : Token} (hr : c.skipSpaces.rest = w ++ rest)
    (hw : Longest w rest) (ht : Spells w t) :
    c.get = (.ok t, ⟨c.source, rest, c.skipSpaces.offset + byteCount w⟩) := by
  have hlex : lexeme c.skipSpaces.rest = w := by rw [hr, hw.lexeme_eq]
  have htoken : c.skipSpaces.token = .ok t := by
    rw [token, hlex, ht.ofLexeme?]
  have hdrop : c.skipSpaces.rest.drop w.length = rest := by rw [hr, List.drop_left]
  rw [get_eq_ok htoken, skipLexeme, hlex, hdrop]
  rfl

theorem get_of_foreign {c : Cursor} {x : Char} {xs : List Char} (hr : c.skipSpaces.rest = x :: xs) (hx : IsForeign x) :
    c.get = (.error (.unrecognizedSymbol x c.skipSpaces.offset), c.skipSpaces) := by
  have hlex : lexeme c.skipSpaces.rest = [] := by rw [hr, lexeme_eq_nil_iff]; exact hx.2
  have htoken : c.skipSpaces.token = .error (.unrecognizedSymbol x c.skipSpaces.offset) := by
    rw [token, hlex, hr]
    rfl
  rw [get, htoken]

/-- The first lexeme is a token at its place, and the scan goes on behind it. -/
theorem scan_of_lexeme {c : Cursor} {gap w rest : List Char} {t : Token} (hr : c.rest = gap ++ (w ++ rest))
    (hgap : ∀ x ∈ gap, x = ' ') (hw : Longest w rest) (ht : Spells w t) :
    ∃ c' : Cursor, c'.rest = rest ∧ c'.offset = c.offset + byteCount (gap ++ w) ∧
      c.scan = ⟨(t, c.offset + byteCount gap) :: c'.scan.tokens, c'.scan.fault⟩ := by
  have hs := skipSpaces_of_gap hr hgap (ht.head?_append rest)
  have hrest : c.skipSpaces.rest = w ++ rest := by rw [hs]
  have hend : ¬ c.atEnd = true := by
    refine not_atEnd_of_skipSpaces (fun hnil => ht.ne_nil ?_)
    rw [hrest] at hnil
    exact (List.append_eq_nil_iff.1 hnil).1
  refine ⟨⟨c.source, rest, c.skipSpaces.offset + byteCount w⟩, rfl, ?_, ?_⟩
  · rw [hs, byteCount_append, Nat.add_assoc]
  · rw [scan_of_get_ok hend (get_of_spells hrest hw ht), hs]

/-- **What a cursor yields is read off the cut before it.** -/
theorem scan_of_cut {before after : List Char} {ws : List (List Char)} (h : Cut after before ws)
    (hforeign : ∀ x ∈ after.head?, IsForeign x) : ∀ {c : Cursor}, c.rest = before ++ after →
      List.Forall₂ Spells ws c.scan.words ∧
        c.scan.fault = after.head?.map (fun x => .unrecognizedSymbol x (c.offset + byteCount before)) := by
  induction h with
  | @spaces gap hgap =>
    intro c hr
    have hs := skipSpaces_of_gap hr hgap (fun x hx => (hforeign x hx).isSpace)
    cases after with
    | nil =>
      have hend : c.atEnd = true := by
        rw [atEnd, hr, List.append_nil]
        exact List.all_eq_true.2 (isSpace_of_gap hgap)
      rw [scan_of_atEnd hend]
      exact ⟨.nil, rfl⟩
    | cons x xs =>
      have hrest : c.skipSpaces.rest = x :: xs := by rw [hs]
      have hend : ¬ c.atEnd = true := not_atEnd_of_skipSpaces (by rw [hrest]; exact List.cons_ne_nil _ _)
      rw [scan_of_get_error hend (get_of_foreign hrest (hforeign x rfl)), hs]
      exact ⟨.nil, rfl⟩
  | @lexeme gap w rest ws hgap hw _ ih =>
    intro c hr
    obtain ⟨⟨t, ht⟩, -⟩ := id hw
    rw [List.append_assoc, List.append_assoc] at hr
    obtain ⟨c', hrest, hoffset, hscan⟩ := scan_of_lexeme hr hgap hw ht
    obtain ⟨hwords, hfault⟩ := ih hrest
    rw [hscan]
    refine ⟨.cons ht hwords, hfault.trans ?_⟩
    rw [hoffset, byteCount_append (gap ++ w), Nat.add_assoc]

end Cursor

/-! ## Sources -/

/-- A source that cannot be cut to its end has an unrecognized symbol behind the cut. -/
theorem collect_of_cut {source : String} {before after : List Char} {ws : List (List Char)}
    (hs : source.toList = before ++ after) (h : Cut after before ws) (hforeign : ∀ x ∈ after.head?, IsForeign x) :
    (after = [] → ∃ ts, (Cursor.ofString source).collect.1 = .ok ts ∧ List.Forall₂ Spells ws ts) ∧
    (∀ x xs, after = x :: xs →
      (Cursor.ofString source).collect.1 = .error (.unrecognizedSymbol x (byteCount before))) := by
  obtain ⟨hwords, hfault⟩ := Cursor.scan_of_cut h hforeign (c := Cursor.ofString source) hs
  rw [Cursor.collect_eq_scan]
  constructor
  · rintro rfl
    rw [hfault]
    exact ⟨_, rfl, hwords⟩
  · rintro x xs rfl
    have hzero : (Cursor.ofString source).offset = 0 := rfl
    rw [hfault, hzero, Nat.zero_add]
    rfl

theorem forall₂_spells_unique {ws : List (List Char)} {ts ts' : List Token} (h : List.Forall₂ Spells ws ts)
    (h' : List.Forall₂ Spells ws ts') : ts = ts' := by
  induction h generalizing ts' with
  | nil =>
    cases h'
    rfl
  | cons ht _ ih =>
    cases h' with
    | cons ht' hts' => rw [ht.unique ht', ih hts']

theorem get?_of_byteCount {source : String} {before after : List Char} {x : Char}
    (h : source.toList = before ++ x :: after) :
    String.Pos.Raw.IsValid source ⟨byteCount before⟩ ∧ String.Pos.Raw.get? source ⟨byteCount before⟩ = some x := by
  have hs : source = String.ofList (before ++ x :: after) := by rw [← h, String.ofList_toList]
  rw [byteCount_eq_utf8Len, hs]
  refine ⟨?_, ?_⟩
  · rw [String.Pos.Raw.isValid_iff_exists_append]
    exact ⟨String.ofList before, String.ofList (x :: after), String.ofList_append,
      (String.rawEndPos_ofList before).symm⟩
  · rw [String.get?_of_valid]
    rfl

/-- **The tokens of a source are those of its longest lexemes, in order, and every character but the spaces is in one of
them.  A source that has no such cut to its end is cut up to a character that starts no lexeme, and that is the symbol
named, with the place in bytes where the source has it.**  No fault names a digit, and what starts with one is cut to a
numeral, so there is always a number to read it as. -/
theorem collect_eq_iff_cut (source : String) :
    (∀ ts, (Cursor.ofString source).collect.1 = .ok ts ↔
      ∃ ws, Cut [] source.toList ws ∧ List.Forall₂ Spells ws ts) ∧
    (∀ ws, Cut [] source.toList ws → ws.flatten = source.toList.filter (fun c => !isSpace c)) ∧
    (∀ after text ws ws', Cut after text ws → Cut after text ws' → ws = ws') ∧
    (∀ e, (Cursor.ofString source).collect.1 = .error e ↔
      ∃ before symbol after ws, source.toList = before ++ symbol :: after ∧ Cut (symbol :: after) before ws ∧
        IsForeign symbol ∧ e = .unrecognizedSymbol symbol (byteCount before)) ∧
    (∀ symbol offset, (Cursor.ofString source).collect.1 = .error (.unrecognizedSymbol symbol offset) →
      String.Pos.Raw.IsValid source ⟨offset⟩ ∧ String.Pos.Raw.get? source ⟨offset⟩ = some symbol) ∧
    (Cursor.ofString source).collect.1 ≠ .error .endOfInput ∧
    (∀ c cs, c.isDigit = true → IsNumeral (numeral (c :: cs))) := by
  have herror : ∀ e, (Cursor.ofString source).collect.1 = .error e ↔
      ∃ before symbol after ws, source.toList = before ++ symbol :: after ∧ Cut (symbol :: after) before ws ∧
        IsForeign symbol ∧ e = .unrecognizedSymbol symbol (byteCount before) := by
    intro e
    constructor
    · intro he
      obtain ⟨before, after, ws, hs, hcut, hforeign⟩ := exists_cut source.toList
      obtain ⟨hok, hfail⟩ := collect_of_cut hs hcut hforeign
      cases after with
      | nil =>
        obtain ⟨ts, hts, -⟩ := hok rfl
        cases hts.symm.trans he
      | cons x xs =>
        have := (hfail x xs rfl).symm.trans he
        injection this with this
        exact ⟨before, x, xs, ws, hs, hcut, hforeign x rfl, this.symm⟩
    · rintro ⟨before, x, xs, ws, hs, hcut, hx, rfl⟩
      refine (collect_of_cut hs hcut (fun y hy => ?_)).2 x xs rfl
      cases hy
      exact hx
  refine ⟨fun ts => ?_, fun ws hcut => hcut.flatten,
    fun after text ws ws' h h' => h.unique h', herror, fun x n he => ?_,
    fun he => ?_, fun c cs hc => isNumeral_numeral hc⟩
  · constructor
    · intro hts
      obtain ⟨before, after, ws, hs, hcut, hforeign⟩ := exists_cut source.toList
      obtain ⟨hok, hfail⟩ := collect_of_cut hs hcut hforeign
      cases after with
      | nil =>
        obtain ⟨ts', hts', hspells⟩ := hok rfl
        have := hts.symm.trans hts'
        injection this with this
        rw [List.append_nil] at hs
        exact ⟨ws, hs ▸ hcut, this ▸ hspells⟩
      | cons x xs => cases (hfail x xs rfl).symm.trans hts
    · rintro ⟨ws, hcut, hspells⟩
      have hs : source.toList = source.toList ++ [] := (List.append_nil _).symm
      obtain ⟨ts', hts', hspells'⟩ := (collect_of_cut hs hcut (fun x hx => by cases hx)).1 rfl
      rw [hts', forall₂_spells_unique hspells hspells']
  · obtain ⟨before, y, after, ws, hs, -, -, hy⟩ := (herror _).1 he
    obtain ⟨rfl, rfl⟩ := Fault.unrecognizedSymbol.inj hy
    exact get?_of_byteCount hs
  · obtain ⟨_, _, _, _, _, _, _, h⟩ := (herror _).1 he
    cases h

theorem collect_eq_iff_cut_point :
    String.Pos.Raw.IsValid "4.5.6" ⟨3⟩ ∧ String.Pos.Raw.get? "4.5.6" ⟨3⟩ = some '.' := by
  refine (collect_eq_iff_cut "4.5.6").2.2.2.2.1 '.' 3 ?_
  rw [Cursor.collect_eq_scan, Cursor.scan_of_get_ok (by decide) rfl, Cursor.scan_of_get_error (by decide) rfl]
  rfl

end Calculator
