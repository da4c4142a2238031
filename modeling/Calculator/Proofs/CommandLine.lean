import Calculator.CommandLine.Options
import Calculator.Proofs.Numeral
import Mathlib.Algebra.Group.Nat.Defs
/-!
# Proofs.CommandLine — every way to write a command line

A command line says a mode, a depth and an expression, each at most once and in any order (`IsCommandLine`).  An option
has its value in the next word or attached to it, and an expression that would be taken for an option stands at the end,
after the separator.

None of this matters for what is read.  The words of an option set its field whichever of its spellings they are
(`IsOption.read`), and since each part sets a field of its own, the order they come in is lost (`IsCommandLine.read`).
The one thing that is not followed is a depth of more than 64 bits.
-/
namespace Calculator

def OutputMode.word : OutputMode → String
  | eval => "eval"
  | tree => "tree"

def OptionName.word : OptionName → String
  | mode => "--mode"
  | maxDepth => "--max-depth"

/-- The words are this option with this value. -/
inductive IsOption (value : String) : OptionName → List String → Prop
  | apart (name) : IsOption value name [name.word, value]
  | attached (name) : IsOption value name [name.word ++ "=" ++ value]
  | short : IsOption value .mode ["-m", value]
  | shortAttached : IsOption value .mode ["-m" ++ value]
  | shortEquals : IsOption value .mode ["-m=" ++ value]

/-- The digits of a number, with so many zeros in front. -/
def paddedDigits (zeros n : Nat) : List Char := List.replicate zeros '0' ++ Nat.toDigits 10 n

/-- The word is this number in decimal, with zeros and a plus sign in front if wanted. -/
def IsDepth (n : Nat) (w : String) : Prop :=
  ∃ zeros, w.toList = paddedDigits zeros n ∨ w.toList = '+' :: paddedDigits zeros n

/-- The expression is not taken for an option. -/
def IsBare (e : String) : Prop := e.toList.head? ≠ some '-' ∨ e = "-"

/-- The words say what is given and nothing else: each part is put in front of words that do not have it yet. -/
inductive IsCommandLine : Given → List String → Prop
  | nil : IsCommandLine {} []
  | separated (e) : IsCommandLine { expr := some e } ["--", e]
  | bare {g e words} : g.expr = none → IsBare e → IsCommandLine g words →
      IsCommandLine { g with expr := some e } (e :: words)
  | mode {g m ws words} : g.mode = none → IsOption m.word .mode ws → IsCommandLine g words →
      IsCommandLine { g with mode := some m } (ws ++ words)
  | maxDepth {g n w ws words} : g.maxDepth = none → IsDepth n w → IsOption w .maxDepth ws → IsCommandLine g words →
      IsCommandLine { g with maxDepth := some n } (ws ++ words)

/-! ## Words -/

namespace Word

theorem ofString_of_head_ne {w : String} (h : w.toList.head? ≠ some '-') : ofString w = plain w := by
  rw [ofString]
  split
  case h_1 hw | h_2 hw | h_3 hw | h_4 hw => exact absurd (congrArg List.head? hw) h
  case h_5 => rfl

theorem ofString_of_isBare {e : String} (h : IsBare e) : ofString e = plain e := by
  rcases h with h | rfl
  · exact ofString_of_head_ne h
  · decide

theorem ofString_word (name : OptionName) : ofString name.word = option name none := by
  cases name <;> decide

theorem ofString_word_equals (name : OptionName) (v : String) :
    ofString (name.word ++ "=" ++ v) = option name (some v) := by
  have htext : (name.word ++ "=" ++ v).toList = name.word.toList ++ '=' :: v.toList := by
    rw [String.toList_append, String.toList_append, List.append_assoc]
    rfl
  have hlong : ofString (name.word ++ "=" ++ v) = option name (some (String.ofList v.toList)) := by
    rw [ofString, htext]
    cases name <;> rfl
  rwa [String.ofList_toList] at hlong

theorem ofString_m_equals (v : String) : ofString ("-m=" ++ v) = option .mode (some v) := by
  have hshort : ofString ("-m=" ++ v) = option .mode (some (String.ofList v.toList)) := by
    rw [ofString, String.toList_append]
    rfl
  rwa [String.ofList_toList] at hshort

end Word

/-- The text is taken for a value wherever it stands: it does not look like an option, nor does it begin with the sign
that may come before a value. -/
def IsValue (v : String) : Prop := ∃ c cs, v.toList = c :: cs ∧ c ≠ '-' ∧ c ≠ '='

namespace IsValue

variable {v : String} (h : IsValue v)
include h

theorem ofString_eq : Word.ofString v = .plain v := by
  obtain ⟨c, cs, hv, hminus, -⟩ := h
  exact Word.ofString_of_head_ne (by rw [hv]; exact fun hc => hminus (Option.some.inj hc))

theorem ofString_m_append : Word.ofString ("-m" ++ v) = .option .mode (some v) := by
  obtain ⟨c, cs, hv, -, hequals⟩ := h
  have hshort : Word.ofShort ('m' :: c :: cs) = .option .mode (some (String.ofList (c :: cs))) := by
    rw [Word.ofShort]
    · intro hnil
      cases hnil
    · intro value hvalue
      exact hequals (List.cons.inj hvalue).1
  have hword : Word.ofString ("-m" ++ v) = .option .mode (some (String.ofList v.toList)) := by
    rw [Word.ofString, String.toList_append, hv]
    exact hshort
  rwa [String.ofList_toList] at hword

end IsValue

theorem OutputMode.ofString?_word (m : OutputMode) : OutputMode.ofString? m.word = some m := by
  cases m <;> rfl

theorem OutputMode.isValue_word (m : OutputMode) : IsValue m.word := by
  cases m
  · exact ⟨'e', _, rfl, by decide, by decide⟩
  · exact ⟨'t', _, rfl, by decide, by decide⟩

/-! ## Depths -/

/-- Digits stand for a depth, with a plus sign in front of them and without one. -/
theorem depthOfString?_of_digits {w : String} {ds : List Char} (hw : w.toList = ds ∨ w.toList = '+' :: ds)
    (hne : ds ≠ []) (hds : ∀ c ∈ ds, c.isDigit = true) :
    depthOfString? w = if Nat.ofDigitChars 10 ds 0 < 2 ^ 64 then some (Nat.ofDigitChars 10 ds 0) else none := by
  have hpow : Nat.pow 2 64 = 2 ^ 64 := rfl
  have haccept : (!ds.isEmpty && ds.all Char.isDigit && decide (Nat.ofDigitChars 10 ds 0 < Nat.pow 2 64))
      = decide (Nat.ofDigitChars 10 ds 0 < 2 ^ 64) := by
    rw [List.isEmpty_eq_false_iff.2 hne, List.all_eq_true.2 hds, hpow]
    rfl
  rcases hw with hw | hw
  · rw [depthOfString?, hw]
    split
    · -- a plus sign is not a digit
      cases hds '+' List.mem_cons_self
    · simp only [haccept, decide_eq_true_eq]
  · rw [depthOfString?, hw]
    simp only [haccept, decide_eq_true_eq]

section
variable (zeros n : Nat)

theorem paddedDigits_ne_nil : paddedDigits zeros n ≠ [] := List.append_ne_nil_of_right_ne_nil _ Nat.toDigits_ne_nil

theorem isDigit_paddedDigits : ∀ c ∈ paddedDigits zeros n, c.isDigit = true := by
  intro c hc
  rcases List.mem_append.1 hc with hzero | hdigit
  · exact List.eq_of_mem_replicate hzero ▸ rfl
  · exact Decimal.isDigit_toDigits n c hdigit

theorem ofDigitChars_paddedDigits : Nat.ofDigitChars 10 (paddedDigits zeros n) 0 = n := by
  rw [paddedDigits, Nat.ofDigitChars_append, Nat.ofDigitChars_replicate_zero, Nat.mul_zero,
    Nat.ofDigitChars_ten_toDigits]

end

namespace IsDepth

variable {n : Nat} {w : String} (h : IsDepth n w)
include h

theorem isValue : IsValue w := by
  obtain ⟨zeros, hw | hw⟩ := h
  · obtain ⟨c, cs, hcs⟩ := List.exists_cons_of_ne_nil (paddedDigits_ne_nil zeros n)
    have hc : c.isDigit = true := isDigit_paddedDigits zeros n c (hcs ▸ List.mem_cons_self)
    refine ⟨c, cs, hw.trans hcs, ?_, ?_⟩
    · rintro rfl
      cases hc
    · rintro rfl
      cases hc
  · exact ⟨'+', _, hw, by decide, by decide⟩

/-- **A depth is read as itself if it fits in 64 bits**, and otherwise not at all. -/
theorem depthOfString?_eq : depthOfString? w = if n < 2 ^ 64 then some n else none := by
  obtain ⟨zeros, hw⟩ := h
  have hread := depthOfString?_of_digits hw (paddedDigits_ne_nil zeros n) (isDigit_paddedDigits zeros n)
  rwa [ofDigitChars_paddedDigits] at hread

end IsDepth

/-! ## Reading one part -/

namespace Given

variable (g : Given)

theorem read_apart {w v : String} {name : OptionName} (hw : Word.ofString w = .option name none)
    (hv : Word.ofString v = .plain v) (words : List String) :
    g.read (w :: v :: words) = g.setOption name v >>= fun g => g.read words := by
  rw [read, hw]
  simp only [hv]

theorem read_attached {w v : String} {name : OptionName} (hw : Word.ofString w = .option name (some v))
    (words : List String) : g.read (w :: words) = g.setOption name v >>= fun g => g.read words := by
  rw [read, hw]

variable {g}

theorem setExpr_eq (h : g.expr = none) (e : String) : g.setExpr e = .ok { g with expr := some e } := by
  rw [setExpr, h]
  rfl

theorem read_bare (h : g.expr = none) {e : String} (he : IsBare e) (words : List String) :
    g.read (e :: words) = { g with expr := some e }.read words := by
  rw [read, Word.ofString_of_isBare he]
  show g.setExpr e >>= _ = _
  rw [setExpr_eq h]
  rfl

theorem read_separated (h : g.expr = none) (e : String) : g.read ["--", e] = .ok { g with expr := some e } := by
  have hseparator : Word.ofString "--" = .separator := by decide
  rw [read, hseparator, readPlain, setExpr_eq h]
  rfl

theorem setOption_mode (h : g.mode = none) (m : OutputMode) :
    g.setOption .mode m.word = .ok { g with mode := some m } := by
  rw [setOption, h, m.ofString?_word]
  rfl

theorem setOption_maxDepth (h : g.maxDepth = none) {n : Nat} {w : String} (hw : IsDepth n w) :
    g.setOption .maxDepth w = if n < 2 ^ 64 then .ok { g with maxDepth := some n } else .error .badDepth := by
  have hfree : ¬ g.maxDepth.isSome = true := by
    rw [h]
    decide
  rw [setOption, if_neg hfree, hw.depthOfString?_eq]
  by_cases hn : n < 2 ^ 64
  · rw [if_pos hn, if_pos hn]
  · rw [if_neg hn, if_neg hn]

end Given

namespace IsOption

variable {g : Given} {ws : List String}

/-- **An option sets its field, in every spelling.** -/
theorem read {value : String} {name : OptionName} (h : IsOption value name ws) (hvalue : IsValue value) (g : Given)
    (words : List String) : g.read (ws ++ words) = g.setOption name value >>= fun g => g.read words := by
  cases h with
  | apart => exact g.read_apart (Word.ofString_word name) hvalue.ofString_eq words
  | attached => exact g.read_attached (Word.ofString_word_equals name value) words
  | short => exact g.read_apart (by decide) hvalue.ofString_eq words
  | shortAttached => exact g.read_attached hvalue.ofString_m_append words
  | shortEquals => exact g.read_attached (Word.ofString_m_equals value) words

theorem read_mode {m : OutputMode} (h : IsOption m.word .mode ws) (hg : g.mode = none) (words : List String) :
    g.read (ws ++ words) = { g with mode := some m }.read words := by
  rw [h.read m.isValue_word, Given.setOption_mode hg]
  rfl

theorem read_maxDepth {n : Nat} {w : String} (h : IsOption w .maxDepth ws) (hw : IsDepth n w) (hg : g.maxDepth = none)
    (words : List String) : g.read (ws ++ words)
      = if n < 2 ^ 64 then { g with maxDepth := some n }.read words else .error .badDepth := by
  rw [h.read hw.isValue, Given.setOption_maxDepth hg hw]
  split <;> rfl

end IsOption

/-! ## Reading all parts -/

namespace Given

/-- What two parts of a command line say together. -/
def and (g g' : Given) : Given := ⟨g.mode.or g'.mode, g.maxDepth.or g'.maxDepth, g.expr.or g'.expr⟩

/-- Nothing is said in both. -/
structure Disjoint (g g' : Given) : Prop where
  mode : g'.mode = none ∨ g.mode = none
  maxDepth : g'.maxDepth = none ∨ g.maxDepth = none
  expr : g'.expr = none ∨ g.expr = none

end Given

/-- **Reading a command line adds what it says to what was said before**, if that is something else and the depth fits
in 64 bits. -/
theorem IsCommandLine.read {g' : Given} {words : List String} (h : IsCommandLine g' words) {g : Given}
    (hg : g.Disjoint g') :
    g.read words = if ∀ n ∈ g'.maxDepth, n < 2 ^ 64 then .ok (g.and g') else .error .badDepth := by
  induction h generalizing g with
  | nil =>
    rw [if_pos (fun _ hn => nomatch hn), Given.read]
    simp [Given.and]
  | separated e =>
    have hexpr : g.expr = none := hg.expr.resolve_left (Option.some_ne_none _)
    rw [if_pos (fun _ hn => nomatch hn), Given.read_separated hexpr]
    simp [Given.and, hexpr]
  | @bare g' e words hfree he _ ih =>
    have hexpr : g.expr = none := hg.expr.resolve_left (Option.some_ne_none _)
    have hand : { g with expr := some e }.and g' = g.and { g' with expr := some e } := by
      simp [Given.and, hexpr]
    have hdisjoint : { g with expr := some e }.Disjoint g' := ⟨hg.mode, hg.maxDepth, .inl hfree⟩
    rw [Given.read_bare hexpr he, ih hdisjoint, hand]
  | @mode g' m ws words hfree hws _ ih =>
    have hmode : g.mode = none := hg.mode.resolve_left (Option.some_ne_none _)
    have hand : { g with mode := some m }.and g' = g.and { g' with mode := some m } := by
      simp [Given.and, hmode]
    have hdisjoint : { g with mode := some m }.Disjoint g' := ⟨.inl hfree, hg.maxDepth, hg.expr⟩
    rw [hws.read_mode hmode, ih hdisjoint, hand]
  | @maxDepth g' n w ws words hfree hw hws _ ih =>
    have hdepth : g.maxDepth = none := hg.maxDepth.resolve_left (Option.some_ne_none _)
    have hand : { g with maxDepth := some n }.and g' = g.and { g' with maxDepth := some n } := by
      simp [Given.and, hdepth]
    have hdisjoint : { g with maxDepth := some n }.Disjoint g' := ⟨hg.mode, .inl hfree, hg.expr⟩
    rw [hws.read_maxDepth hw hdepth, ih hdisjoint, hand]
    -- the words after it say no depth
    simp [hfree]

theorem IsCommandLine.read_start {g : Given} {words : List String} (h : IsCommandLine g words) :
    Given.read {} words = if ∀ n ∈ g.maxDepth, n < 2 ^ 64 then .ok g else .error .badDepth :=
  h.read ⟨.inr rfl, .inr rfl, .inr rfl⟩

/-- There is a command line for whatever can be said. -/
theorem exists_isCommandLine (g : Given) : ∃ words, IsCommandLine g words := by
  obtain ⟨mode, maxDepth, expr⟩ := g
  -- the separator lets any text be an expression
  have hexpr : ∃ words, IsCommandLine ⟨none, none, expr⟩ words := by
    cases expr with
    | none => exact ⟨_, .nil⟩
    | some e => exact ⟨_, .separated e⟩
  have hdepth : ∃ words, IsCommandLine ⟨none, maxDepth, expr⟩ words := by
    obtain ⟨words, hwords⟩ := hexpr
    cases maxDepth with
    | none => exact ⟨words, hwords⟩
    | some n =>
      have hn : IsDepth n n.repr := ⟨0, .inl Nat.toList_repr⟩
      exact ⟨_, .maxDepth rfl hn (.apart .maxDepth) hwords⟩
  obtain ⟨words, hwords⟩ := hdepth
  cases mode with
  | none => exact ⟨words, hwords⟩
  | some m => exact ⟨_, .mode rfl .short hwords⟩

/-- **Every mode and every limit of 64 bits can be asked for, with any expression or none.** -/
theorem Options.exists_parse (mode : OutputMode) {maxDepth : Nat} (h : maxDepth < 2 ^ 64) (expr : Option String) :
    ∃ args, Options.parse args = .ok ⟨mode, maxDepth, expr⟩ := by
  obtain ⟨args, hargs⟩ := exists_isCommandLine ⟨some mode, some maxDepth, expr⟩
  have hfits : ∀ n ∈ some maxDepth, n < 2 ^ 64 := fun n hn => Option.some.inj hn ▸ h
  refine ⟨args, ?_⟩
  rw [Options.parse, hargs.read_start, if_pos hfits]
  rfl

/-- **A command line is read as what it was made from**, in any spelling and any order; what was left out has its
default.  Only a depth that does not fit in 64 bits is refused. -/
theorem parse_commandLine {mode : Option OutputMode} {maxDepth : Option Nat} {expr : Option String}
    {words : List String} (h : IsCommandLine ⟨mode, maxDepth, expr⟩ words) :
    ((∀ n ∈ maxDepth, n < 2 ^ 64) →
      Options.parse words = .ok ⟨mode.getD .eval, maxDepth.getD 512, expr⟩) ∧
    ∀ n ∈ maxDepth, 2 ^ 64 ≤ n → Options.parse words = .error .badDepth := by
  refine ⟨fun hfits => ?_, fun n hn hlarge => ?_⟩
  · rw [Options.parse, h.read_start, if_pos hfits]
    rfl
  · rw [Options.parse, h.read_start, if_neg (fun hfits => Nat.not_lt.2 hlarge (hfits n hn))]
    rfl

/-- The name of an option is an expression after the separator, and zeros in front of a depth do not make it larger. -/
theorem parse_commandLine_separated :
    let words := ["--max-depth", "+007", "-mtree", "--", "--mode"]
    let refused := ["-", "--max-depth=0018446744073709551616"]
    IsCommandLine ⟨some .tree, some 7, some "--mode"⟩ words ∧
      Options.parse words = .ok ⟨.tree, 7, some "--mode"⟩ ∧
      IsCommandLine ⟨none, some (2 ^ 64), some "-"⟩ refused ∧ Options.parse refused = .error .badDepth := by
  intro words refused
  have hlarge : IsDepth (2 ^ 64) "0018446744073709551616" := ⟨2, .inl (by decide +kernel)⟩
  have hwords : IsCommandLine ⟨some .tree, some 7, some "--mode"⟩ words :=
    .maxDepth rfl ⟨2, .inr (by decide)⟩ (.apart .maxDepth) (.mode rfl .shortAttached (.separated "--mode"))
  have hrefused : IsCommandLine ⟨none, some (2 ^ 64), some "-"⟩ refused :=
    .bare rfl (.inr rfl) (.maxDepth rfl hlarge (.attached .maxDepth) .nil)
  exact ⟨hwords, (parse_commandLine hwords).1 (by decide), hrefused,
    (parse_commandLine hrefused).2 _ rfl (Nat.le_refl _)⟩

end Calculator
