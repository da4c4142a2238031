import Calculator.Proofs.Acceptance
import Calculator.Proofs.Bits
import Calculator.Proofs.Cut
import Calculator.Proofs.Numeral
import Mathlib.Data.List.Forall2
/-!
# Proofs.Rendering — the trees that can be written

A tree can be written if its numbers have neither sign nor NaN, its names are names and its calls have one argument at
most (`Expr.IsWritable`).  Its `rendering` has parentheses around every operation and its numbers written out exactly,
so each part reads as a primary wherever it stands, and the whole reads back as the tree.  Conversely no source reads as
any other tree, since a numeral has no sign and a name is cut as one.

Infinity is written as the power of two where the finite doubles end, which no double comes nearer to.
-/
namespace Calculator

/-- The value of a nonnegative double, every digit written out. -/
def Binary64.literal (x : Float) : List Char := (exact (magnitude x)).plain.toList

namespace Expr

/-- Every operation in parentheses, without spaces.  A call has no notation for more than one argument. -/
def rendering : Expr → List Char
  | .number x => Binary64.literal x
  | .name id => id.toList
  | .binary op l r => '(' :: (l.rendering ++ op.symbol :: (r.rendering ++ [')']))
  | .negate e => '(' :: '-' :: (e.rendering ++ [')'])
  | .call id [] => id.toList ++ ['(', ')']
  | .call id (e :: _) => id.toList ++ '(' :: (e.rendering ++ [')'])

def tokens : Expr → List Token
  | .number x => [.number x]
  | .name id => [.name id]
  | .binary op l r => .leftParen :: (l.tokens ++ .operator op :: (r.tokens ++ [.rightParen]))
  | .negate e => .leftParen :: .operator .minus :: (e.tokens ++ [.rightParen])
  | .call id [] => [.name id, .leftParen, .rightParen]
  | .call id (e :: _) => .name id :: .leftParen :: (e.tokens ++ [.rightParen])

/-- The numbers have neither sign nor NaN, the names are names, and no call has more than one argument. -/
inductive IsWritable : Expr → Prop
  | number {x} : Binary64.isNegative x = false → x.isNaN = false → IsWritable (.number x)
  | name {id} : IsName id.toList → IsWritable (.name id)
  | binary {op l r} : IsWritable l → IsWritable r → IsWritable (.binary op l r)
  | negate {e} : IsWritable e → IsWritable (.negate e)
  | emptyCall {id} : IsName id.toList → IsWritable (.call id [])
  | call {id e} : IsName id.toList → IsWritable e → IsWritable (.call id [e])

end Expr

/-! ## Literals -/

namespace Binary64

/-- **A literal is exact**: it has the value of its double, in units of `2 ^ -1074`. -/
theorem literal_value (x : Float) :
    (Decimal.ofNumeral (literal x)).digits * Nat.pow 2 1074
      = units (magnitude x) * Nat.pow 10 (Decimal.ofNumeral (literal x)).scale := by
  have hvalue := exact_value (magnitude x)
  obtain ⟨k, hdigits, hscale⟩ := (exact (magnitude x)).exists_ofNumeral_plain
  have hpow : Nat.pow 10 (exact (magnitude x)).scale
      = Nat.pow 10 (Decimal.ofNumeral (literal x)).scale * Nat.pow 10 k := by
    rw [hscale]
    exact Nat.pow_add 10 _ _
  rw [hpow, hdigits, Nat.mul_right_comm, ← Nat.mul_assoc] at hvalue
  exact Nat.mul_right_cancel (Nat.pow_pos (by decide)) hvalue

/-- The literal of infinity is the power of two at which the finite doubles end. -/
theorem literal_infinity {x : Float} (h : magnitude x = infinity) :
    (Decimal.ofNumeral (literal x)).digits = Nat.pow 2 1024 * Nat.pow 10 (Decimal.ofNumeral (literal x)).scale := by
  have hvalue := literal_value x
  have hsum : 52 + doublings infinity = 1024 + 1074 := by decide
  rw [h] at hvalue
  generalize 1024 = j at hsum ⊢
  generalize 1074 = k at hsum hvalue
  rw [units_eq_pow (by decide) hsum, Nat.mul_right_comm] at hvalue
  exact Nat.mul_right_cancel (Nat.pow_pos (by decide)) hvalue

theorem spells_literal {x : Float} (hs : isNegative x = false) (hn : x.isNaN = false) :
    Spells (literal x) (.number x) := by
  have hread : (Decimal.ofNumeral (literal x)).toFloat = x := by
    rw [Decimal.toFloat, literal, Decimal.nearest_ofNumeral_plain, nearest_exact (magnitude_le_infinity hn),
      ofMagnitude_magnitude hs]
  have hspells := Spells.number (exact (magnitude x)).isNumeral_plain
  rwa [← literal, hread] at hspells

end Binary64

theorem Decimal.nearest_le_infinity (d : Decimal) : d.nearest ≤ Binary64.infinity := Nat.min_le_right _ _

theorem IsName.spells {id : String} (h : IsName id.toList) : Spells id.toList (.name id) := by
  have hspells := Spells.name h
  rwa [String.ofList_toList] at hspells

/-! ## The tokens of a rendering -/

/-- The text is cut into lexemes of the tokens, when another text comes after it. -/
def Writes (after text : List Char) (ts : List Token) : Prop := ∃ ws, Cut after text ws ∧ List.Forall₂ Spells ws ts

namespace Writes

variable {after text text' : List Char} {ts ts' : List Token}

theorem nil : Writes after [] [] := ⟨[], .spaces (List.forall_mem_nil _), .nil⟩

theorem append (h : Writes (text' ++ after) text ts) (h' : Writes after text' ts') :
    Writes after (text ++ text') (ts ++ ts') := by
  obtain ⟨ws, hcut, hspells⟩ := h
  obtain ⟨ws', hcut', hspells'⟩ := h'
  exact ⟨ws ++ ws', hcut.append hcut', List.rel_append hspells hspells'⟩

theorem lexeme {w : List Char} {t : Token} (hw : Longest w (text ++ after)) (ht : Spells w t)
    (h : Writes after text ts) : Writes after (w ++ text) (t :: ts) := by
  obtain ⟨ws, hcut, hspells⟩ := h
  exact ⟨w :: ws, .lexeme (List.forall_mem_nil _) hw hcut, .cons ht hspells⟩

/-- A lexeme of any kind goes before what it does not go on into. -/
theorem spelled {w : List Char} {t : Token} (hw : Spells w t) (hs : Stops (text ++ after)) (h : Writes after text ts) :
    Writes after (w ++ text) (t :: ts) := h.lexeme (hw.longest hs) hw

/-- A symbol of one character goes before anything. -/
theorem symbol {c : Char} {t : Token} (hc : Token.ofChar? c = some t) (h : Writes after text ts) :
    Writes after (c :: text) (t :: ts) :=
  lexeme (w := [c]) (longest_of_lexeme_eq (List.cons_ne_nil _ _) (lexeme_of_ofChar? hc _)) (spells_of_ofChar? hc) h

end Writes

theorem Spells.writes {w : List Char} {t : Token} (h : Spells w t) {after : List Char} (hafter : Stops after) :
    Writes after w [t] := by
  have hwrites : Writes after (w ++ []) [t] := Writes.nil.spelled h hafter
  rwa [List.append_nil] at hwrites

theorem collect_of_writes {source : String} {ts : List Token} (h : Writes [] source.toList ts) :
    (Cursor.ofString source).collect.1 = .ok ts := by
  obtain ⟨ws, hcut, hspells⟩ := h
  obtain ⟨ts', hts, hspells'⟩ := (collect_of_cut (List.append_nil _).symm hcut (fun _ hc => nomatch hc)).1 rfl
  rwa [forall₂_spells_unique hspells' hspells] at hts

/-- A source that writes the tokens of an expression is read as it, if the limit allows for the height. -/
theorem Expr.parse_of_writes {source : String} {ts : List Token} {e : Expr} (hw : Writes [] source.toList ts)
    (hd : Derives .sum ts e) {maxDepth : Nat} (hh : e.height ≤ max maxDepth 1) :
    (Expr.parse maxDepth source).outcome = .ok e :=
  Expr.parse_of_derives (collect_of_writes hw) hd hh

namespace Expr.IsWritable

/-- **A rendering is cut into its tokens, if nothing comes after it that a lexeme goes on into.** -/
theorem writes {e : Expr} (h : e.IsWritable) :
    ∀ {after : List Char}, Stops after → Writes after e.rendering e.tokens := by
  have hclose : ∀ after, Writes after [')'] [.rightParen] := fun _ => Writes.nil.symbol rfl
  induction h with
  | @number x hs hn =>
    intro after hafter
    exact (Binary64.spells_literal hs hn).writes hafter
  | @name id hid =>
    intro after hafter
    exact hid.spells.writes hafter
  | @binary op l r _ _ ihl ihr =>
    intro after _
    have hop : Token.ofChar? op.symbol = some (.operator op) := by cases op <;> rfl
    have hright := (ihr (stops_cons rfl (by decide) _)).append (hclose after)
    have hleft := (ihl (stops_cons (by cases op <;> rfl) (by cases op <;> decide) _)).append (hright.symbol hop)
    exact hleft.symbol rfl
  | @negate e _ ih =>
    intro after _
    exact (((ih (stops_cons rfl (by decide) _)).append (hclose after)).symbol rfl).symbol rfl
  | @emptyCall id hid =>
    intro after _
    exact ((hclose after).symbol rfl).spelled hid.spells (stops_cons rfl (by decide) _)
  | @call id e hid _ ih =>
    intro after _
    have hargument := (ih (stops_cons rfl (by decide) _)).append (hclose after)
    exact (hargument.symbol rfl).spelled hid.spells (stops_cons rfl (by decide) _)

open Category (ofLevel)

/-- **A rendering is a primary.** -/
theorem derives {e : Expr} (h : e.IsWritable) : Derives .primary e.tokens e := by
  induction h with
  | number => exact .number _
  | name => exact .name _
  | @binary op l r _ _ ihl ihr =>
    have hlevel : op.precedence + 1 ≤ 3 := Nat.succ_le_succ (Nat.le_of_lt op.precedence_lt)
    have hl : Derives (ofLevel op.precedence) l.tokens l := Derives.loosen (Nat.le_of_succ_le hlevel) ihl
    have hr : Derives (ofLevel (op.precedence + 1)) r.tokens r := Derives.loosen hlevel ihr
    have hsum : Derives .sum _ _ := (hl.binary hr).loosen (Nat.zero_le _)
    simpa [Expr.tokens] using hsum.parentheses
  | @negate e _ ih =>
    have hsum : Derives .sum _ _ := .ofTerm (.ofFactor (.negation ih))
    simpa [Expr.tokens] using hsum.parentheses
  | emptyCall => exact .emptyCall _
  | @call id e _ _ ih =>
    have hsum : Derives .sum _ _ := .ofTerm (.ofFactor (.ofPrimary ih))
    simpa [Expr.tokens] using hsum.call id

/-- **A rendering reads back as its tree, under every limit that allows for its height.** -/
theorem parse_rendering {e : Expr} (h : e.IsWritable) {maxDepth : Nat} (hh : e.height ≤ max maxDepth 1) :
    (Expr.parse maxDepth (String.ofList e.rendering)).outcome = .ok e := by
  refine Expr.parse_of_writes ?_ (.ofTerm (.ofFactor (.ofPrimary h.derives))) hh
  rw [String.toList_ofList]
  exact h.writes stops_nil

end Expr.IsWritable

/-! ## What is read can be written -/

theorem Derives.isWritable {c : Category} {ts : List Token} {e : Expr} (h : Derives c ts e) :
    (∀ t ∈ ts, ∃ w, Spells w t) → e.IsWritable := by
  have hname : ∀ {id : String} {ts : List Token}, (∀ t ∈ Token.name id :: ts, ∃ w, Spells w t) → IsName id.toList := by
    intro id ts hts
    obtain ⟨w, hw⟩ := hts (.name id) List.mem_cons_self
    cases hw with
    | name hw => rwa [String.toList_ofList]
  induction h with
  | ofTerm _ ih => exact ih
  | ofFactor _ ih => exact ih
  | ofPrimary _ ih => exact ih
  | addition _ _ _ ihl ihr =>
    exact fun hts => .binary (ihl (fun t ht => hts t (by simp [ht]))) (ihr (fun t ht => hts t (by simp [ht])))
  | multiplication _ _ _ ihl ihr =>
    exact fun hts => .binary (ihl (fun t ht => hts t (by simp [ht]))) (ihr (fun t ht => hts t (by simp [ht])))
  | negation _ ih => exact fun hts => .negate (ih (fun t ht => hts t (by simp [ht])))
  | number x =>
    intro hts
    obtain ⟨w, hw⟩ := hts _ List.mem_cons_self
    cases hw with
    | number =>
      have hle := (Decimal.ofNumeral w).nearest_le_infinity
      exact .number (Binary64.isNegative_ofMagnitude hle) (Binary64.isNaN_ofMagnitude hle)
  | name id => exact fun hts => .name (hname hts)
  | parentheses _ ih => exact fun hts => ih (fun t ht => hts t (by simp [ht]))
  | emptyCall id => exact fun hts => .emptyCall (hname hts)
  | call id _ ih => exact fun hts => .call (hname hts) (ih (fun t ht => hts t (by simp [ht])))

theorem Expr.isWritable_of_parse {maxDepth : Nat} {source : String} {e : Expr}
    (h : (Expr.parse maxDepth source).outcome = .ok e) : e.IsWritable ∧ e.height ≤ max maxDepth 1 := by
  obtain ⟨ts, hts, hd, hh⟩ := Expr.derives_of_parse h
  obtain ⟨-, rfl⟩ := Cursor.collect_eq_ok_iff.1 hts
  exact ⟨hd.isWritable (fun t ht => Cursor.spells_of_mem_words ht), hh⟩

/-- **The trees that are read from some source are those that can be written and are within the limit.  Each is read
from its rendering, whose literals have the exact values of their doubles, infinity's being `2 ^ 1024`.** -/
theorem parse_image (maxDepth : Nat) (e : Expr) :
    ((∃ source, (Expr.parse maxDepth source).outcome = .ok e) ↔ e.IsWritable ∧ e.height ≤ max maxDepth 1) ∧
    (e.IsWritable → e.height ≤ max maxDepth 1 →
      (Expr.parse maxDepth (String.ofList e.rendering)).outcome = .ok e) ∧
    ∀ x, let d := Decimal.ofNumeral (Binary64.literal x)
      d.digits * Nat.pow 2 1074 = Binary64.units (Binary64.magnitude x) * Nat.pow 10 d.scale ∧
      (Binary64.magnitude x = Binary64.infinity → d.digits = Nat.pow 2 1024 * Nat.pow 10 d.scale) := by
  refine ⟨⟨?_, fun ⟨h, hh⟩ => ⟨_, h.parse_rendering hh⟩⟩, fun h hh => h.parse_rendering hh,
    fun x => ⟨Binary64.literal_value x, Binary64.literal_infinity⟩⟩
  rintro ⟨source, he⟩
  exact Expr.isWritable_of_parse he

/-- A minus under a minus, and the least subnormal. -/
theorem parse_image_negations :
    (Expr.parse 3 "(-(-x))").outcome = .ok (.negate (.negate (.name "x"))) ∧
    (Expr.parse 0 (String.ofList (Binary64.literal (Binary64.ofMagnitude 1)))).outcome
      = .ok (.number (Binary64.ofMagnitude 1)) := by
  have hx : Expr.IsWritable (.name "x") := .name (.intro rfl (fun _ hc => nomatch hc))
  have hone : 1 ≤ Binary64.infinity := by decide
  have hnumber : Expr.IsWritable (.number (Binary64.ofMagnitude 1)) :=
    .number (Binary64.isNegative_ofMagnitude hone) (Binary64.isNaN_ofMagnitude hone)
  exact ⟨(parse_image 3 (.negate (.negate (.name "x")))).2.1 hx.negate.negate (by decide),
    (parse_image 0 (.number (Binary64.ofMagnitude 1))).2.1 hnumber (Nat.le_refl 1)⟩

end Calculator
