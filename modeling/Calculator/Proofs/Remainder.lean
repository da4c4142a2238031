import Calculator.Proofs.Message
import Calculator.Proofs.Tape
/-!
# Proofs.Remainder — an answer depends only on the tokens

What is made of a cursor depends on the tokens it still yields and on the symbol that stops them, if there is one; the
place of that symbol is only quoted (`Cursor.outcome_parse_mapOffset`).  So a cursor that some tokens were taken from is
as good as a fresh one on the rest of its source, and two sources with the same tokens have the same answers.

Spaces between lexemes are no part of the tokens.  More of them never join or split lexemes, and fewer do no harm as
long as the lexemes stay what they are (`Cut.insert`).
-/
namespace Calculator

/-! ## Places -/

/-- The fault with the place of an unrecognized symbol replaced. -/
def Fault.mapOffset (f : Nat → Nat) : Fault → Fault
  | unrecognizedSymbol symbol offset => unrecognizedSymbol symbol (f offset)
  | e => e

section
variable {f : Nat → Nat} {e : Fault}

theorem Refuses.mapOffset {m : Machine} {t : Token} (h : Refuses m t e) : e.mapOffset f = e := by
  cases h <;> rfl

theorem RefusesEnd.mapOffset {limit : Nat} (h : RefusesEnd limit e) : e.mapOffset f = e := by
  cases h <;> rfl

theorem Fault.Valueless.mapOffset (h : e.Valueless) : e.mapOffset f = e := by
  cases h <;> rfl

end

/-- A function that changes none of the faults of a result does not change the result. -/
theorem mapError_eq_self {α : Type} {g : Fault → Fault} {r : Except Fault α} (h : ∀ e, r = .error e → g e = e) :
    r.mapError g = r := by
  cases r with
  | ok a => rfl
  | error e => exact congrArg Except.error (h e rfl)

/-- **A reader quotes the place of what stops it, and makes nothing else of it.** -/
theorem Reader.outcome_foldlM_close {limit : Nat} (hl : 1 ≤ limit) (ts : List Token) (fault : Option Fault)
    (f : Nat → Nat) :
    (ts.foldlM (feed limit) start >>= close limit (fault.map (Fault.mapOffset f))).outcome
      = (ts.foldlM (feed limit) start >>= close limit fault).outcome.mapError (Fault.mapOffset f) := by
  have hread := foldlM_feed_ends hl ts
  cases hr : (ts.foldlM (feed limit) start).outcome with
  | error e =>
    have he : e.mapOffset f = e := by
      rcases hread.of_error hr with rfl | ⟨m, t, -, he⟩
      · rfl
      · exact he.mapOffset
    rw [Traced.outcome_bind_of_error hr, Traced.outcome_bind_of_error hr]
    exact congrArg Except.error he.symm
  | ok r =>
    have hfinish := ((hread.of_ok hr).holds hl).finish
    rw [Traced.outcome_bind_of_ok hr, Traced.outcome_bind_of_ok hr]
    cases fault with
    | none => exact (mapError_eq_self (fun e he => (hfinish.of_error he).mapOffset)).symm
    | some e => rfl

/-! ## What is made of a cursor -/

namespace Cursor

variable {c c' : Cursor} {f : Nat → Nat}

theorem outcome_parse (c : Cursor) (maxDepth : Nat) :
    (c.parse maxDepth).outcome = (c.scan.words.foldlM (Reader.feed (max maxDepth 1)) Reader.start >>=
      Reader.close (max maxDepth 1) c.scan.fault).outcome := by
  rw [parse, Machine.run_eq_readAll]
  exact Reader.outcome_readAll _ _ _

/-- **Cursors that yield the same tokens are parsed alike, up to the place of what stops them.** -/
theorem outcome_parse_mapOffset (hwords : c'.scan.words = c.scan.words)
    (hfault : c'.scan.fault = c.scan.fault.map (Fault.mapOffset f)) (maxDepth : Nat) :
    (c'.parse maxDepth).outcome = (c.parse maxDepth).outcome.mapError (Fault.mapOffset f) := by
  rw [outcome_parse, outcome_parse, hwords, hfault, Reader.outcome_foldlM_close (Nat.le_max_right _ _)]

end Cursor

/-- The answers to two sources are the same, up to the place of an unrecognized symbol. -/
structure AnswersAlike (f : Nat → Nat) (source source' : String) : Prop where
  parse : ∀ maxDepth, (Expr.parse maxDepth source').outcome
    = (Expr.parse maxDepth source).outcome.mapError (Fault.mapOffset f)
  evaluate : ∀ maxDepth, (Calculator.evaluate maxDepth source').outcome
    = (Calculator.evaluate maxDepth source).outcome.mapError (Fault.mapOffset f)
  process : ∀ s : Session, s.process source' = (s.process source).mapError (Fault.mapOffset f)

theorem AnswersAlike.of_parse {f : Nat → Nat} {source source' : String}
    (h : ∀ maxDepth, (Expr.parse maxDepth source').outcome
      = (Expr.parse maxDepth source).outcome.mapError (Fault.mapOffset f)) : AnswersAlike f source source' where
  parse := h
  evaluate maxDepth := by
    rw [outcome_evaluate, outcome_evaluate, h]
    cases hparse : (Expr.parse maxDepth source).outcome with
    | error e => rfl
    | ok e =>
      have hw := (Expr.isWritable_of_parse hparse).1
      exact (mapError_eq_self (fun e he => (hw.valueless he).mapOffset)).symm
  process s := by
    cases hparse : (Expr.parse s.maxDepth source).outcome with
    | error e =>
      rw [Session.process, Session.process, h, hparse]
      rfl
    | ok e =>
      have hsame : s.process source' = s.process source := by
        rw [Session.process, Session.process, h, hparse]
        rfl
      rw [hsame]
      exact (mapError_eq_self (fun f hf => (Session.valueless_of_process hparse hf).mapOffset)).symm

theorem AnswersAlike.of_scan {f : Nat → Nat} {source source' : String}
    (hwords : (Cursor.ofString source').scan.words = (Cursor.ofString source).scan.words)
    (hfault : (Cursor.ofString source').scan.fault = (Cursor.ofString source).scan.fault.map (Fault.mapOffset f)) :
    AnswersAlike f source source' :=
  .of_parse (Cursor.outcome_parse_mapOffset hwords hfault)

/-! ## Tokens that were used up -/

/-- The number of tokens used up after one more request and its answer. -/
def Request.count (n : Nat) : Request × Response → Nat
  | (.reset, _) => 0
  | (.get, .token (.ok _)) => n + 1
  | (.next, .item (some (.ok _))) => n + 1
  | _ => n

/-- How many tokens are used up after requests and their answers.  A reset gives them back. -/
def consumed (exchanged : List (Request × Response)) : Nat := exchanged.foldl Request.count 0

theorem Tape.count_answer (t : Tape) (i : Nat) (r : Request) :
    Request.count i (r, (t.answer i r).1) = (t.answer i r).2 := by
  have htoken : ∀ n, (∃ x, t.token n = .ok x ∧ t.after n = n + 1) ∨ (∃ e, t.token n = .error e ∧ t.after n = n) := by
    intro n
    rw [token, after]
    by_cases h : n < t.tokens.length
    · rw [List.getElem?_eq_getElem h, if_pos h]
      exact .inl ⟨_, rfl, rfl⟩
    · rw [List.getElem?_eq_none (Nat.le_of_not_lt h), if_neg h]
      exact .inr ⟨_, rfl, rfl⟩
  cases r with
  | peek | atEnd | reset => rfl
  | get =>
    rw [answer]
    rcases htoken i with ⟨x, hx, ha⟩ | ⟨e, he, ha⟩
    · rw [hx, ha]
      rfl
    · rw [he, ha]
      rfl
  | next =>
    rw [answer]
    split
    · rfl
    · rcases htoken i with ⟨x, hx, ha⟩ | ⟨e, he, ha⟩
      · rw [hx, ha]
        rfl
      · rw [he, ha]
        rfl

theorem Tape.answer_le {t : Tape} {i : Nat} (h : i ≤ t.tokens.length) (r : Request) :
    (t.answer i r).2 ≤ t.tokens.length := by
  have hafter : t.after i ≤ t.tokens.length := by
    rw [after]
    split <;> omega
  cases r with
  | peek | atEnd => exact h
  | reset => exact Nat.zero_le _
  | get => exact hafter
  | next =>
    rw [answer]
    split
    · exact h
    · exact hafter

namespace Cursor

/-- The cursor that requests leave behind. -/
def leave (c : Cursor) (rs : List Request) : Cursor := rs.foldl (fun c r => (c.answer r).2) c

theorem StandsAt.leave {t : Tape} : ∀ (rs : List Request) {c : Cursor} {i : Nat}, c.StandsAt t i →
    i ≤ t.tokens.length → (c.leave rs).StandsAt t ((c.respond rs).foldl Request.count i) ∧
      (c.respond rs).foldl Request.count i ≤ t.tokens.length
  | [], _, _, h, hi => ⟨h, hi⟩
  | r :: rs, c, i, h, hi => by
    obtain ⟨hanswer, hstands⟩ := h.answer r
    rw [Cursor.leave, List.foldl_cons, respond, Calculator.exchange, List.foldl_cons, hanswer, t.count_answer]
    exact StandsAt.leave rs hstands (Tape.answer_le hi r)

end Cursor

/-! ## Cuts -/

/-- A cut can be parted after any of its lexemes. -/
theorem Cut.split {after : List Char} {ws' : List (List Char)} : ∀ {ws : List (List Char)} {text : List Char},
    Cut after text (ws ++ ws') → ∃ front back, text = front ++ back ∧ Cut (back ++ after) front ws ∧ Cut after back ws'
  | [], text, h => ⟨[], text, rfl, .spaces (List.forall_mem_nil _), h⟩
  | w :: ws, _, h => by
    cases h with
    | @lexeme gap _ rest _ hgap hw hcut =>
      obtain ⟨front, back, rfl, hfront, hback⟩ := Cut.split hcut
      rw [List.append_assoc] at hw
      exact ⟨gap ++ w ++ front, back, (List.append_assoc _ _ _).symm, .lexeme hgap hw hfront, hback⟩

theorem Longest.cut {w after : List Char} (h : Longest w after) : Cut after w [w] := by
  have hcut : Cut after ([] ++ w ++ []) [w] := .lexeme (List.forall_mem_nil _) h (.spaces (List.forall_mem_nil _))
  rwa [List.nil_append, List.append_nil] at hcut

theorem Longest.of_append {w rest after : List Char} (h : Longest w (rest ++ after)) : Longest w rest :=
  ⟨h.1, fun v t hv hfront => h.2 v t hv (hfront.trans ⟨after, List.append_assoc _ _ _⟩)⟩

theorem Longest.append_of_stops {w rest after : List Char} (h : Longest w rest) (hafter : Stops after) :
    Longest w (rest ++ after) := by
  obtain ⟨⟨t, ht⟩, -⟩ := id h
  refine longest_of_lexeme_eq ht.ne_nil ?_
  cases after with
  | nil => rw [List.append_nil, h.lexeme_eq]
  | cons c cs =>
    obtain ⟨ha, hp⟩ := hafter c rfl
    have hne : w ++ rest ≠ [] := List.append_ne_nil_of_left_ne_nil ht.ne_nil rest
    rw [← List.append_assoc, lexeme_append_cons ha hp hne, h.lexeme_eq]

/-- A cut stays one before anything that no lexeme goes on into. -/
theorem Cut.of_stops {after after' text : List Char} {ws : List (List Char)} (h : Cut after text ws)
    (hafter : Stops after') : Cut after' text ws := by
  induction h with
  | spaces hgap => exact .spaces hgap
  | lexeme hgap hw _ ih => exact .lexeme hgap (hw.of_append.append_of_stops hafter) ih

theorem stops_gap {gap : List Char} (hgap : ∀ c ∈ gap, c = ' ') {text : List Char} (h : gap = [] → Stops text) :
    Stops (gap ++ text) := by
  cases gap with
  | nil => exact h rfl
  | cons c cs =>
    rw [hgap c List.mem_cons_self]
    exact stops_cons rfl (by decide) _

/-- **Spaces between two lexemes change neither.** -/
theorem Cut.insert {after front back gap : List Char} {ws ws' : List (List Char)} (hgap : ∀ c ∈ gap, c = ' ')
    (h : Cut (back ++ after) front ws) (h' : Cut after back ws') : Cut after (front ++ gap ++ back) (ws ++ ws') := by
  by_cases hne : gap = []
  · rw [hne, List.append_nil]
    exact h.append h'
  · have hfront : Cut (gap ++ back ++ after) front ws := by
      rw [List.append_assoc]
      exact h.of_stops (stops_gap hgap (fun hnil => absurd hnil hne))
    rw [List.append_assoc]
    exact hfront.append (.append (.spaces hgap) h')

theorem byteCount_of_gap {gap : List Char} (hgap : ∀ c ∈ gap, c = ' ') : byteCount gap = gap.length := by
  have hall : gap.takeWhile isSpace = gap := List.takeWhile_eq_self_iff.2 (isSpace_of_gap hgap)
  rw [← hall]
  exact Cursor.byteCount_takeWhile_isSpace gap

/-! ## Sources -/

/-- What a source is read as: the tokens of its lexemes, and the character behind them that starts none. -/
def IsTape (source : List Char) (t : Tape) : Prop :=
  ∃ before after ws, source = before ++ after ∧ Cut after before ws ∧ (∀ c ∈ after.head?, IsForeign c) ∧
    List.Forall₂ Spells ws t.tokens ∧ t.stop = after.head?.map (fun c => (c, byteCount before))

theorem exists_isTape (source : List Char) : ∃ t, IsTape source t := by
  obtain ⟨before, after, ws, hs, hcut, hforeign⟩ := exists_cut source
  have hspells := (Cursor.scan_of_cut hcut hforeign (c := Cursor.ofList source) hs).1
  exact ⟨⟨_, _⟩, before, after, ws, hs, hcut, hforeign, hspells, rfl⟩

namespace Cursor

theorem scan_of_isTape {source : List Char} {t : Tape} (h : IsTape source t) :
    (ofList source).scan.words = t.tokens ∧ (ofList source).scan.fault = t.fault := by
  obtain ⟨before, after, ws, rfl, hcut, hforeign, hspells, hstop⟩ := h
  obtain ⟨hwords, hfault⟩ := scan_of_cut hcut hforeign (c := ofList (before ++ after)) rfl
  refine ⟨forall₂_spells_unique hwords hspells, ?_⟩
  rw [hfault, Tape.fault, hstop, Option.map_map]
  simp only [Function.comp_def, ofList, Nat.zero_add]

/-- What is behind some lexemes of a source has the tokens that remain, at places counted from there. -/
theorem scan_of_remainder {source before after : List Char} {ws : List (List Char)} (hs : source = before ++ after)
    (hcut : Cut after before ws) :
    (ofList after).scan.words = (ofList source).scan.words.drop ws.length ∧
      (ofList source).scan.fault = (ofList after).scan.fault.map (Fault.mapOffset (· + byteCount before)) := by
  obtain ⟨before', after', ws', hafter, hcut', hforeign⟩ := exists_cut after
  subst hafter
  obtain ⟨hwords, hfault⟩ := scan_of_cut hcut' hforeign (c := ofList (before' ++ after')) rfl
  obtain ⟨hwords', hfault'⟩ := scan_of_cut (hcut.append hcut') hforeign (c := ofList source)
    (hs.trans (List.append_assoc _ _ _).symm)
  have hdrop := List.forall₂_drop ws.length hwords'
  rw [List.drop_left] at hdrop
  refine ⟨forall₂_spells_unique hwords hdrop, ?_⟩
  rw [hfault, hfault', Option.map_map]
  refine congrArg (fun g => after'.head?.map g) (funext fun x => ?_)
  simp only [Function.comp_apply, Fault.mapOffset, ofList, byteCount_append, Nat.zero_add]
  rw [Nat.add_comm]

end Cursor

/-- A source that is read to its end writes the tokens that are read. -/
theorem writes_of_collect {source : String} {ts : List Token} (h : (Cursor.ofString source).collect.1 = .ok ts) :
    Writes [] source.toList ts := by
  obtain ⟨before, after, ws, hs, hcut, hforeign⟩ := exists_cut source.toList
  obtain ⟨hok, hfail⟩ := collect_of_cut hs hcut hforeign
  cases after with
  | nil =>
    obtain ⟨ts', hts, hspells⟩ := hok rfl
    obtain rfl := Except.ok.inj (h.symm.trans hts)
    rw [List.append_nil] at hs
    exact ⟨ws, hs ▸ hcut, hspells⟩
  | cons x xs => cases h.symm.trans (hfail x xs rfl)

namespace Writes

variable {after after' text gap : List Char} {ts : List Token}

theorem of_stops (h : Writes after text ts) (hafter : Stops after') : Writes after' text ts := by
  obtain ⟨ws, hcut, hspells⟩ := h
  exact ⟨ws, hcut.of_stops hafter, hspells⟩

theorem spaces (h : Writes after text ts) (hgap : ∀ c ∈ gap, c = ' ') : Writes after (gap ++ text) ts := by
  obtain ⟨ws, hcut, hspells⟩ := h
  exact ⟨ws, .append (.spaces hgap) hcut, hspells⟩

end Writes

/-- Spaces between two lexemes only move what is behind them. -/
theorem answersAlike_insert {front gap back after : List Char} {ws ws' : List (List Char)} (hgap : ∀ c ∈ gap, c = ' ')
    (h : Cut (back ++ after) front ws) (h' : Cut after back ws') (hforeign : ∀ c ∈ after.head?, IsForeign c) :
    AnswersAlike (· + gap.length) (String.ofList (front ++ back ++ after))
      (String.ofList (front ++ gap ++ back ++ after)) := by
  obtain ⟨hwords, hfault⟩ := Cursor.scan_of_cut (h.append h') hforeign
    (c := Cursor.ofString (String.ofList (front ++ back ++ after))) String.toList_ofList
  obtain ⟨hwords', hfault'⟩ := Cursor.scan_of_cut (h.insert hgap h') hforeign
    (c := Cursor.ofString (String.ofList (front ++ gap ++ back ++ after))) String.toList_ofList
  refine .of_scan (forall₂_spells_unique hwords' hwords) ?_
  rw [hfault, hfault', Option.map_map]
  refine congrArg (fun g => after.head?.map g) (funext fun x => ?_)
  simp only [Function.comp_apply, Fault.mapOffset, Cursor.ofString, Cursor.ofList, byteCount_append,
    byteCount_of_gap hgap, Nat.zero_add]
  rw [Nat.add_right_comm]

section
variable {id gap : List Char} (hid : IsName id) (hgap : ∀ c ∈ gap, c = ' ')
include hid hgap

/-- Spaces before the parenthesis of a call only move what is behind them. -/
theorem answersAlike_call (text : List Char) :
    AnswersAlike (· + gap.length) (String.ofList (id ++ '(' :: text)) (String.ofList (id ++ gap ++ '(' :: text)) := by
  obtain ⟨before, after, ws, hsplit, hcut, hforeign⟩ := exists_cut ('(' :: text)
  have hname : Longest id (before ++ after) := (Spells.name hid).longest (by
    rw [← hsplit]
    exact stops_cons rfl (by decide) text)
  have halike := answersAlike_insert hgap hname.cut hcut hforeign
  rwa [List.append_assoc, List.append_assoc (id ++ gap), ← hsplit] at halike

/-- Spaces before the parenthesis of a call are no part of it. -/
theorem parse_call {argument : String} {maxDepth : Nat} {e : Expr} (h : (Expr.parse maxDepth argument).outcome = .ok e)
    (hh : e.height < max maxDepth 1) :
    (Expr.parse maxDepth (String.ofList (id ++ gap ++ '(' :: (argument.toList ++ [')'])))).outcome
      = .ok (.call (String.ofList id) [e]) := by
  obtain ⟨ts, hts, hd, -⟩ := Expr.derives_of_parse h
  have hargument : Writes ([')'] ++ []) argument.toList ts :=
    (writes_of_collect hts).of_stops (stops_cons rfl (by decide) [])
  have hclose : Writes [] [')'] [.rightParen] := Writes.nil.symbol rfl
  have hopen : Writes [] ('(' :: (argument.toList ++ [')'])) _ := (hargument.append hclose).symbol rfl
  have hname : Longest id (gap ++ '(' :: (argument.toList ++ [')']) ++ []) := (Spells.name hid).longest (by
    rw [List.append_nil]
    exact stops_gap hgap (fun _ => stops_cons rfl (by decide) _))
  have hcall := (hopen.spaces hgap).lexeme hname (.name hid)
  refine Expr.parse_of_writes (by rwa [String.toList_ofList, List.append_assoc])
    (.ofTerm (.ofFactor (.ofPrimary (.call _ hd)))) ?_
  simp only [Expr.height, Expr.tallest]
  omega

end

/-! ## What remains -/

section
variable (source : String) (rs : List Request)

/-- The tokens that were used up are those of the first lexemes. -/
theorem exists_cut_consumed : ∃ before after ws, source.toList = before ++ after ∧ Cut after before ws ∧
    ws.length = consumed ((Cursor.ofString source).respond rs) := by
  obtain ⟨t, ht⟩ := Cursor.exists_standsAt source.toList
  have hle : consumed ((Cursor.ofString source).respond rs) ≤ t.tokens.length := (ht.leave rs (Nat.zero_le _)).2
  obtain ⟨before, after, ws, hs, hcut, hforeign⟩ := exists_cut source.toList
  have hspells := (Cursor.scan_of_cut hcut hforeign (c := Cursor.ofList source.toList) hs).1
  rw [ht.words] at hspells
  rw [← List.take_append_drop (consumed ((Cursor.ofString source).respond rs)) ws] at hcut
  obtain ⟨front, back, rfl, hfront, -⟩ := hcut.split
  refine ⟨front, back ++ after, _, hs.trans (List.append_assoc _ _ _), hfront, ?_⟩
  rw [List.length_take, hspells.length_eq]
  exact Nat.min_eq_left hle

/-- **A cursor is parsed as the rest of its source behind the tokens that were used up.** -/
theorem outcome_parse_leave {before after : List Char} {ws : List (List Char)} (hs : source.toList = before ++ after)
    (hcut : Cut after before ws) (hlength : ws.length = consumed ((Cursor.ofString source).respond rs))
    (maxDepth : Nat) :
    (((Cursor.ofString source).leave rs).parse maxDepth).outcome
      = (Expr.parse maxDepth (String.ofList after)).outcome.mapError (Fault.mapOffset (· + byteCount before)) := by
  obtain ⟨t, ht⟩ := Cursor.exists_standsAt source.toList
  have hleave := (ht.leave rs (Nat.zero_le _)).1
  obtain ⟨hdrop, hfault⟩ := Cursor.scan_of_remainder hs hcut
  have hfresh : Cursor.ofString (String.ofList after) = Cursor.ofList after := by
    rw [Cursor.ofString, String.toList_ofList]
  have hwords : ((Cursor.ofString source).leave rs).scan.words
      = (Cursor.ofString (String.ofList after)).scan.words := by
    rw [hfresh, hdrop, hlength, ht.words]
    exact hleave.words
  have hstop : ((Cursor.ofString source).leave rs).scan.fault = (Cursor.ofString (String.ofList after)).scan.fault.map
      (Fault.mapOffset (· + byteCount before)) := by
    rw [hfresh, ← hfault, ht.fault]
    exact hleave.fault
  exact Cursor.outcome_parse_mapOffset hwords hstop maxDepth

end

/-- Sources that are read as the same tokens and stopped by the same symbol have the same answers. -/
theorem answersAlike_of_isTape {source source' : String} {t t' : Tape} (h : IsTape source.toList t)
    (h' : IsTape source'.toList t') (htokens : t.tokens = t'.tokens)
    (hstop : t.stop.map Prod.fst = t'.stop.map Prod.fst) :
    AnswersAlike (fun n => (t'.stop.map Prod.snd).getD n) source source' := by
  obtain ⟨hwords, hfault⟩ := Cursor.scan_of_isTape h
  obtain ⟨hwords', hfault'⟩ := Cursor.scan_of_isTape h'
  refine .of_scan (hwords'.trans (htokens.symm.trans hwords.symm)) (hfault'.trans ?_)
  show _ = (Cursor.ofList source.toList).scan.fault.map _
  rw [hfault, Tape.fault, Tape.fault]
  cases hs : t.stop with
  | none =>
    rw [hs] at hstop
    rw [Option.map_eq_none_iff.1 hstop.symm]
    rfl
  | some x =>
    rw [hs] at hstop
    obtain ⟨y, hy, hxy⟩ := Option.map_eq_some_iff.1 hstop.symm
    rw [hy, Option.map_some, Option.map_some, Option.map_some, ← hxy]
    rfl

/-- **Only the tokens that remain matter.**  A cursor is parsed as the rest of its source behind the tokens that were
used up, though a look ahead has moved it; sources with the same tokens and the same end have the same answers; so have
those that differ in spaces between their lexemes; and spaces before the parenthesis of a call are no part of it.  Only
the place of an unrecognized symbol differs, since it counts what is in front. -/
theorem parse_remainder :
    (∀ (source : String) (rs : List Request),
      let count := consumed ((Cursor.ofString source).respond rs)
      (∃ before after ws, source.toList = before ++ after ∧ Cut after before ws ∧ ws.length = count) ∧
      ∀ before after ws, source.toList = before ++ after → Cut after before ws → ws.length = count → ∀ maxDepth,
        (((Cursor.ofString source).leave rs).parse maxDepth).outcome
          = (Expr.parse maxDepth (String.ofList after)).outcome.mapError (Fault.mapOffset (· + byteCount before))) ∧
    (∀ source, ∃ t, IsTape source t) ∧
    (∀ (source source' : String) (t t' : Tape), IsTape source.toList t → IsTape source'.toList t' →
      t.tokens = t'.tokens → t.stop.map Prod.fst = t'.stop.map Prod.fst →
        AnswersAlike (fun n => (t'.stop.map Prod.snd).getD n) source source') ∧
    (∀ front gap back after ws ws', (∀ c ∈ gap, c = ' ') → Cut (back ++ after) front ws → Cut after back ws' →
      (∀ c ∈ after.head?, IsForeign c) →
        AnswersAlike (· + gap.length) (String.ofList (front ++ back ++ after))
          (String.ofList (front ++ gap ++ back ++ after))) ∧
    ∀ id gap, IsName id → (∀ c ∈ gap, c = ' ') →
      (∀ text, AnswersAlike (· + gap.length) (String.ofList (id ++ '(' :: text))
        (String.ofList (id ++ gap ++ '(' :: text))) ∧
      ∀ argument maxDepth e, (Expr.parse maxDepth argument).outcome = .ok e → e.height < max maxDepth 1 →
        (Expr.parse maxDepth (String.ofList (id ++ gap ++ '(' :: (argument.toList ++ [')'])))).outcome
          = .ok (.call (String.ofList id) [e]) :=
  ⟨fun source rs => ⟨exists_cut_consumed source rs,
      fun _ _ _ hs hcut hlength => outcome_parse_leave source rs hs hcut hlength⟩,
    exists_isTape, fun _ _ _ _ h h' htokens hstop => answersAlike_of_isTape h h' htokens hstop,
    fun _ _ _ _ _ _ hgap h h' hforeign => answersAlike_insert hgap h h' hforeign,
    fun _ _ hid hgap => ⟨answersAlike_call hid hgap, fun _ _ _ he hh => parse_call hid hgap he hh⟩⟩

/-- A look ahead past the space, and the same place with nothing in front of it. -/
theorem parse_remainder_symbol :
    let c := (Cursor.ofString "a f (?").leave [.get, .peek]
    c.offset = 2 ∧ (c.parse 0).outcome = .error (.unrecognizedSymbol '?' 5) ∧
      (Expr.parse 0 " f (?").outcome = .error (.unrecognizedSymbol '?' 4) ∧
      (Expr.parse 2 "f (x)").outcome = .ok (.call "f" [.name "x"]) := by
  intro c
  have ha : IsName ['a'] := .intro rfl (List.forall_mem_nil _)
  have hf : IsName ['f'] := .intro rfl (fun _ hc => nomatch hc)
  have hgap : ∀ c ∈ [' '], c = ' ' := fun _ hc => List.mem_singleton.1 hc
  have hcut : Cut [' ', 'f', ' ', '(', '?'] ['a'] [['a']] :=
    ((Spells.name ha).longest (stops_cons rfl (by decide) _)).cut
  have hfresh : (Expr.parse 0 " f (?").outcome = .error (.unrecognizedSymbol '?' 4) := by
    rw [Expr.parse_eq_readAll]
    iterate 2 rw [Cursor.scan_of_get_ok (by decide) rfl]
    rw [Cursor.scan_of_get_error (by decide) rfl]
    rfl
  have hx : (Expr.parse 2 "x").outcome = .ok (.name "x") := by
    rw [Expr.parse_eq_readAll, Cursor.scan_of_get_ok (by decide) rfl, Cursor.scan_of_atEnd rfl]
    rfl
  obtain ⟨hleave, -, -, -, hcall⟩ := parse_remainder
  refine ⟨by decide, ?_, hfresh, (hcall ['f'] [' '] hf hgap).2 "x" 2 _ hx (by decide)⟩
  have hparse := (hleave "a f (?" [.get, .peek]).2 ['a'] _ _ rfl hcut (by decide) 0
  exact hparse.trans (congrArg (Except.mapError _) hfresh)

end Calculator
