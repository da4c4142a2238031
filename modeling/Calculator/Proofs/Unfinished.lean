import Calculator.Proofs.OpenLevels
/-!
# Proofs.Unfinished — the fault of a source that ends too early

At the end all that is pending is reduced, whether or not an operand is still to come.  So an operator may take the
operand of one before it, and the values run out only later, or not at all: values that wait on an outer level help out
until the open parenthesis is met.  Which fault that gives can be told from the levels that the tokens leave open
(`Unfinished`): with a binary operator on an outer level there are values enough, and without one the first operator of
the innermost level that is still pending finds too few.
-/
namespace Calculator

/-! ## The values run out, or they do not -/

namespace Machine

variable {limit : Nat} {p : Pending} {ps : List Pending} {vs : List Operand}

theorem reduceAll_cons (hp : p ≠ .leftParen) :
    reduceAll limit (p :: ps) vs = reduce limit p vs >>= reduceAll limit ps := by
  cases p with
  | leftParen => exact absurd rfl hp
  | _ => rfl

theorem reduceAll_of_combine {x : Operand} {rest : List Operand} {P : List Operand → Prop} {E : Fault → Prop}
    (hp : p ≠ .leftParen) (hc : combine p vs = .ok (x, rest)) (hdeep : E (.tooDeep limit))
    (h : (reduceAll limit ps (x :: rest)).Ends P E) : (reduceAll limit (p :: ps) vs).Ends P E := by
  rw [reduceAll_cons hp]
  refine ((reduce_ends hc limit).mono (fun _ hws => hws) (fun e he => he ▸ hdeep)).bind (fun ws hws => ?_)
  rw [hws.1]
  exact h

theorem reduceAll_of_error {e : Fault} {P : List Operand → Prop} {E : Fault → Prop} (hp : p ≠ .leftParen)
    (hc : combine p vs = .error e) (he : E e) : (reduceAll limit (p :: ps) vs).Ends P E := by
  rw [reduceAll_cons hp, reduce_of_error hc]
  exact he

/-- With one value more than binary operators wait on the innermost level, all of it is reduced. -/
theorem reduceAll_of_lt : ∀ {ps : List Pending} (vs : List Operand), CallsGuarded ps →
    (waiting ps).length < vs.length → (reduceAll limit ps vs).Ends (fun _ => .leftParen ∉ ps)
      (fun e => e = .tooDeep limit ∨ e = .mismatchedParen .left ∧ .leftParen ∈ ps)
  | [], _, _, _ => List.not_mem_nil
  | .leftParen :: _, _, _, _ => .inr ⟨rfl, List.mem_cons_self⟩
  | .unaryMinus :: ps, x :: vs, h, hlt => by
    have hp := Pending.unaryMinus_ne
    rw [Pending.leftParen_mem_cons hp]
    exact reduceAll_of_combine hp rfl (.inl rfl) (reduceAll_of_lt (_ :: vs) (h.tail hp) hlt)
  | .binary op :: ps, r :: l :: vs, h, hlt => by
    have hp := Pending.binary_ne op
    rw [Pending.leftParen_mem_cons hp]
    exact reduceAll_of_combine hp rfl (.inl rfl) (reduceAll_of_lt (_ :: vs) (h.tail hp) (Nat.lt_of_succ_lt_succ hlt))
  | .binary op :: ps, [r], _, hlt => absurd (Nat.lt_of_succ_lt_succ hlt) (Nat.not_lt_zero _)
  | .call _ _ :: _, _, h, _ => h.not_call.elim

/-- With as many values as binary operators, it is the one that was there first that finds too few. -/
theorem reduceAll_of_eq {op : Operator} : ∀ {ps : List Pending} (vs : List Operand),
    vs.length = (waiting ps).length → (waiting ps).getLast? = some op →
      (reduceAll limit ps vs).Ends (fun _ => False)
        (fun e => e = .tooDeep limit ∨ e = .missingOperand op.symbol.toString)
  | .unaryMinus :: ps, x :: vs, hlen, hop =>
    reduceAll_of_combine Pending.unaryMinus_ne rfl (.inl rfl) (reduceAll_of_eq (_ :: vs) hlen hop)
  | .unaryMinus :: ps, [], hlen, hop => by
    rw [waiting] at hlen hop
    rw [List.length_eq_zero_iff.1 hlen.symm] at hop
    cases hop
  | .binary op' :: ps, r :: l :: vs, hlen, hop => by
    have hlen : vs.length + 1 = (waiting ps).length := Nat.succ.inj hlen
    rw [waiting, List.getLast?_cons] at hop
    cases hl : (waiting ps).getLast? with
    | none =>
      rw [List.getLast?_eq_none_iff.1 hl] at hlen
      cases hlen
    | some x =>
      rw [hl] at hop
      obtain rfl : x = op := Option.some.inj hop
      exact reduceAll_of_combine (Pending.binary_ne op') rfl (.inl rfl) (reduceAll_of_eq (_ :: vs) hlen hl)
  | .binary op' :: ps, [x], hlen, hop => by
    have hlen : (waiting ps).length = 0 := (Nat.succ.inj hlen).symm
    rw [waiting, List.length_eq_zero_iff.1 hlen] at hop
    cases hop
    exact reduceAll_of_error (Pending.binary_ne _) rfl (.inr rfl)

theorem reduceAll_bulk {bound : Nat} (hb : bound ≤ limit) : ∀ (ps : List Pending) (vs : List Operand),
    bulk ps vs ≤ bound → (reduceAll limit ps vs).Ends (fun _ => True) Fault.NotDeep
  | [], _, _ => trivial
  | .leftParen :: _, _, _ => fun _ hk => by cases hk
  | .unaryMinus :: ps, _, h => (reduce_bulk hb h).bind (reduceAll_bulk hb ps)
  | .binary _ :: ps, _, h => (reduce_bulk hb h).bind (reduceAll_bulk hb ps)
  | .call _ _ :: ps, _, h => (reduce_bulk hb h).bind (reduceAll_bulk hb ps)

theorem finish_bulk {m : Machine} (h : bulk m.pending m.values ≤ limit) :
    (m.finish limit).Ends (fun _ => True) Fault.NotDeep := by
  unfold finish
  split
  · exact fun _ hk => by cases hk
  · refine (reduceAll_bulk (Nat.le_refl limit) _ _ h).bind (fun vs _ => ?_)
    split
    · exact fun _ hk => by cases hk
    · exact trivial
    · exact fun _ hk => by cases hk

end Machine

/-! ## Which fault it is -/

/-- The open parenthesis is found before the values run out: no operator is due its operand, or a binary operator on an
outer level has left one. -/
def BlamesParenthesis (ts : List Token) : Prop :=
  (OpenLevels.ofTokens ts).outer ≠ [] ∧
    ((∀ op, ts.getLast? ≠ some (.operator op)) ∨ (OpenLevels.ofTokens ts).outer.flatten ≠ [])

/-- How the operator is named that finds too few values, if this is the loosest binary one of its level.  Without one
only a minus can be pending there. -/
def blamedOperator : Option Operator → String
  | some op => op.symbol.toString
  | none => "unary -"

/-- The fault at the end of tokens that are not an expression yet. -/
inductive Unfinished (ts : List Token) : Fault → Prop
  | empty : ts = [] → Unfinished ts .endOfInput
  | unclosed : BlamesParenthesis ts → Unfinished ts (.mismatchedParen .left)
  | missing {before op} : ts = before ++ [.operator op] → ¬ BlamesParenthesis ts →
      (loosest (OpenLevels.ofTokens ts).inner = none → EndsInUnaryMinus ts) →
      Unfinished ts (.missingOperand (blamedOperator (loosest (OpenLevels.ofTokens ts).inner)))

section
variable {limit : Nat} {ts : List Token} {ps : List Pending} {vs : List Operand}

/-- With an operator on an outer level there are values enough down to the parenthesis. -/
theorem Awaits.reduceAll_of_outer (h : Awaits limit ts ps vs) (houter : (OpenLevels.ofTokens ts).outer.flatten ≠ []) :
    (Machine.reduceAll limit ps vs).Ends (fun _ => False) (fun e => e = .tooDeep limit ∨ Unfinished ts e) := by
  have hlevels := h.levels
  have hne : (OpenLevels.ofTokens ts).outer ≠ [] := fun hnil => houter (by rw [hnil]; rfl)
  have hlt : (waiting ps).length < vs.length := by
    rw [h.length_values]
    exact hlevels.outer.2 houter
  refine (Machine.reduceAll_of_lt vs h.callsGuarded hlt).mono (fun _ hmem => ?_) (fun e he => ?_)
  · exact hmem (hlevels.leftParen.2 hne)
  · rcases he with rfl | ⟨rfl, -⟩
    · exact .inl rfl
    · exact .inr (.unclosed ⟨hne, .inr houter⟩)

/-- Without one there are no more values than operators of the innermost level. -/
theorem Awaits.length_values_of_flatten (h : Awaits limit ts ps vs)
    (houter : (OpenLevels.ofTokens ts).outer.flatten = []) : vs.length = (waiting ps).length := by
  have hle := length_waiting_le ps
  have hlt : ¬ (waiting ps).length < binaries ps := fun hlt => h.levels.outer.1 hlt houter
  rw [h.length_values]
  omega

theorem not_blamesParenthesis {op : Operator}
    (houter : (OpenLevels.ofTokens (ts ++ [.operator op])).outer.flatten = []) :
    ¬ BlamesParenthesis (ts ++ [.operator op]) := by
  rintro ⟨-, hlast | hflatten⟩
  · exact hlast op List.getLast?_concat
  · exact hflatten houter

theorem Awaits.reduceAll_of_loosest {op x : Operator} (h : Awaits limit (ts ++ [.operator op]) ps vs)
    (houter : (OpenLevels.ofTokens (ts ++ [.operator op])).outer.flatten = [])
    (hx : loosest (OpenLevels.ofTokens (ts ++ [.operator op])).inner = some x) :
    (Machine.reduceAll limit ps vs).Ends (fun _ => False)
      (fun e => e = .tooDeep limit ∨ Unfinished (ts ++ [.operator op]) e) := by
  have hwaiting : (waiting ps).getLast? = some x := h.levels.inner.trans hx
  have hunfinished : Unfinished (ts ++ [.operator op]) (.missingOperand (blamedOperator (some x))) :=
    hx ▸ .missing rfl (not_blamesParenthesis houter) (fun hnone => by rw [hx] at hnone; cases hnone)
  refine (Machine.reduceAll_of_eq vs (h.length_values_of_flatten houter) hwaiting).mono (fun _ hf => hf)
    (fun e he => ?_)
  rcases he with rfl | rfl
  · exact .inl rfl
  · exact .inr hunfinished

/-- So they run out, unless the parenthesis is met at once. -/
theorem Awaits.reduceAll_of_flatten (h : Awaits limit ts ps vs) (hps : ps ≠ [])
    (houter : (OpenLevels.ofTokens ts).outer.flatten = []) :
    (Machine.reduceAll limit ps vs).Ends (fun _ => False) (fun e => e = .tooDeep limit ∨ Unfinished ts e) := by
  have hlevels := h.levels
  have hlen := h.length_values_of_flatten houter
  cases id h with
  | start => exact absurd rfl hps
  | leftParen =>
    refine .inr (.unclosed ⟨hlevels.leftParen.1 List.mem_cons_self, .inl (fun op hlast => ?_)⟩)
    rw [List.getLast?_concat] at hlast
    cases hlast
  | openCall =>
    refine .inr (.unclosed ⟨hlevels.leftParen.1 List.mem_cons_self, .inl (fun op hlast => ?_)⟩)
    rw [List.getLast?_append] at hlast
    cases hlast
  | @minus us qs _ ha =>
    cases hl : loosest (OpenLevels.ofTokens (us ++ [Token.operator .minus])).inner with
    | some x => exact h.reduceAll_of_loosest houter hl
    | none =>
      -- only minuses are pending, and the last one is reduced first
      have hnil : waiting qs = [] := List.getLast?_eq_none_iff.1 (hlevels.inner.trans hl)
      rw [waiting, hnil] at hlen
      obtain rfl := List.length_eq_zero_iff.1 hlen
      have hunfinished : Unfinished (us ++ [.operator .minus]) (.missingOperand (blamedOperator none)) :=
        hl ▸ .missing rfl (not_blamesParenthesis houter) (fun _ => ⟨us, rfl, ha.not_endsOperand⟩)
      exact Machine.reduceAll_of_error Pending.unaryMinus_ne rfl (.inr hunfinished)
  | @binary us qs _ op ls =>
    cases hl : loosest (OpenLevels.ofTokens (us ++ ls ++ [Token.operator op])).inner with
    | some x => exact h.reduceAll_of_loosest houter hl
    | none =>
      have hnil := hlevels.inner.trans hl
      rw [waiting, List.getLast?_cons] at hnil
      cases hnil

theorem Awaits.reduceAll_unfinished (h : Awaits limit ts ps vs) (hps : ps ≠ []) :
    (Machine.reduceAll limit ps vs).Ends (fun _ => False) (fun e => e = .tooDeep limit ∨ Unfinished ts e) := by
  by_cases houter : (OpenLevels.ofTokens ts).outer.flatten = []
  · exact h.reduceAll_of_flatten hps houter
  · exact h.reduceAll_of_outer houter

/-- After an operand only a parenthesis can be missing. -/
theorem Completed.blamesParenthesis (h : Completed limit 3 ts ps vs) (hmem : .leftParen ∈ ps) :
    BlamesParenthesis ts := by
  obtain ⟨ha, -, hd, -⟩ := h
  rename_i us _ ss x
  have hlevels := ha.levels
  obtain ⟨ops, hread, -⟩ := hd.adds (OpenLevels.ofTokens us) hlevels.afterOperand
  refine ⟨?_, .inl (fun op hlast => ?_)⟩
  · rw [OpenLevels.ofTokens_append, hread]
    exact hlevels.leftParen.1 hmem
  · obtain ⟨ws, t, rfl, ht⟩ := hd.endsOperand
    rw [← List.append_assoc, List.getLast?_concat] at hlast
    cases hlast
    cases ht

end

/-- **At the end there is an expression, or the fault that the open levels tell.** -/
theorem Holds.finish_unfinished {limit : Nat} {ts : List Token} {m : Machine} (h : Holds limit ts m) :
    (m.finish limit).Ends (fun _ => IsExpression ts) (fun e => e = .tooDeep limit ∨ Unfinished ts e) := by
  cases h with
  | @operand ps _ ha =>
    cases ps with
    | nil =>
      cases ha
      exact .inr (.empty rfl)
    | cons p ps => exact (ha.reduceAll_unfinished (List.cons_ne_nil p ps)).bind (fun _ hf => hf.elim)
  | operator hc =>
    rw [Machine.finish_of_values hc.values_ne_nil]
    refine (hc.reduceAll.mono (fun _ hws => hws) (fun e he => ?_)).bind (fun ws hws => ?_)
    · rcases he with rfl | ⟨rfl, hmem⟩
      · exact .inl rfl
      · exact .inr (.unclosed (hc.blamesParenthesis hmem))
    · obtain ⟨x, rfl, hd, -⟩ := hws
      exact ⟨x, hd⟩

/-! ## Sources -/

/-- A parse whose limit allows for every token does not end in a tree too deep while it reduces what is pending. -/
theorem Expr.exists_unfinished {maxDepth : Nat} {source : String} {ts : List Token}
    (hts : (Cursor.ofString source).collect.1 = .ok ts) (hlen : ts.length ≤ maxDepth) (hv : Viable ts)
    (hn : ¬ IsExpression ts) : ∃ e, (Expr.parse maxDepth source).outcome = .error e ∧ Unfinished ts e := by
  obtain ⟨hs, rfl⟩ := Cursor.collect_eq_ok_iff.1 hts
  have hlimit : (Cursor.ofString source).scan.words.length ≤ max maxDepth 1 := Nat.le_trans hlen (Nat.le_max_left _ _)
  obtain ⟨r, hr, hreads⟩ := hv.reads (Nat.le_max_right maxDepth 1) hlimit
  have hbulk : Machine.bulk r.machine.pending r.machine.values ≤ max maxDepth 1 := by
    have hle := (Reader.foldlM_feed_bulk _ Reader.start 0 (Nat.le_refl 0) (by rwa [Nat.zero_add])).of_ok hr
    rw [Nat.zero_add] at hle
    exact Nat.le_trans hle hlimit
  have hends := (hreads.holds (Nat.le_max_right maxDepth 1)).finish_unfinished
  rw [Expr.parse_eq_readAll, Reader.outcome_readAll, Traced.outcome_bind_of_ok hr, hs]
  show ∃ e, (r.machine.finish _).outcome = .error e ∧ _
  cases ho : (r.machine.finish (max maxDepth 1)).outcome with
  | ok e => exact absurd (hends.of_ok ho) hn
  | error e =>
    refine ⟨e, rfl, (hends.of_error ho).resolve_left (fun he => ?_)⟩
    exact (Machine.finish_bulk hbulk).of_error ho _ he

/-- **The beginning of an expression that stops short of one is refused for the parenthesis that it leaves open, or for
the operand that is missing to an operator; only nothing at all is the end of the input.**  The parenthesis is blamed if
no operator comes last, and also if one does and a binary operator waits on a level outside. -/
theorem parse_unfinished (maxDepth : Nat) (source : String) (ts : List Token)
    (hts : (Cursor.ofString source).collect.1 = .ok ts) (hlen : ts.length ≤ maxDepth) (hv : Viable ts)
    (hn : ¬ IsExpression ts) :
    let x := (Expr.parse maxDepth source).outcome
    (x = .error .endOfInput ↔ ts = []) ∧
    (x = .error (.mismatchedParen .left) ↔ BlamesParenthesis ts) ∧
    ((∃ operator, x = .error (.missingOperand operator)) ↔ ts ≠ [] ∧ ¬ BlamesParenthesis ts) := by
  intro x
  obtain ⟨e, hx, he⟩ : ∃ e, x = .error e ∧ Unfinished ts e := Expr.exists_unfinished hts hlen hv hn
  rw [hx]
  cases he with
  | empty hnil =>
    have hblame : ¬ BlamesParenthesis ts := fun h => h.1 (by rw [hnil]; rfl)
    refine ⟨⟨fun _ => hnil, fun _ => rfl⟩, ⟨fun h => (nomatch h), fun h => absurd h hblame⟩, ?_⟩
    exact ⟨fun ⟨_, h⟩ => (nomatch h), fun h => absurd hnil h.1⟩
  | unclosed hblame =>
    have hne : ts ≠ [] := fun hnil => hblame.1 (by rw [hnil]; rfl)
    refine ⟨⟨fun h => (nomatch h), fun h => absurd h hne⟩, ⟨fun _ => hblame, fun _ => rfl⟩, ?_⟩
    exact ⟨fun ⟨_, h⟩ => (nomatch h), fun h => absurd hblame h.2⟩
  | @missing before op hlast hblame =>
    have hne : ts ≠ [] := by rw [hlast]; exact List.append_ne_nil_of_right_ne_nil _ (List.cons_ne_nil _ _)
    refine ⟨⟨fun h => (nomatch h), fun h => absurd h hne⟩, ⟨fun h => (nomatch h), fun h => absurd h hblame⟩, ?_⟩
    exact ⟨fun _ => ⟨hne, hblame⟩, fun _ => ⟨_, rfl⟩⟩

theorem parse_unfinished_outer :
    (Expr.parse 5 "2*(1+").outcome = .error (.mismatchedParen .left) ∧
    ∃ operator, (Expr.parse 3 "(1+").outcome = .error (.missingOperand operator) := by
  have hts : ∃ x y, (Cursor.ofString "2*(1+").collect.1
      = .ok [.number x, .operator .times, .leftParen, .number y, .operator .plus] := by
    refine ⟨(Decimal.ofNumeral ['2']).toFloat, (Decimal.ofNumeral ['1']).toFloat, Cursor.collect_eq_ok_iff.2 ?_⟩
    iterate 5 rw [Cursor.scan_of_get_ok (by decide) rfl]
    rw [Cursor.scan_of_atEnd rfl]
    exact ⟨rfl, rfl⟩
  have hts' : ∃ y, (Cursor.ofString "(1+").collect.1 = .ok [.leftParen, .number y, .operator .plus] := by
    refine ⟨(Decimal.ofNumeral ['1']).toFloat, Cursor.collect_eq_ok_iff.2 ?_⟩
    iterate 3 rw [Cursor.scan_of_get_ok (by decide) rfl]
    rw [Cursor.scan_of_atEnd rfl]
    exact ⟨rfl, rfl⟩
  obtain ⟨x, y, hts⟩ := hts
  obtain ⟨z, hts'⟩ := hts'
  have hpair : ∀ y, Derives .primary [.leftParen, .number y, .operator .plus, .number y, .rightParen]
      (.binary .plus (.number y) (.number y)) := fun y =>
    .parentheses (.addition (.inl rfl) (.ofTerm (.ofFactor (.ofPrimary (.number y))))
      (.ofFactor (.ofPrimary (.number y))))
  have hv : Viable [.number x, .operator .times, .leftParen, .number y, .operator .plus] :=
    ⟨[.number y, .rightParen], _, .ofTerm (.multiplication (.inl rfl) (.ofFactor (.ofPrimary (.number x)))
      (.ofPrimary (hpair y)))⟩
  have hv' : Viable [.leftParen, .number z, .operator .plus] :=
    ⟨[.number z, .rightParen], _, .ofTerm (.ofFactor (.ofPrimary (hpair z)))⟩
  have hn : ∀ us, ¬ IsExpression (us ++ [.operator .plus]) := by
    rintro us ⟨e, he⟩
    obtain ⟨ws, t, hws, ht⟩ := he.endsOperand
    obtain ⟨-, ht'⟩ := List.append_inj' hws rfl
    cases ht'
    cases ht
  refine ⟨(parse_unfinished 5 _ _ hts (Nat.le_refl 5) hv (hn [_, _, _, _])).2.1.2
    ⟨List.cons_ne_nil _ _, .inr (List.cons_ne_nil _ _)⟩, ?_⟩
  refine (parse_unfinished 3 _ _ hts' (Nat.le_refl 3) hv' (hn [_, _])).2.2.2 ⟨List.cons_ne_nil _ _, ?_⟩
  rintro ⟨-, hlast | hflatten⟩
  · exact hlast _ rfl
  · exact hflatten rfl

/-- Only at the end an operand can be missing. -/
theorem Expr.unfinished_of_missingOperand {maxDepth : Nat} {source operator : String}
    (h : (Expr.parse maxDepth source).outcome = .error (.missingOperand operator)) :
    (Cursor.ofString source).scan.fault = none ∧
      Unfinished (Cursor.ofString source).scan.words (.missingOperand operator) := by
  have hl : 1 ≤ max maxDepth 1 := Nat.le_max_right _ _
  rw [Expr.parse_eq_readAll, Reader.outcome_readAll] at h
  have hread := Reader.foldlM_feed_ends hl (Cursor.ofString source).scan.words
  cases hr : ((Cursor.ofString source).scan.words.foldlM (Reader.feed (max maxDepth 1)) Reader.start).outcome with
  | error e =>
    rw [Traced.outcome_bind_of_error hr] at h
    cases h
    rcases hread.of_error hr with he | ⟨m, t, -, he⟩ <;> cases he
  | ok r =>
    rw [Traced.outcome_bind_of_ok hr] at h
    cases hs : (Cursor.ofString source).scan.fault with
    | some e =>
      rw [hs] at h
      cases h
      obtain ⟨_, _, he⟩ := Cursor.scan_fault hs
      cases he
    | none =>
      rw [hs] at h
      have hends := ((hread.of_ok hr).holds hl).finish_unfinished.of_error h
      exact ⟨rfl, hends.resolve_left (fun hdeep => by cases hdeep)⟩

/-- **An operand is missing only if the last token is an operator, and it is missed by the loosest binary operator of
the innermost level**, the last of several equally loose ones: the tighter ones after it have taken what there was.  A
minus that is the last token is blamed if there is no binary operator on its level. -/
theorem parse_missingOperand (maxDepth : Nat) (source operator : String)
    (h : (Expr.parse maxDepth source).outcome = .error (.missingOperand operator)) :
    ∃ ts op, (Cursor.ofString source).collect.1 = .ok (ts ++ [.operator op]) ∧
      match loosest (OpenLevels.ofTokens (ts ++ [.operator op])).inner with
      | some looser => operator = looser.symbol.toString
      | none => operator = "unary -" ∧ EndsInUnaryMinus (ts ++ [.operator op]) := by
  obtain ⟨hs, hunfinished⟩ := Expr.unfinished_of_missingOperand h
  generalize hoperator : Fault.missingOperand operator = e at hunfinished
  cases hunfinished with
  | empty => cases hoperator
  | unclosed => cases hoperator
  | @missing before op hlast _ hminus =>
    refine ⟨before, op, Cursor.collect_eq_ok_iff.2 ⟨hs, hlast⟩, ?_⟩
    rw [← hlast]
    injection hoperator with hoperator
    cases hloosest : loosest (OpenLevels.ofTokens (Cursor.ofString source).scan.words).inner with
    | some looser =>
      rw [hloosest] at hoperator
      exact hoperator
    | none =>
      rw [hloosest] at hoperator
      exact ⟨hoperator, hminus hloosest⟩

theorem parse_missingOperand_minus :
    (Expr.parse 512 "(a+-").outcome = .error (.missingOperand "+") ∧
    ∃ ts op, (Cursor.ofString "(a+-").collect.1 = .ok (ts ++ [.operator op]) ∧
      match loosest (OpenLevels.ofTokens (ts ++ [.operator op])).inner with
      | some looser => "+" = looser.symbol.toString
      | none => "+" = "unary -" ∧ EndsInUnaryMinus (ts ++ [.operator op]) := by
  have hfault : (Expr.parse 512 "(a+-").outcome = .error (.missingOperand "+") := by
    rw [Expr.parse_eq_readAll]
    iterate 4 rw [Cursor.scan_of_get_ok (by decide) rfl]
    rw [Cursor.scan_of_atEnd rfl]
    rfl
  exact ⟨hfault, parse_missingOperand 512 "(a+-" "+" hfault⟩

/-- The last operator is not always the one to be named: here it takes what the one before it would need. -/
theorem missingOperand_ne_last :
    ¬ ∀ (maxDepth : Nat) (source operator : String),
      (Expr.parse maxDepth source).outcome = .error (.missingOperand operator) →
      ∃ ts op, (Cursor.ofString source).collect.1 = .ok (ts ++ [.operator op]) ∧
        (EndsInUnaryMinus (ts ++ [.operator op]) → operator = "unary -") ∧
        (¬ EndsInUnaryMinus (ts ++ [.operator op]) → operator = op.symbol.toString) := by
  intro h
  have hs : (Cursor.ofString "a-b*").scan
      = ⟨[(.name "a", 0), (.operator .minus, 1), (.name "b", 2), (.operator .times, 3)], none⟩ := by
    iterate 4 rw [Cursor.scan_of_get_ok (by decide) rfl]
    rw [Cursor.scan_of_atEnd rfl]
    rfl
  have hfault : (Expr.parse 512 "a-b*").outcome = .error (.missingOperand "-") := by
    rw [Expr.parse_eq_readAll, hs]
    rfl
  obtain ⟨ts, op, hts, hminus, hbinary⟩ := h 512 "a-b*" "-" hfault
  have hwords : [.name "a", .operator .minus, .name "b"] ++ [.operator .times] = ts ++ [.operator op] := by
    rw [← (Cursor.collect_eq_ok_iff.1 hts).2, hs]
    rfl
  obtain ⟨rfl, hop⟩ := List.append_inj' hwords rfl
  cases hop
  by_cases hends : EndsInUnaryMinus ([.name "a", .operator .minus, .name "b"] ++ [.operator .times])
  · exact absurd (hminus hends) (by decide)
  · exact absurd (hbinary hends) (by decide)

end Calculator
