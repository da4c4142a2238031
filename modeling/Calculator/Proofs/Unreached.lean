import Calculator.Proofs.Spelling
import Calculator.Proofs.Stacks
/-!
# Proofs.Unreached — what a run never does

A reduction is recorded before it is tried, so the record tells what was ever reduced (`Event.Sound`), and the faults
tell how a run can end (`Fault.External`).  Given the invariant, some branches of the machine are never taken: no value
is left over at the end, no call lacks its argument, and no parenthesis is reduced.
-/
namespace Calculator

/-! ## What is reduced -/

/-- No parenthesis takes operands, and above the base of a call is its argument or nothing. -/
def Event.Sound : Event → Prop
  | .reduce .leftParen _ => False
  | .reduce (.call _ base) values => base ≤ values ∧ values ≤ base + 1
  | _ => True

namespace Machine

variable {limit : Nat}

theorem reduce_records (p : Pending) (vs : List Operand) (h : (Event.reduce p vs.length).Sound) :
    (reduce limit p vs).Records Event.Sound := by
  intro e he
  rw [log_reduce] at he
  exact List.mem_singleton.1 he ▸ h

theorem reduceFrom_records {n : Nat} : ∀ (ps : List Pending) (vs : List Operand),
    (reduceFrom limit n ps vs).Records Event.Sound
  | [], _ => Traced.records_pure
  | p :: ps, vs => by
    rw [reduceFrom]
    split
    · rename_i hp
      have hsound : (Event.reduce p vs.length).Sound := by
        cases p with
        | unaryMinus => trivial
        | binary => trivial
        | leftParen => cases hp
        | call => cases hp
      exact (reduce_records p vs hsound).bind (fun ws _ => reduceFrom_records ps ws)
    · exact Traced.records_pure

theorem reduceToParen_records : ∀ {ps : List Pending} (vs : List Operand), CallsGuarded ps →
    (reduceToParen limit ps vs).Records Event.Sound
  | [], _, _ => Traced.records_fail
  | .leftParen :: _, _, _ => Traced.records_pure
  | .unaryMinus :: _, vs, h =>
    (reduce_records .unaryMinus vs trivial).bind (fun ws _ => reduceToParen_records ws (h.tail (fun hp => nomatch hp)))
  | .binary op :: _, vs, h =>
    (reduce_records (.binary op) vs trivial).bind (fun ws _ => reduceToParen_records ws (h.tail (fun hp => nomatch hp)))
  | .call _ _ :: _, _, h => h.not_call.elim

theorem reduceAll_records : ∀ {ps : List Pending} (vs : List Operand), CallsGuarded ps →
    (reduceAll limit ps vs).Records Event.Sound
  | [], _, _ => Traced.records_pure
  | .leftParen :: _, _, _ => Traced.records_fail
  | .unaryMinus :: _, vs, h =>
    (reduce_records .unaryMinus vs trivial).bind (fun ws _ => reduceAll_records ws (h.tail (fun hp => nomatch hp)))
  | .binary op :: _, vs, h =>
    (reduce_records (.binary op) vs trivial).bind (fun ws _ => reduceAll_records ws (h.tail (fun hp => nomatch hp)))
  | .call _ _ :: _, _, h => h.not_call.elim

/-- Closing a call, the values above its base having been counted. -/
theorem closeCall_records {ps : List Pending} {vs : List Operand}
    (h : ∀ id base qs, ps = .call id base :: qs → base ≤ vs.length ∧ vs.length ≤ base + 1) :
    (closeCall limit ps vs).Records Event.Sound := by
  unfold closeCall
  split
  · rename_i id base qs
    exact (reduce_records (.call id base) vs (h id base qs rfl)).bind (fun _ _ => Traced.records_pure)
  · exact Traced.records_pure

end Machine

section
variable {limit : Nat} {ts : List Token} {m : Machine}

theorem Completed.closeCall_records {vs : List Operand} {ps : List Pending}
    (h : Completed limit 0 ts (.leftParen :: ps) vs) : (Machine.closeCall limit ps vs).Records Event.Sound := by
  refine Machine.closeCall_records (fun id base qs hps => ?_)
  subst hps
  obtain ⟨ha, -, -, -⟩ := h
  obtain ⟨-, hbase⟩ := ha.callsGuarded [.leftParen] id base qs rfl
  have hlength := ha.length_values
  rw [binaries_cons_of_ne rfl, binaries_cons_of_ne rfl, ← hbase] at hlength
  rw [List.length_cons, hlength]
  omega

theorem Holds.readRightParen_records (h : Holds limit ts m) : (m.readRightParen limit).Records Event.Sound := by
  unfold Machine.readRightParen
  split
  · split
    · rename_i hm hcall
      refine (Machine.closeCall_records (fun id base qs hqs => ?_)).bind (fun _ _ => Traced.records_pure)
      unfold Machine.atEmptyCall at hcall
      split at hcall
      · rename_i hp
        rw [hp, List.tail_cons] at hqs
        cases hqs
        have hbase := beq_iff_eq.1 hcall
        omega
      · cases hcall
    · exact Traced.records_fail
  · exact Traced.records_fail
  · rename_i hm
    have hc := h.completed hm
    obtain ⟨_, _, _, ha, -⟩ := h.exists_awaits
    refine (Machine.reduceToParen_records _ ha.callsGuarded).bind (fun r hr => ?_)
    have hr := hc.reduceToParen.of_ok hr
    exact hr.closeCall_records.bind (fun _ _ => Traced.records_pure)

theorem Holds.step_records (h : Holds limit ts m) (s : Symbol) : (m.step limit s).Records Event.Sound := by
  have hoperand : ∀ t e, (m.readOperand t e).Records Event.Sound := fun t e => by
    unfold Machine.readOperand
    split
    · exact Traced.records_fail
    · exact Traced.records_pure
  cases s with
  | openCall id => exact Traced.records_pure
  | token t =>
    cases t with
    | number x => exact hoperand _ _
    | name id => exact hoperand _ _
    | leftParen =>
      show m.readLeftParen.Records _
      unfold Machine.readLeftParen
      split
      · exact Traced.records_fail
      · exact Traced.records_pure
    | rightParen => exact h.readRightParen_records
    | operator op =>
      show (m.readOperator limit op).Records _
      unfold Machine.readOperator
      split
      · split
        · exact Traced.records_pure
        · exact Traced.records_fail
      · exact Traced.records_fail
      · rw [Machine.reduceBefore_eq_reduceFrom]
        exact (Machine.reduceFrom_records _ _).bind (fun _ _ => Traced.records_pure)

theorem Holds.finish_records (h : Holds limit ts m) : (m.finish limit).Records Event.Sound := by
  obtain ⟨_, _, _, ha, -⟩ := h.exists_awaits
  unfold Machine.finish
  split
  · exact Traced.records_fail
  · refine (Machine.reduceAll_records _ ha.callsGuarded).bind (fun vs _ => ?_)
    split
    · exact Traced.records_fail
    · exact fun e he => by
        rcases List.mem_append.1 he with he | he
        · rw [List.mem_singleton.1 he]
          trivial
        · cases he
    · exact Traced.records_fail

end

theorem Cursor.symbol_records (expects : Expectation) (c : Cursor) : (c.symbol expects).Records Event.Sound := by
  have htake : ∀ c : Cursor, c.take.Records Event.Sound := fun c => by
    unfold Cursor.take
    split
    · exact List.forall_mem_singleton.2 trivial
    · exact Traced.records_fail
  unfold Cursor.symbol
  refine (htake c).bind (fun r _ => ?_)
  split
  · split
    · exact Traced.records_pure
    · refine Traced.Records.bind (fun _ he => nomatch he) (fun opens _ => ?_)
      split
      · exact (htake _).bind (fun _ _ => Traced.records_pure)
      · exact Traced.records_pure
  · exact Traced.records_pure

theorem Holds.run_records {limit : Nat} (hl : 1 ≤ limit) {ts : List Token} {m : Machine} (h : Holds limit ts m)
    (c : Cursor) : (m.run limit c).Records Event.Sound := by
  induction hn : c.rest.length using Nat.strongRecOn generalizing c m ts with
  | ind n ih =>
    by_cases hend : c.atEnd = true
    · rw [Machine.run_of_atEnd hend]
      exact h.finish_records
    · rw [Machine.run_of_not_atEnd hend]
      refine (c.symbol_records m.expects).bind (fun ⟨s, c'⟩ hs => (h.step_records s).bind (fun m' hm => ?_))
      have hholds := (h.step hl (Cursor.words_of_symbol hend hs).2).of_ok hm
      exact ih _ (hn ▸ Cursor.length_symbol_lt _ c c' s hs) hholds c' rfl

/-! ## How a run ends -/

/-- Not a fault of the machine itself: no value is left over, and only an operator lacks an operand. -/
def Fault.External : Fault → Prop
  | .leftoverValues _ => False
  | .missingOperand operator => operator = "unary -" ∨ ∃ op : Operator, operator = op.symbol.toString
  | _ => True

theorem Refuses.external {m : Machine} {t : Token} {e : Fault} (h : Refuses m t e) : e.External := by
  cases h <;> trivial

theorem RefusesEnd.external {limit : Nat} {e : Fault} (h : RefusesEnd limit e) : e.External := by
  cases h with
  | minus => exact .inl rfl
  | binary op => exact .inr ⟨op, rfl⟩
  | _ => trivial

/-- The faults in which a parse of scanned tokens may end. -/
inductive Rejects (limit : Nat) (s : Scan) : Fault → Prop
  | tooDeep : Rejects limit s (.tooDeep limit)
  | refused {m t e} : t ∈ s.words → Refuses m t e → Rejects limit s e
  | unfinished {e} : RefusesEnd limit e → Rejects limit s e
  | scanned {e} : s.fault = some e → Rejects limit s e

theorem Expr.parse_rejects (maxDepth : Nat) (source : String) :
    (Expr.parse maxDepth source).Ends (fun _ => True) (Rejects (max maxDepth 1) (Cursor.ofString source).scan) := by
  have hl : 1 ≤ max maxDepth 1 := Nat.le_max_right _ _
  unfold Traced.Ends
  rw [Expr.parse_eq_readAll, Reader.outcome_readAll]
  have hrejects : ∀ e, (e = .tooDeep (max maxDepth 1) ∨ ∃ m, ∃ t ∈ (Cursor.ofString source).scan.words, Refuses m t e) →
      Rejects (max maxDepth 1) (Cursor.ofString source).scan e := by
    rintro e (rfl | ⟨m, t, ht, he⟩)
    · exact .tooDeep
    · exact .refused ht he
  refine ((Reader.foldlM_feed_ends hl _).mono (fun _ h => h) hrejects).bind (fun r hr => ?_)
  unfold Reader.close
  cases he : (Cursor.ofString source).scan.fault with
  | none => exact (hr.holds hl).finish.mono (fun _ _ => trivial) (fun _ => .unfinished)
  | some e => exact .scanned he

/-- **Every fault of a parse is one of the source.** -/
theorem Expr.parse_external (maxDepth : Nat) (source : String) :
    (Expr.parse maxDepth source).Ends (fun _ => True) Fault.External := by
  refine (Expr.parse_rejects maxDepth source).mono (fun _ h => h) (fun e he => ?_)
  cases he with
  | tooDeep => trivial
  | refused _ he => exact he.external
  | unfinished he => exact he.external
  | scanned he =>
    obtain ⟨_, _, rfl⟩ := Cursor.scan_fault he
    trivial

theorem Fault.External.ne_of_isName {operator : String} (h : (Fault.missingOperand operator).External) {w : List Char}
    (hw : IsName w) : operator ≠ String.ofList w := by
  rintro rfl
  obtain ⟨hc, hcs⟩ := hw
  rcases h with h | ⟨op, h⟩
  · -- there is a space in it
    have hmem : ' ' ∈ "unary -".toList := by decide
    rw [← h, String.toList_ofList] at hmem
    rcases List.mem_cons.1 hmem with rfl | hmem
    · cases hc
    · cases hcs _ hmem
  · have hlist := congrArg String.toList h
    rw [String.toList_ofList] at hlist
    cases op <;> cases hlist <;> cases hc

/-- **The stacks between any two symbols of a run, and what the run therefore never does: no value is left over, no
value is missing at the end or to a call, and no parenthesis is reduced.** -/
theorem parse_invariant (maxDepth : Nat) (source : String) :
    (∀ ts m c, Machine.Reaches (max maxDepth 1) (Cursor.ofString source) ts m c →
      m.Invariant (max maxDepth 1) ts ∧ (Cursor.ofString source).scan.words = ts ++ c.scan.words ∧
        ∃ log, Expr.parse maxDepth source = Traced.after log (m.run (max maxDepth 1) c)) ∧
    (∀ n, (Expr.parse maxDepth source).outcome ≠ .error (.leftoverValues n)) ∧
    (∀ operator, (Expr.parse maxDepth source).outcome = .error (.missingOperand operator) →
      operator ≠ "end of input" ∧ ∀ id, .name id ∈ (Cursor.ofString source).scan.words → operator ≠ id) ∧
    ∀ e ∈ (Expr.parse maxDepth source).log, e.Sound := by
  have hl : 1 ≤ max maxDepth 1 := Nat.le_max_right _ _
  have hends := Expr.parse_external maxDepth source
  refine ⟨fun ts m c h => ⟨(h.holds hl).invariant, h.words, h.run⟩, fun n hn => ?_, fun operator ho => ⟨?_, ?_⟩, ?_⟩
  · exact hends.of_error hn
  · rcases hends.of_error ho with rfl | ⟨op, rfl⟩
    · decide
    · cases op <;> decide
  · intro id hid
    obtain ⟨w, hw⟩ := Cursor.spells_of_mem_words hid
    cases hw with
    | name hw => exact (hends.of_error ho).ne_of_isName hw
  · exact (Holds.operand .start).run_records hl (Cursor.ofString source)

/-- Within an argument the sum before the call is still pending.  The difference behind it has no right operand. -/
theorem parse_invariant_call :
    let ts : List Token := [.name "a", .operator .plus, .name "f", .leftParen, .name "b", .operator .times]
    let m : Machine := ⟨[.binary .times, .leftParen, .call "f" 1, .binary .plus],
      [.leaf (.name "b"), .leaf (.name "a")], .operandOrMinus⟩
    (∃ c, Machine.Reaches 4 (Cursor.ofString "a+f(b*c)-") ts m c) ∧ m.Invariant 4 ts ∧
    (Expr.parse 4 "a+f(b*c)-").outcome = .error (.missingOperand "-") ∧ "-" ≠ "end of input" ∧ "-" ≠ "f" := by
  intro ts m
  have hinside : Machine.Reaches 4 (Cursor.ofString "a+f(b*c)-") ts m ⟨"a+f(b*c)-".toList, "c)-".toList, 6⟩ := by
    have ha : Machine.Reaches 4 (Cursor.ofString "a+f(b*c)-") _ _ ⟨_, "+f(b*c)-".toList, 1⟩ :=
      .step .start (by decide) rfl rfl
    have hplus : Machine.Reaches 4 (Cursor.ofString "a+f(b*c)-") _ _ ⟨_, "f(b*c)-".toList, 2⟩ :=
      .step ha (by decide) rfl rfl
    have hopen : Machine.Reaches 4 (Cursor.ofString "a+f(b*c)-") _ _ ⟨_, "b*c)-".toList, 4⟩ :=
      .step hplus (by decide) rfl rfl
    have hb : Machine.Reaches 4 (Cursor.ofString "a+f(b*c)-") _ _ ⟨_, "*c)-".toList, 5⟩ :=
      .step hopen (by decide) rfl rfl
    exact .step hb (by decide) rfl rfl
  have hc : Machine.Reaches 4 (Cursor.ofString "a+f(b*c)-") _ _ ⟨_, ")-".toList, 7⟩ := .step hinside (by decide) rfl rfl
  have hclose : Machine.Reaches 4 (Cursor.ofString "a+f(b*c)-") _ _ ⟨_, "-".toList, 8⟩ := .step hc (by decide) rfl rfl
  have hminus : Machine.Reaches 4 (Cursor.ofString "a+f(b*c)-") _ _ ⟨_, [], 9⟩ := .step hclose (by decide) rfl rfl
  obtain ⟨hstates, -, hmissing, -⟩ := parse_invariant 4 "a+f(b*c)-"
  obtain ⟨-, hwords, log, hrun⟩ := hstates _ _ _ hminus
  have hfault : (Expr.parse 4 "a+f(b*c)-").outcome = .error (.missingOperand "-") := by
    rw [hrun, Machine.run_of_atEnd (by decide)]
    rfl
  have hf : .name "f" ∈ (Cursor.ofString "a+f(b*c)-").scan.words := by
    rw [hwords]
    exact List.mem_append_left _ (by simp [ts, Symbol.tokens])
  obtain ⟨hne, hnames⟩ := hmissing _ hfault
  exact ⟨⟨_, hinside⟩, (hstates _ _ _ hinside).1, hfault, hne, hnames "f" hf⟩

end Calculator
