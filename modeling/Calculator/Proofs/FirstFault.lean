import Calculator.Proofs.Limit
/-!
# Proofs.FirstFault — a fault is seen at the first token that cannot be continued

Whatever the stacks hold can be completed to an expression: every operator takes one more operand and every open
parenthesis is closed (`Awaits.complete`).  So a token that is read leaves the beginning of an expression, and
conversely the beginning of an expression is read, as the whole is.  The machine therefore refuses a token exactly where
no expression goes on, and what it says then can be told from the last two tokens (`expectationAfter`).

A limit of at least the number of tokens is never reached: every token adds one at most to the bulk of the stacks.
-/
namespace Calculator

open Category (ofLevel)

/-! ## Within the limit -/

namespace Machine

variable {limit bound : Nat} {m : Machine} (h : bulk m.pending m.values ≤ bound)
include h

theorem readOperand_bulk (t : Token) (e : Expr) :
    (m.readOperand t e).Ends (fun m' => bulk m'.pending m'.values ≤ bound + 1) Fault.NotDeep := by
  unfold readOperand
  split
  · exact fun k hk => by cases hk
  · simp only [Traced.ends_pure, bulk, heights, Operand.leaf] at h ⊢
    omega

theorem readLeftParen_bulk :
    m.readLeftParen.Ends (fun m' => bulk m'.pending m'.values ≤ bound + 1) Fault.NotDeep := by
  unfold readLeftParen
  split
  · exact fun k hk => by cases hk
  · simp only [Traced.ends_pure, bulk, List.length_cons] at h ⊢
    omega

variable (hb : bound ≤ limit)
include hb

theorem readRightParen_bulk :
    (m.readRightParen limit).Ends (fun m' => bulk m'.pending m'.values ≤ bound + 1) Fault.NotDeep := by
  unfold readRightParen
  split
  · split
    · have htail : bulk m.pending.tail m.values ≤ bound := by
        simp only [bulk, List.length_tail] at h ⊢
        omega
      exact (closeCall_bulk hb htail).bind (fun q hq => Nat.le_succ_of_le hq)
    · exact fun k hk => by cases hk
  · exact fun k hk => by cases hk
  · refine (reduceToParen_bulk hb _ _ h).bind (fun q hq => ?_)
    exact (closeCall_bulk hb hq).bind (fun q' hq' => Nat.le_succ_of_le hq')

theorem readOperator_bulk (op : Operator) :
    (m.readOperator limit op).Ends (fun m' => bulk m'.pending m'.values ≤ bound + 1) Fault.NotDeep := by
  unfold readOperator
  split
  · split
    · simp only [Traced.ends_pure, bulk, List.length_cons] at h ⊢
      omega
    · exact fun k hk => by cases hk
  · exact fun k hk => by cases hk
  · refine (reduceBefore_bulk hb op _ _ h).bind (fun q hq => ?_)
    simp only [Traced.ends_pure, bulk, List.length_cons] at hq ⊢
    omega

end Machine

namespace Reader

variable {limit bound : Nat} {r : Reader}

theorem feed_bulk (hb : bound ≤ limit) (h : Machine.bulk r.machine.pending r.machine.values ≤ bound) (t : Token) :
    (r.feed limit t).Ends (fun r' => Machine.bulk r'.machine.pending r'.machine.values ≤ bound + 1) Fault.NotDeep := by
  cases t with
  | number x =>
    rw [feed_number]
    exact (Machine.readOperand_bulk h _ _).map
  | name id =>
    rw [feed_name]
    refine (Machine.readOperand_bulk h _ _).bind (fun _ _ => ?_)
    simp only [Traced.ends_pure, machine, Machine.bulk, Machine.heights, Operand.leaf] at h ⊢
    omega
  | operator op =>
    rw [feed_operator]
    exact (Machine.readOperator_bulk h hb op).map
  | rightParen =>
    rw [feed_rightParen]
    exact (Machine.readRightParen_bulk h hb).map
  | leftParen =>
    cases r with
    | settled m => exact (Machine.readLeftParen_bulk h).map
    | named m id =>
      -- the name is no operand now, but a pending call
      simp only [machine, Machine.bulk, Machine.heights, Operand.leaf] at h
      show Machine.bulk (.leftParen :: .call id m.values.length :: m.pending) m.values ≤ bound + 1
      simp only [Machine.bulk, List.length_cons]
      omega

theorem foldlM_feed_bulk : ∀ (ts : List Token) (r : Reader) (bound : Nat),
    Machine.bulk r.machine.pending r.machine.values ≤ bound → bound + ts.length ≤ limit →
      (ts.foldlM (feed limit) r).Ends
        (fun r' => Machine.bulk r'.machine.pending r'.machine.values ≤ bound + ts.length) Fault.NotDeep
  | [], _, _, h, _ => h
  | t :: ts, r, bound, h, hb => by
    rw [List.foldlM_cons, List.length_cons] at *
    refine (feed_bulk (by omega) h t).bind (fun r' hr' => ?_)
    have := foldlM_feed_bulk ts r' (bound + 1) hr' (by omega)
    rwa [Nat.add_right_comm, Nat.add_assoc] at this

theorem foldlM_feed_of_le {limit' : Nat} {ts : List Token} (h : ts.length ≤ limit) (hl : limit ≤ limit') :
    ts.foldlM (feed limit) start = ts.foldlM (feed limit') start := by
  have hcut : Traced.CutTo limit (ts.foldlM (feed limit) start) (ts.foldlM (feed limit') start) :=
    .foldlM (fun r t => feed_cutTo hl r t) ts start
  refine hcut.eq_of_ne (fun k hk => ?_)
  exact (foldlM_feed_bulk ts start 0 (Nat.le_refl 0) (by omega)).of_error hk k rfl

end Reader

/-! ## What the stacks hold can be completed -/

/-- **A phrase that fits is the beginning of an expression, and the whole of one if no parenthesis is open.** -/
theorem Awaits.complete {limit : Nat} {ts : List Token} {ps : List Pending} {vs : List Operand}
    (h : Awaits limit ts ps vs) : ∀ {n : Nat} {ss : List Token} {x : Expr}, Fits n ps → Derives (ofLevel n) ss x →
      ∃ y rest, Derives .sum (ts ++ ss ++ rest) y ∧ (.leftParen ∉ ps → rest = []) := by
  induction h with
  | start =>
    intro n ss x _ hx
    have hsum : Derives .sum ss x := hx.loosen (Nat.zero_le n)
    refine ⟨x, [], ?_, fun _ => rfl⟩
    rwa [List.nil_append, List.append_nil]
  | leftParen ha ih =>
    intro n ss x _ hx
    obtain ⟨y, rest, hy, -⟩ := ih ha.fits (.parentheses (hx.loosen (Nat.zero_le n)))
    refine ⟨y, .rightParen :: rest, ?_, fun hmem => absurd List.mem_cons_self hmem⟩
    simpa using hy
  | openCall id ha ih =>
    intro n ss x _ hx
    obtain ⟨y, rest, hy, -⟩ := ih ha.fits (.call id (hx.loosen (Nat.zero_le n)))
    refine ⟨y, .rightParen :: rest, ?_, fun hmem => absurd List.mem_cons_self hmem⟩
    simpa using hy
  | minus _ hf ih =>
    intro n ss x hn hx
    have hp : Derives .primary ss x := hx.loosen hn
    obtain ⟨y, rest, hy, hrest⟩ := ih hf (.negation hp)
    refine ⟨y, rest, ?_, fun hmem => hrest (fun hps => hmem (List.mem_cons_of_mem _ hps))⟩
    simpa using hy
  | binary _ hf hl _ ih =>
    intro n ss x hn hx
    obtain ⟨y, rest, hy, hrest⟩ := ih hf (hl.binary (hx.loosen hn))
    refine ⟨y, rest, ?_, fun hmem => hrest (fun hps => hmem (List.mem_cons_of_mem _ hps))⟩
    simpa using hy

section
variable {limit : Nat} {ts : List Token} {m : Machine} {r : Reader}

theorem Holds.viable (h : Holds limit ts m) : Viable ts := by
  cases h with
  | operand ha =>
    -- any operand will do
    obtain ⟨y, rest, hy, -⟩ := ha.complete ha.fits (.name "x")
    rw [List.append_assoc] at hy
    exact ⟨_, y, hy⟩
  | operator hc =>
    obtain ⟨ha, hf, hx, -⟩ := hc
    obtain ⟨y, rest, hy, -⟩ := ha.complete hf hx
    exact ⟨rest, y, hy⟩

theorem Holds.isExpression (h : Holds limit ts m) (he : m.expects = .operator) (hp : .leftParen ∉ m.pending) :
    IsExpression ts := by
  obtain ⟨ps, vs, x⟩ := m
  obtain ⟨ha, hf, hx, -⟩ := h.completed he
  obtain ⟨y, rest, hy, hrest⟩ := ha.complete hf hx
  rw [hrest hp, List.append_nil] at hy
  exact ⟨y, hy⟩

/-- **The beginning of an expression is read**, whatever is to come. -/
theorem Viable.reads (hl : 1 ≤ limit) (hts : ts.length ≤ limit) (h : Viable ts) :
    ∃ r, (ts.foldlM (Reader.feed limit) .start).outcome = .ok r ∧ Reads limit ts r := by
  obtain ⟨rest, e, h⟩ := h
  have hread := congrArg Traced.outcome (Reader.foldlM_feed_finish h (Nat.le_max_right limit e.height))
  rw [List.foldlM_append, bind_assoc] at hread
  obtain ⟨r, hr, -⟩ := Traced.outcome_bind_ok hread
  rw [← Reader.foldlM_feed_of_le hts (Nat.le_max_left limit e.height)] at hr
  exact ⟨r, hr, (Reader.foldlM_feed_ends hl ts).of_ok hr⟩

end

/-! ## What the last two tokens tell -/

/-- Whether an operand may end with the token. -/
def Token.endsOperand : Token → Bool
  | .number _ | .name _ | .rightParen => true
  | .leftParen | .operator _ => false

/-- What may come next, told from the last tokens: a minus is unary if no operand ends before it. -/
def expectationAfter (ts : List Token) : Expectation :=
  match ts.reverse with
  | [] => .operandOrMinus
  | .operator .minus :: before => if before.head?.any Token.endsOperand then .operandOrMinus else .operand
  | t :: _ => if t.endsOperand then .operator else .operandOrMinus

theorem expectationAfter_of_endsOperand {t : Token} (h : t.endsOperand = true) (ts : List Token) :
    expectationAfter (ts ++ [t]) = .operator := by
  unfold expectationAfter
  rw [List.reverse_append, List.reverse_singleton, List.singleton_append]
  cases t <;> first | rfl | cases h

theorem Derives.endsOperand {c : Category} {ts : List Token} {e : Expr} (h : Derives c ts e) :
    ∃ us t, ts = us ++ [t] ∧ t.endsOperand = true := by
  induction h with
  | ofTerm _ ih => exact ih
  | ofFactor _ ih => exact ih
  | ofPrimary _ ih => exact ih
  | @addition op ls _ _ _ _ _ _ _ ih =>
    obtain ⟨us, t, rfl, ht⟩ := ih
    exact ⟨ls ++ .operator op :: us, t, by simp, ht⟩
  | @multiplication op ls _ _ _ _ _ _ _ ih =>
    obtain ⟨us, t, rfl, ht⟩ := ih
    exact ⟨ls ++ .operator op :: us, t, by simp, ht⟩
  | negation _ ih =>
    obtain ⟨us, t, rfl, ht⟩ := ih
    exact ⟨.operator .minus :: us, t, rfl, ht⟩
  | number x => exact ⟨[], _, rfl, rfl⟩
  | name id => exact ⟨[], _, rfl, rfl⟩
  | @parentheses ts => exact ⟨.leftParen :: ts, _, rfl, rfl⟩
  | emptyCall id => exact ⟨[.name id, .leftParen], _, rfl, rfl⟩
  | @call ts _ id => exact ⟨.name id :: .leftParen :: ts, _, rfl, rfl⟩

theorem Awaits.not_endsOperand {limit : Nat} {ts : List Token} {ps : List Pending} {vs : List Operand}
    (h : Awaits limit ts ps vs) : ts.getLast?.any Token.endsOperand = false := by
  cases h <;> simp [Token.endsOperand]

section
variable {limit : Nat} {ts : List Token}

theorem Awaits.expects {ps : List Pending} {vs : List Operand} (h : Awaits limit ts ps vs) :
    expectationOn ps = expectationAfter ts := by
  unfold expectationAfter
  cases h with
  | start => rfl
  | leftParen =>
    rw [List.reverse_append, List.reverse_singleton, List.singleton_append]
    rfl
  | openCall =>
    rw [List.reverse_append]
    rfl
  | minus ha =>
    rw [List.reverse_append, List.reverse_singleton, List.singleton_append]
    simp only [List.head?_reverse, ha.not_endsOperand, expectationOn]
    rfl
  | @binary _ _ _ op _ _ _ _ hd =>
    obtain ⟨us, t, rfl, ht⟩ := hd.endsOperand
    rw [List.reverse_append, List.reverse_singleton, List.singleton_append]
    cases op with
    | minus => simp [expectationOn, ht]
    | _ => rfl

theorem Holds.expects {m : Machine} (h : Holds limit ts m) : m.expects = expectationAfter ts := by
  cases h with
  | operand ha => exact ha.expects
  | operator hc =>
    obtain ⟨-, -, hx, -⟩ := hc
    obtain ⟨us, t, rfl, ht⟩ := hx.endsOperand
    rw [← List.append_assoc, expectationAfter_of_endsOperand ht]

theorem Reads.expects {r : Reader} (hl : 1 ≤ limit) (h : Reads limit ts r) :
    r.machine.expects = expectationAfter ts := (h.holds hl).expects

end

/-- **An operator is due exactly where an operand has ended.** -/
theorem Viable.expectationAfter_eq_operator_iff {ts : List Token} (h : Viable ts) :
    expectationAfter ts = .operator ↔ ∃ us ss x, ts = us ++ ss ∧ Derives .primary ss x := by
  constructor
  · intro he
    have hl : 1 ≤ ts.length + 1 := Nat.succ_pos _
    obtain ⟨r, -, hr⟩ := h.reads hl (Nat.le_succ ts.length)
    rw [← hr.expects hl] at he
    have hc := (hr.holds hl).completed he
    generalize r.machine.values = vs at hc
    obtain ⟨-, -, hx, -⟩ := hc
    exact ⟨_, _, _, rfl, hx⟩
  · rintro ⟨us, ss, x, rfl, hx⟩
    obtain ⟨ss, t, rfl, ht⟩ := hx.endsOperand
    rw [← List.append_assoc, expectationAfter_of_endsOperand ht]

/-! ## The first fault -/

/-- The fault at a token with which no expression goes on. -/
inductive FaultAt (before : List Token) (t : Token) : Fault → Prop
  | surplus : t = .rightParen → IsExpression before → FaultAt before t (.mismatchedParen .right)
  | unexpected : ¬ (t = .rightParen ∧ IsExpression before) →
      FaultAt before t (.unexpectedToken (expectationAfter before) t.text)

section
variable {limit : Nat} {before : List Token} {t : Token} {r : Reader}

theorem IsExpression.expectationAfter (h : IsExpression before) : expectationAfter before = .operator := by
  obtain ⟨e, h⟩ := h
  obtain ⟨us, t, rfl, ht⟩ := h.endsOperand
  exact expectationAfter_of_endsOperand ht us

theorem Refuses.faultAt {e : Fault} (hl : 1 ≤ limit) (hreads : Reads limit before r) (h : Refuses r.machine t e) :
    FaultAt before t e := by
  cases h with
  | unexpected hne =>
    have he := hreads.expects hl
    rw [he]
    exact .unexpected (fun ⟨ht, hb⟩ => hne ⟨ht, he.trans hb.expectationAfter⟩)
  | mismatched ht he hmem => exact .surplus ht ((hreads.holds hl).isExpression he hmem)

theorem Reader.outcome_foldlM_concat (hr : (before.foldlM (feed limit) start).outcome = .ok r) (t : Token) :
    ((before ++ [t]).foldlM (feed limit) start).outcome = (r.feed limit t).outcome := by
  rw [List.foldlM_append, Traced.outcome_bind_of_ok hr, List.foldlM_cons, Traced.outcome_bind]
  cases (r.feed limit t).outcome <;> rfl

/-- **A token with which no expression goes on is refused.** -/
theorem Reader.feed_of_not_viable (hlen : before.length + 1 ≤ limit) (hv : Viable before)
    (hn : ¬ Viable (before ++ [t])) :
    ∃ e, ((before ++ [t]).foldlM (feed limit) start).outcome = .error e ∧ FaultAt before t e := by
  have hl : 1 ≤ limit := by omega
  obtain ⟨r, hr, hreads⟩ := hv.reads hl (Nat.le_of_succ_le hlen)
  have hfold := outcome_foldlM_concat hr t
  rw [hfold]
  cases ht : (r.feed limit t).outcome with
  | ok r' =>
    have hreads' := (hreads.feed hl t).of_ok ht
    exact absurd (hreads'.holds hl).viable hn
  | error e =>
    refine ⟨e, rfl, ?_⟩
    rcases (hreads.feed hl t).of_error ht with rfl | hrefuses
    · have hlen' : 0 + (before ++ [t]).length ≤ limit := by simpa using hlen
      have hbulk := foldlM_feed_bulk (before ++ [t]) start 0 (Nat.le_refl 0) hlen'
      exact absurd rfl (hbulk.of_error (hfold.trans ht) limit)
    · exact hrefuses.faultAt hl hreads

/-- **A token is refused only if no expression goes on with it**, whatever the limit. -/
theorem Reader.refuses_feed {e : Fault} (hl : 1 ≤ limit) (hr : (before.foldlM (feed limit) start).outcome = .ok r)
    (he : (r.feed limit t).outcome = .error e) (hdeep : e ≠ .tooDeep limit) :
    Viable before ∧ ¬ Viable (before ++ [t]) ∧ FaultAt before t e := by
  have hreads : Reads limit before r := (foldlM_feed_ends hl before).of_ok hr
  have hrefuses := ((hreads.feed hl t).of_error he).resolve_left hdeep
  refine ⟨(hreads.holds hl).viable, fun hv => ?_, hrefuses.faultAt hl hreads⟩
  -- a limit that allows for all tokens would read this one, too
  have hle : limit ≤ max limit (before ++ [t]).length := Nat.le_max_left _ _
  obtain ⟨r', hr', -⟩ := hv.reads (Nat.le_trans hl hle) (Nat.le_max_right _ _)
  have hcut := Traced.CutTo.foldlM (fun r t => feed_cutTo hle r t) (before ++ [t]) start
  have hfold := (outcome_foldlM_concat hr t).trans he
  rcases hcut.outcome_eq_or with h | h
  · cases hfold.symm.trans (h.trans hr')
  · cases hfold.symm.trans h
    exact hdeep rfl

end

/-- **A parse whose limit allows for every token fails at the first token with which no expression goes on, whatever
comes after it; and if there is none before an unrecognized symbol, it fails there.**  Up to that token an operator is
expected exactly where an operand has ended. -/
theorem parse_first_fault (maxDepth : Nat) (source : String)
    (h : (Cursor.ofString source).scan.words.length ≤ maxDepth) :
    let s := (Cursor.ofString source).scan
    (∀ before t after, s.words = before ++ t :: after → Viable before → ¬ Viable (before ++ [t]) →
      ∃ e, (Expr.parse maxDepth source).outcome = .error e ∧ FaultAt before t e) ∧
    (∀ e, s.fault = some e → (∃ symbol offset, e = .unrecognizedSymbol symbol offset) ∧
      (Viable s.words → (Expr.parse maxDepth source).outcome = .error e)) ∧
    ∀ before, before <+: s.words → Viable before →
      (expectationAfter before = .operator ↔ ∃ us ss x, before = us ++ ss ∧ Derives .primary ss x) := by
  intro s
  have hlimit : s.words.length ≤ max maxDepth 1 := Nat.le_trans h (Nat.le_max_left _ _)
  rw [Expr.parse_eq_readAll, Reader.outcome_readAll]
  refine ⟨fun before t after hs hv hn => ?_, fun e he => ⟨Cursor.scan_fault he, fun hv => ?_⟩,
    fun before _ hv => hv.expectationAfter_eq_operator_iff⟩
  · have hlen : before.length + 1 ≤ max maxDepth 1 := by
      have := congrArg List.length hs
      rw [List.length_append, List.length_cons] at this
      omega
    obtain ⟨e, hfold, he⟩ := Reader.feed_of_not_viable hlen hv hn
    refine ⟨e, ?_, he⟩
    have hsplit : s.words = (before ++ [t]) ++ after := by simpa using hs
    rw [hsplit, List.foldlM_append, bind_assoc, Traced.outcome_bind_of_error hfold]
  · obtain ⟨r, hr, -⟩ := hv.reads (Nat.le_max_right maxDepth 1) hlimit
    rw [Traced.outcome_bind_of_ok hr, he]
    rfl

theorem parse_first_fault_surplus : (Expr.parse 2 "x)").outcome = .error (.mismatchedParen .right) := by
  have hs : (Cursor.ofString "x)").scan.words = [.name "x", .rightParen] := by
    iterate 2 rw [Cursor.scan_of_get_ok (by decide) rfl]
    rw [Cursor.scan_of_atEnd rfl]
    rfl
  have hx : Derives .sum [.name "x"] (.name "x") := .ofTerm (.ofFactor (.ofPrimary (.name "x")))
  have hn : ¬ Viable [.name "x", .rightParen] := by
    intro hv
    obtain ⟨r, hr, -⟩ : ∃ r, (List.foldlM (Reader.feed 2) .start [.name "x", .rightParen]).outcome = .ok r ∧ _ :=
      hv.reads (by decide) (by decide)
    cases hr
  obtain ⟨e, he, hf⟩ :=
    (parse_first_fault 2 "x)" (by rw [hs]; decide)).1 [.name "x"] .rightParen [] hs ⟨[], _, hx⟩ hn
  cases hf with
  | surplus => exact he
  | unexpected hne => exact absurd ⟨rfl, _, hx⟩ hne

end Calculator
