import Calculator.Proofs.Context
/-!
# Proofs.Acceptance — exactly the expressions are read

`Absorbs` is what reading a phrase does to the machine: once all down to its level is reduced, the phrase is one operand
more, and nothing else has changed.  Every derivation is absorbed (`Derives.absorbs`), so every expression within the
limit is read, and as the tree of its derivation.  With what the stacks hold (`Proofs.Context`) this is the converse of
only expressions being read, and there is no other tree to derive.

The reductions on the way are those of the tree from below, in order.
-/
namespace Calculator

open Category (ofLevel)

/-- The reductions that build a tree above `base` values. -/
def Expr.reductions (base : Nat) : Expr → List Event
  | .number _ | .name _ => []
  | .binary op l r => l.reductions base ++ r.reductions (base + 1) ++ [.reduce (.binary op) (base + 2)]
  | .negate e => e.reductions base ++ [.reduce .unaryMinus (base + 1)]
  | .call id [] => [.reduce (.call id base) base]
  | .call id (e :: _) => e.reductions base ++ [.reduce (.call id base) (base + 1)]

theorem Fits.mono {k n : Nat} (h : k ≤ n) {ps : List Pending} (hf : Fits k ps) : Fits n ps := by
  match ps, hf with
  | [], _ => trivial
  | .leftParen :: _, _ => trivial
  | .binary _ :: _, hf => exact Nat.lt_of_lt_of_le hf h
  | .unaryMinus :: _, hf => exact Nat.lt_of_lt_of_le hf h

theorem Machine.reduceFrom_of_fits {n : Nat} {ps : List Pending} (h : Fits n ps) (limit : Nat) (vs : List Operand) :
    reduceFrom limit n ps vs = pure (ps, vs) :=
  reduceFrom_of_stop (fun p hp => by
    obtain ⟨qs, rfl⟩ : ∃ qs, ps = p :: qs := by
      cases ps with
      | nil => cases hp
      | cons q qs => cases hp; exact ⟨qs, rfl⟩
    exact h.bindsAt) limit vs

/-- Whether a phrase of the category may start where this is expected. -/
def Category.Starts (c : Category) (e : Expectation) : Prop := e = .operandOrMinus ∨ e = .operand ∧ c = .primary

theorem Category.Starts.ne_operator {c : Category} {e : Expectation} (h : c.Starts e) : e ≠ .operator := by
  rcases h with rfl | ⟨rfl, -⟩ <;> exact fun h => by cases h

theorem Category.Starts.eq_of_ne {c : Category} {e : Expectation} (h : c.Starts e) (hc : c ≠ .primary) :
    e = .operandOrMinus :=
  h.resolve_right (fun h => hc h.2)

namespace Reader

/-- The reader takes the tokens for a phrase of the level with this tree. -/
def Absorbs (limit n : Nat) (r : Reader) (ts : List Token) (e : Expr) : Prop :=
  ∃ (r' : Reader) (log log' : List Event), ts.foldlM (feed limit) r = ⟨log, .ok r'⟩ ∧ r'.machine.expects = .operator ∧
    Machine.reduceFrom limit n r'.machine.pending r'.machine.values
      = ⟨log', .ok (r.machine.pending, .of e :: r.machine.values)⟩ ∧
    log ++ log' = e.reductions r.machine.values.length

section
variable {limit n : Nat} {r : Reader}

def push (r : Reader) (e : Expr) : Reader := settled ⟨r.machine.pending, .of e :: r.machine.values, .operator⟩

theorem eq_settled (h : r.machine.expects ≠ .operator) : r = settled r.machine := by
  cases r with
  | settled m => rfl
  | named m id => exact absurd rfl h

theorem feed_number_of_ne (h : r.machine.expects ≠ .operator) (x : Float) :
    r.feed limit (.number x) = pure (r.push (.number x)) := by
  rw [feed_number, Machine.readOperand]
  split
  · exact absurd ‹_› h
  · rfl

theorem feed_name_of_ne (h : r.machine.expects ≠ .operator) (id : String) :
    r.feed limit (.name id) = pure (named r.machine id) := by
  rw [feed_name, Machine.readOperand]
  split
  · exact absurd ‹_› h
  · rfl

theorem feed_leftParen_of_ne (h : r.machine.expects ≠ .operator) :
    r.feed limit .leftParen
      = pure (settled ⟨.leftParen :: r.machine.pending, r.machine.values, .operandOrMinus⟩) := by
  rw [eq_settled h, feed_settled_of_ne_name (fun _ h => by cases h)]
  show settled <$> r.machine.readLeftParen = _
  rw [Machine.readLeftParen]
  split
  · exact absurd ‹_› h
  · rfl

theorem feed_minus_of_eq (h : r.machine.expects = .operandOrMinus) :
    r.feed limit (.operator .minus)
      = pure (settled ⟨.unaryMinus :: r.machine.pending, r.machine.values, .operand⟩) := by
  rw [feed_operator, Machine.readOperator, h]
  rfl

theorem feed_operator_of_eq (h : r.machine.expects = .operator) (op : Operator) :
    r.feed limit (.operator op)
      = Machine.reduceFrom limit op.precedence r.machine.pending r.machine.values >>= fun q =>
          pure (settled ⟨.binary op :: q.1, q.2, .operandOrMinus⟩) := by
  rw [feed_operator, Machine.readOperator, h]
  simp only [Machine.reduceBefore_eq_reduceFrom, map_eq_pure_bind, bind_assoc, pure_bind]

theorem feed_rightParen_of_eq (h : r.machine.expects = .operator) :
    r.feed limit .rightParen
      = Machine.reduceToParen limit r.machine.pending r.machine.values >>= fun q =>
          Machine.closeCall limit q.1 q.2 >>= fun q => pure (settled ⟨q.1, q.2, .operator⟩) := by
  rw [feed_rightParen, Machine.readRightParen, h]
  simp only [map_eq_pure_bind, bind_assoc, pure_bind]

theorem absorbs_of_foldlM {ts : List Token} {e : Expr} (hf : Fits n r.machine.pending)
    (h : ts.foldlM (feed limit) r = ⟨e.reductions r.machine.values.length, .ok (r.push e)⟩) :
    r.Absorbs limit n ts e := by
  refine ⟨_, _, [], h, rfl, ?_, List.append_nil _⟩
  exact Machine.reduceFrom_of_fits hf limit _

theorem Absorbs.loosen {k : Nat} {ts : List Token} {e : Expr} (hk : k ≤ n) (hf : Fits k r.machine.pending)
    (h : r.Absorbs limit n ts e) : r.Absorbs limit k ts e := by
  obtain ⟨r', log, log', hread, he, hred, hlog⟩ := h
  refine ⟨r', log, log', hread, he, ?_, hlog⟩
  rw [← Machine.reduceFrom_bind_reduceFrom hk, hred, Traced.ok_bind_eq_after, Machine.reduceFrom_of_fits hf,
    Traced.after_pure]

theorem Absorbs.binary {op : Operator} (hn : op.precedence = n) {ls rs : List Token} {a b : Expr}
    (hf : Fits n r.machine.pending) (hh : (Expr.binary op a b).height ≤ limit) (hl : r.Absorbs limit n ls a)
    (hr : (settled ⟨.binary op :: r.machine.pending, .of a :: r.machine.values, .operandOrMinus⟩).Absorbs limit
      (n + 1) rs b) :
    r.Absorbs limit n (ls ++ .operator op :: rs) (.binary op a b) := by
  subst hn
  obtain ⟨r₁, log₁, log₁', hread₁, he₁, hred₁, hlog₁⟩ := hl
  obtain ⟨r₂, log₂, log₂', hread₂, he₂, hred₂, hlog₂⟩ := hr
  have hc : Machine.combine (.binary op) (.of b :: .of a :: r.machine.values)
      = .ok (.of (.binary op a b), r.machine.values) := rfl
  refine ⟨r₂, log₁ ++ (log₁' ++ log₂), log₂' ++ [.reduce (.binary op) (r.machine.values.length + 2)], ?_, he₂, ?_, ?_⟩
  · rw [List.foldlM_append, hread₁, Traced.ok_bind_eq_after, List.foldlM_cons, feed_operator_of_eq he₁, hred₁]
    simp only [Traced.ok_bind_eq_after, Traced.after_bind, pure_bind, hread₂, Traced.after_mk]
  · have hb : (Pending.binary op).bindsAt op.precedence = true := decide_eq_true (Nat.le_refl _)
    rw [← Machine.reduceFrom_bind_reduceFrom (Nat.le_succ op.precedence), hred₂,
      Traced.ok_bind_eq_after]
    simp only [machine_settled, Machine.reduceFrom, hb, if_true, Machine.reduce_of_le hc hh, Traced.ok_bind_eq_after,
      Machine.reduceFrom_of_fits hf, Traced.after_pure, Traced.after_mk, List.length_cons]
  · rw [Expr.reductions, ← hlog₁]
    simp only [machine_settled, List.length_cons] at hlog₂
    rw [← hlog₂]
    simp only [List.append_assoc]

theorem Absorbs.negate {ts : List Token} {e : Expr} (hf : Fits 2 r.machine.pending)
    (hs : r.machine.expects = .operandOrMinus) (hh : (Expr.negate e).height ≤ limit)
    (h : (settled ⟨.unaryMinus :: r.machine.pending, r.machine.values, .operand⟩).Absorbs limit 3 ts e) :
    r.Absorbs limit 2 (.operator .minus :: ts) (.negate e) := by
  obtain ⟨r', log, log', hread, he, hred, hlog⟩ := h
  have hc : Machine.combine .unaryMinus (.of e :: r.machine.values) = .ok (.of (.negate e), r.machine.values) := rfl
  refine ⟨r', log, log' ++ [.reduce .unaryMinus (r.machine.values.length + 1)], ?_, he, ?_, ?_⟩
  · rw [List.foldlM_cons, feed_minus_of_eq hs, pure_bind, hread]
  · have hb : Pending.unaryMinus.bindsAt 2 = true := rfl
    rw [← Machine.reduceFrom_bind_reduceFrom (Nat.le_succ 2), hred,
      Traced.ok_bind_eq_after]
    simp only [machine_settled, Machine.reduceFrom, hb, if_true, Machine.reduce_of_le hc hh, Traced.ok_bind_eq_after,
      Machine.reduceFrom_of_fits hf, Traced.after_pure, Traced.after_mk, List.length_cons]
  · rw [Expr.reductions, ← List.append_assoc, hlog]
    rfl

/-- What stands in an open parenthesis, up to the closing one. -/
theorem Absorbs.foldlM_rightParen {ps : List Pending} {vs : List Operand} {ts : List Token} {e : Expr}
    (h : (settled ⟨.leftParen :: ps, vs, .operandOrMinus⟩).Absorbs limit 0 ts e) :
    (ts ++ [Token.rightParen]).foldlM (feed limit) (settled ⟨.leftParen :: ps, vs, .operandOrMinus⟩)
      = Traced.after (e.reductions vs.length) (Machine.closeCall limit ps (.of e :: vs) >>= fun q =>
          pure (settled ⟨q.1, q.2, .operator⟩)) := by
  obtain ⟨r, log, log', hread, he, hred, hlog⟩ := h
  rw [machine_settled] at hred hlog
  rw [List.foldlM_append, hread, Traced.ok_bind_eq_after, List.foldlM_cons, feed_rightParen_of_eq he,
    ← Machine.reduceFrom_bind_reduceToParen (n := 0), hred, ← hlog]
  simp only [Traced.ok_bind_eq_after, Traced.after_bind, Traced.after_after, Machine.reduceToParen, pure_bind,
    bind_assoc, List.foldlM_nil]

theorem feed_openCall_of_ne (h : r.machine.expects ≠ .operator) (id : String) (ts : List Token) :
    (Token.name id :: .leftParen :: ts).foldlM (feed limit) r = ts.foldlM (feed limit)
      (settled ⟨.leftParen :: .call id r.machine.values.length :: r.machine.pending, r.machine.values,
        .operandOrMinus⟩) := by
  rw [List.foldlM_cons, feed_name_of_ne h, pure_bind, List.foldlM_cons]
  rfl

theorem absorbs_number (hf : Fits n r.machine.pending) (hs : r.machine.expects ≠ .operator) (x : Float) :
    r.Absorbs limit n [.number x] (.number x) := by
  refine absorbs_of_foldlM hf ?_
  rw [List.foldlM_cons, feed_number_of_ne hs, Expr.reductions]
  rfl

theorem absorbs_name (hf : Fits n r.machine.pending) (hs : r.machine.expects ≠ .operator) (id : String) :
    r.Absorbs limit n [.name id] (.name id) := by
  refine ⟨named r.machine id, [], [], ?_, rfl, Machine.reduceFrom_of_fits hf limit _, rfl⟩
  rw [List.foldlM_cons, feed_name_of_ne hs]
  rfl

theorem Absorbs.foldlM_parentheses {ts : List Token} {e : Expr} (hf : Fits 3 r.machine.pending)
    (hs : r.machine.expects ≠ .operator)
    (h : (settled ⟨.leftParen :: r.machine.pending, r.machine.values, .operandOrMinus⟩).Absorbs limit 0 ts e) :
    (Token.leftParen :: ts ++ [Token.rightParen]).foldlM (feed limit) r
      = ⟨e.reductions r.machine.values.length, .ok (r.push e)⟩ := by
  rw [List.cons_append, List.foldlM_cons, feed_leftParen_of_ne hs, pure_bind, h.foldlM_rightParen,
    Machine.closeCall_of_fits hf, pure_bind, Traced.after_pure]
  rfl

theorem absorbs_emptyCall (hf : Fits n r.machine.pending) (hs : r.machine.expects ≠ .operator) (id : String)
    (hh : (Expr.call id []).height ≤ limit) : r.Absorbs limit n [.name id, .leftParen, .rightParen] (.call id []) := by
  refine absorbs_of_foldlM hf ?_
  have he : Machine.atEmptyCall ⟨.leftParen :: .call id r.machine.values.length :: r.machine.pending,
      r.machine.values, .operandOrMinus⟩ = true := beq_self_eq_true r.machine.values.length
  rw [feed_openCall_of_ne hs, List.foldlM_cons, feed_rightParen, machine_settled, Machine.readRightParen,
    Expr.reductions]
  simp only [he, if_true, List.tail_cons, Machine.closeCall,
    Machine.reduce_of_le (Machine.combine_emptyCall id r.machine.values) hh]
  rfl

theorem Absorbs.call {ts : List Token} {e : Expr} (hf : Fits n r.machine.pending)
    (hs : r.machine.expects ≠ .operator) (id : String) (hh : (Expr.call id [e]).height ≤ limit)
    (h : (settled ⟨.leftParen :: .call id r.machine.values.length :: r.machine.pending, r.machine.values,
      .operandOrMinus⟩).Absorbs limit 0 ts e) :
    r.Absorbs limit n (.name id :: .leftParen :: ts ++ [.rightParen]) (.call id [e]) := by
  refine absorbs_of_foldlM hf ?_
  rw [List.cons_append, List.cons_append, feed_openCall_of_ne hs, h.foldlM_rightParen, Expr.reductions]
  simp only [Machine.closeCall, Machine.reduce_of_le (Machine.combine_call id e r.machine.values) hh]
  rfl

end
end Reader

/-- **Every phrase within the limit is read as its tree.** -/
theorem Derives.absorbs {limit : Nat} {c : Category} {ts : List Token} {e : Expr} (h : Derives c ts e) :
    ∀ {r : Reader}, Fits c.level r.machine.pending → c.Starts r.machine.expects → e.height ≤ limit →
      r.Absorbs limit c.level ts e := by
  -- what the machine holds besides counts only as far as `Fits` and `Starts` say
  induction h with
  | ofTerm _ ih =>
    intro r hf hs hh
    exact (ih (hf.mono (Nat.zero_le 1)) (.inl (hs.eq_of_ne (by decide))) hh).loosen (Nat.zero_le 1) hf
  | ofFactor _ ih =>
    intro r hf hs hh
    exact (ih (hf.mono (Nat.le_succ 1)) (.inl (hs.eq_of_ne (by decide))) hh).loosen (Nat.le_succ 1) hf
  | ofPrimary _ ih =>
    intro r hf hs hh
    exact (ih (hf.mono (Nat.le_succ 2)) (.inl (hs.eq_of_ne (by decide))) hh).loosen (Nat.le_succ 2) hf
  | @addition op _ _ l r' hop _ _ ihl ihr =>
    intro r hf hs hh
    have hp : op.precedence = 0 := by rcases hop with rfl | rfl <;> rfl
    have hfits : Fits 1 (.binary op :: r.machine.pending) := by rw [Fits, hp]; decide
    have hl : l.height ≤ limit ∧ r'.height ≤ limit := by rw [Expr.height] at hh; omega
    exact .binary hp hf hh (ihl hf hs hl.1) (ihr hfits (.inl rfl) hl.2)
  | @multiplication op _ _ l r' hop _ _ ihl ihr =>
    intro r hf hs hh
    have hp : op.precedence = 1 := by rcases hop with rfl | rfl <;> rfl
    have hfits : Fits 2 (.binary op :: r.machine.pending) := by rw [Fits, hp]; decide
    have hl : l.height ≤ limit ∧ r'.height ≤ limit := by rw [Expr.height] at hh; omega
    exact .binary hp hf hh (ihl hf hs hl.1) (ihr hfits (.inl rfl) hl.2)
  | @negation _ e _ ih =>
    intro r hf hs hh
    have hl : e.height ≤ limit := by rw [Expr.height] at hh; omega
    exact .negate hf (hs.eq_of_ne (by decide)) hh (ih (Nat.lt_succ_self 2) (.inr ⟨rfl, rfl⟩) hl)
  | number x =>
    intro r hf hs _
    exact Reader.absorbs_number hf hs.ne_operator x
  | name id =>
    intro r hf hs _
    exact Reader.absorbs_name hf hs.ne_operator id
  | parentheses _ ih =>
    intro r hf hs hh
    exact Reader.absorbs_of_foldlM hf (Reader.Absorbs.foldlM_parentheses hf hs.ne_operator (ih trivial (.inl rfl) hh))
  | emptyCall id =>
    intro r hf hs hh
    exact Reader.absorbs_emptyCall hf hs.ne_operator id hh
  | @call _ e id _ ih =>
    intro r hf hs hh
    have hl : e.height ≤ limit := by
      simp only [Expr.height, Expr.tallest] at hh
      omega
    exact .call hf hs.ne_operator id hh (ih trivial (.inl rfl) hl)

/-! ## The end -/

/-- The faults with which a machine refuses the end.  A missing operand is that of a pending operator. -/
inductive RefusesEnd (limit : Nat) : Fault → Prop
  | empty : RefusesEnd limit .endOfInput
  | tooDeep : RefusesEnd limit (.tooDeep limit)
  | unclosed : RefusesEnd limit (.mismatchedParen .left)
  | minus : RefusesEnd limit (.missingOperand "unary -")
  | binary (op : Operator) : RefusesEnd limit (.missingOperand op.symbol.toString)

/-- While an operand is due the end is never accepted: a value is missing to each operator. -/
theorem Awaits.reduceAll {limit : Nat} {ts : List Token} {ps : List Pending} {vs : List Operand}
    (h : Awaits limit ts ps vs) : ∀ ws : List Operand, ws.length = vs.length →
      (Machine.reduceAll limit ps ws).Ends (fun _ => ps = [] ∧ ws = []) (RefusesEnd limit) := by
  induction h with
  | start =>
    intro ws hws
    exact ⟨rfl, List.length_eq_zero_iff.1 hws⟩
  | leftParen => intro ws _; exact .unclosed
  | openCall => intro ws _; exact .unclosed
  | minus _ _ ih =>
    intro ws hws
    cases ws with
    | nil =>
      rw [Machine.reduceAll, Machine.reduce_of_error rfl]
      · exact .minus
      · exact fun h => by cases h
    | cons x ws =>
      have hc : Machine.combine .unaryMinus (x :: ws) = .ok _ := rfl
      refine ((Machine.reduce_ends hc limit).mono (fun _ h => h) (fun e he => he ▸ .tooDeep)).bind (fun us hus => ?_)
      obtain ⟨rfl, -⟩ := hus
      have hend := ih (⟨.negate x.expr, x.height + 1⟩ :: ws) hws
      exact hend.mono (fun _ h => nomatch h.2) (fun _ h => h)
  | @binary _ _ _ op _ _ _ _ _ _ ih =>
    intro ws hws
    match ws, hws with
    | [x], hws =>
      rw [Machine.reduceAll, Machine.reduce_of_error rfl]
      · exact .binary op
      · exact fun h => by cases h
    | y :: x :: ws, hws =>
      have hc : Machine.combine (.binary op) (y :: x :: ws) = .ok _ := rfl
      refine ((Machine.reduce_ends hc limit).mono (fun _ h => h) (fun e he => he ▸ .tooDeep)).bind (fun us hus => ?_)
      obtain ⟨rfl, -⟩ := hus
      have hend := ih (⟨.binary op x.expr y.expr, max x.height y.height + 1⟩ :: ws) (by simpa using hws)
      exact hend.mono (fun _ h => nomatch h.2) (fun _ h => h)

theorem Machine.finish_of_values {m : Machine} (h : m.values ≠ []) (limit : Nat) :
    m.finish limit = reduceAll limit m.pending m.values >>= fun
      | [] => Traced.fail (.missingOperand "end of input")
      | [root] => do
        Traced.record (.parsed root.height)
        pure root.expr
      | vs => Traced.fail (.leftoverValues vs.length) := by
  obtain ⟨ps, vs, expects⟩ := m
  cases vs with
  | nil => exact absurd rfl h
  | cons v vs => cases ps <;> rfl

theorem Holds.finish {limit : Nat} {ts : List Token} {m : Machine} (h : Holds limit ts m) :
    (m.finish limit).Ends (fun e => Derives .sum ts e ∧ e.height ≤ limit) (RefusesEnd limit) := by
  cases h with
  | operand ha =>
    unfold Machine.finish
    split
    · exact .empty
    · rename_i hne
      exact (ha.reduceAll _ rfl).bind (fun us hus => (hne hus.1 hus.2).elim)
  | operator hc =>
    rw [Machine.finish_of_values hc.values_ne_nil]
    refine (hc.reduceAll.mono (fun _ h => h) (fun e he => ?_)).bind (fun us hus => ?_)
    · rcases he with rfl | ⟨rfl, -⟩
      · exact .tooDeep
      · exact .unclosed
    · obtain ⟨x, rfl, hx⟩ := hus
      exact hx

theorem Expr.one_le_height (e : Expr) : 1 ≤ e.height := by
  cases e <;> simp [Expr.height]

namespace Reader

/-- Tokens are read until one of them is refused, or makes a tree too tall. -/
theorem foldlM_feed_ends {limit : Nat} (hl : 1 ≤ limit) (ts : List Token) :
    (ts.foldlM (feed limit) start).Ends (Reads limit ts)
      (fun e => e = .tooDeep limit ∨ ∃ m, ∃ t ∈ ts, Refuses m t e) :=
  Traced.Ends.foldlM (I := Reads limit) ts
    (fun _ t _ ht h => (h.feed hl t).mono (fun _ h => h) (fun _ he => he.imp_right (fun he => ⟨_, t, ht, he⟩)))
    [] start Reads.start

/-- **An expression within the limit is read to its end, with the reductions of its tree.** -/
theorem foldlM_feed_finish {limit : Nat} {ts : List Token} {e : Expr} (h : Derives .sum ts e) (hh : e.height ≤ limit) :
    (ts.foldlM (feed limit) start >>= fun r => r.machine.finish limit)
      = ⟨e.reductions 0 ++ [.parsed e.height], .ok e⟩ := by
  obtain ⟨r, log, log', hread, he, hred, hlog⟩ := h.absorbs (r := start) trivial (.inl rfl) hh
  have hl : 1 ≤ limit := Nat.le_trans e.one_le_height hh
  have hr : Reads limit ts r := (foldlM_feed_ends hl ts).of_ok (congrArg Traced.outcome hread)
  have hv : r.machine.values ≠ [] := ((hr.holds hl).completed he).values_ne_nil
  change Machine.reduceFrom limit 0 _ _ = _ at hred
  rw [hread, Traced.ok_bind_eq_after, Machine.finish_of_values hv, ← Machine.reduceFrom_bind_reduceAll (n := 0), hred]
  simp only [Traced.ok_bind_eq_after, Traced.after_bind, Traced.after_after]
  rw [hlog]
  rfl

theorem derives_of_foldlM {limit : Nat} (hl : 1 ≤ limit) {ts : List Token} {e : Expr}
    (h : (ts.foldlM (feed limit) start >>= fun r => r.machine.finish limit).outcome = .ok e) :
    Derives .sum ts e ∧ e.height ≤ limit := by
  obtain ⟨r, hr, hc⟩ := Traced.outcome_bind_ok h
  exact (((foldlM_feed_ends hl ts).of_ok hr).holds hl).finish.of_ok hc

/-- The places of the tokens are only recorded. -/
theorem only_readAll {p : Event → Bool} (hp : ∀ t n, p (.token t n) = false) (limit : Nat) (s : Scan) (r : Reader) :
    (readAll limit s r).only p = (s.words.foldlM (feed limit) r >>= close limit s.fault).only p := by
  have hread : ∀ (r : Reader) (t : Token × Nat), (r.read limit t).only p = (r.feed limit t.1).only p := fun r t => by
    rw [Traced.only, Traced.only, read, Traced.record, Traced.ok_bind, List.singleton_append,
      List.filter_cons_of_neg (by rw [hp]; decide)]
  rw [readAll, Traced.only_bind, Traced.only_bind, Traced.only_foldlM_congr Prod.fst hread]
  rfl

theorem outcome_readAll (limit : Nat) (s : Scan) (r : Reader) :
    (readAll limit s r).outcome = (s.words.foldlM (feed limit) r >>= close limit s.fault).outcome := by
  have honly := congrArg Traced.outcome (only_readAll (p := fun _ => false) (fun _ _ => rfl) limit s r)
  exact honly

end Reader

theorem Derives.unique {c : Category} {ts : List Token} {e e' : Expr} (h : Derives c ts e) (h' : Derives c ts e') :
    e = e' := by
  obtain ⟨r, log, log', hread, -, hred, -⟩ :=
    h.absorbs (r := .start) trivial (.inl rfl) (Nat.le_max_left e.height e'.height)
  obtain ⟨r', _, _, hread', -, hred', -⟩ :=
    h'.absorbs (r := .start) trivial (.inl rfl) (Nat.le_max_right e.height e'.height)
  obtain rfl : r = r' := by
    rw [hread] at hread'
    injection hread' with _ ho
    injection ho
  rw [hred] at hred'
  injection hred' with _ ho
  injection ho with ho
  injection (Prod.mk.inj ho).2 with ho
  injection ho

namespace Expr

variable {maxDepth : Nat} {source : String} {e : Expr}

theorem derives_of_parse (h : (parse maxDepth source).outcome = .ok e) :
    ∃ ts, (Cursor.ofString source).collect.1 = .ok ts ∧ Derives .sum ts e ∧ e.height ≤ max maxDepth 1 := by
  have hl : 1 ≤ max maxDepth 1 := Nat.le_max_right _ _
  rw [parse_eq_readAll, Reader.outcome_readAll] at h
  cases hs : (Cursor.ofString source).scan.fault with
  | some f =>
    rw [hs] at h
    obtain ⟨r, -, hc⟩ := Traced.outcome_bind_ok h
    cases hc
  | none =>
    rw [hs] at h
    exact ⟨_, Cursor.collect_eq_ok_iff.2 ⟨hs, rfl⟩, Reader.derives_of_foldlM hl h⟩

theorem parse_of_derives {ts : List Token} (hts : (Cursor.ofString source).collect.1 = .ok ts) (h : Derives .sum ts e)
    (hh : e.height ≤ max maxDepth 1) : (parse maxDepth source).outcome = .ok e := by
  obtain ⟨hs, rfl⟩ := Cursor.collect_eq_ok_iff.1 hts
  rw [parse_eq_readAll, Reader.outcome_readAll, hs]
  exact congrArg Traced.outcome (Reader.foldlM_feed_finish h hh)

end Expr

/-- **A source is accepted exactly if its tokens are an expression no taller than the limit, and as the tree of that
expression; and tokens are an expression in at most one way.** -/
theorem parse_eq_ok_iff :
    (∀ (maxDepth : Nat) (source : String) (e : Expr), (Expr.parse maxDepth source).outcome = .ok e ↔
      ∃ ts, (Cursor.ofString source).collect.1 = .ok ts ∧ Derives .sum ts e ∧ e.height ≤ max maxDepth 1) ∧
    ∀ (ts : List Token) (e e' : Expr), Derives .sum ts e → Derives .sum ts e' → e = e' := by
  refine ⟨fun maxDepth source e => ⟨Expr.derives_of_parse, ?_⟩, fun ts e e' => Derives.unique⟩
  rintro ⟨ts, hts, hd, hh⟩
  exact Expr.parse_of_derives hts hd hh

theorem parse_eq_ok_iff_minus :
    (Expr.parse 2 "-x").outcome = .ok (.negate (.name "x")) ∧
    ∀ e, Derives .sum [.operator .minus, .name "x"] e → e = .negate (.name "x") := by
  have hd : Derives .sum [.operator .minus, .name "x"] (.negate (.name "x")) :=
    .ofTerm (.ofFactor (.negation (.name "x")))
  have hts : (Cursor.ofString "-x").collect.1 = .ok [.operator .minus, .name "x"] := by
    rw [Cursor.collect_eq_ok_iff]
    iterate 2 rw [Cursor.scan_of_get_ok (by decide) rfl]
    rw [Cursor.scan_of_atEnd rfl]
    exact ⟨rfl, rfl⟩
  exact ⟨(parse_eq_ok_iff.1 2 "-x" _).2 ⟨_, hts, hd, by decide⟩, fun e he => parse_eq_ok_iff.2 _ _ _ he hd⟩

end Calculator
