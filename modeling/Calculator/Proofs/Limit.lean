import Calculator.Proofs.Acceptance
import Calculator.Proofs.Lexing
/-!
# Proofs.Limit — a smaller limit only cuts a parse short

The machine looks at its limit in one place, after a reduction.  So under two limits it does the same until a tree is
built that is too tall for the smaller one, and there the smaller run ends (`Traced.CutTo`).  This is carried from one
reduction through the loops and the steps to a whole parse, whether or not the source is an expression.

Parentheses leave no trace in a tree, so they do not bring it closer to the limit.
-/
namespace Calculator

open Traced (CutTo)

section
variable {n n' : Nat}

namespace Machine

/-! ## Steps that never look at the limit -/

theorem unexpected_cutTo {α : Type} (m : Machine) (t : Token) : CutTo n (m.unexpected t : Traced α) (m.unexpected t) :=
  .fail (fun _ hk => by cases hk)

theorem readOperand_cutTo (m : Machine) (t : Token) (e : Expr) : CutTo n (m.readOperand t e) (m.readOperand t e) := by
  unfold readOperand
  split
  · exact unexpected_cutTo m t
  · exact .pure _

theorem readLeftParen_cutTo (m : Machine) : CutTo n m.readLeftParen m.readLeftParen := by
  unfold readLeftParen
  split
  · exact unexpected_cutTo m _
  · exact .pure _

/-! ## Steps that reduce -/

variable (h : n ≤ n')
include h

theorem reduce_cutTo (p : Pending) (vs : List Operand) : CutTo n (reduce n p vs) (reduce n' p vs) := by
  cases hc : combine p vs with
  | error e =>
    rw [reduce_of_error hc, reduce_of_error hc]
    refine .refl (fun k hk => ?_)
    injection hk with hk
    exact combine_ne_tooDeep (hk ▸ hc)
  | ok r =>
    obtain ⟨x, rest⟩ := r
    rcases Nat.lt_or_ge n x.height with hx | hx
    · have hlog : (reduce n p vs).log = (reduce n' p vs).log := by rw [log_reduce, log_reduce]
      exact .inr ⟨by rw [reduce_of_lt hc hx], hlog ▸ List.prefix_rfl⟩
    · rw [reduce_of_le hc hx, reduce_of_le hc (Nat.le_trans hx h)]
      exact .refl (fun k hk => by cases hk)

theorem reduceBefore_cutTo (op : Operator) : ∀ (ps : List Pending) (vs : List Operand),
    CutTo n (reduceBefore n op ps vs) (reduceBefore n' op ps vs)
  | [], vs => .pure ([], vs)
  | p :: ps, vs => by
    rw [reduceBefore, reduceBefore]
    split
    · exact (reduce_cutTo h p vs).bind (reduceBefore_cutTo op ps)
    · exact .pure _

theorem reduceToParen_cutTo : ∀ (ps : List Pending) (vs : List Operand),
    CutTo n (reduceToParen n ps vs) (reduceToParen n' ps vs)
  | [], _ => .fail (fun _ hk => by cases hk)
  | .leftParen :: ps, vs => .pure (ps, vs)
  | .unaryMinus :: ps, vs => (reduce_cutTo h _ vs).bind (reduceToParen_cutTo ps)
  | .binary _ :: ps, vs => (reduce_cutTo h _ vs).bind (reduceToParen_cutTo ps)
  | .call _ _ :: ps, vs => (reduce_cutTo h _ vs).bind (reduceToParen_cutTo ps)

theorem reduceAll_cutTo : ∀ (ps : List Pending) (vs : List Operand), CutTo n (reduceAll n ps vs) (reduceAll n' ps vs)
  | [], vs => .pure vs
  | .leftParen :: _, _ => .fail (fun _ hk => by cases hk)
  | .unaryMinus :: ps, vs => (reduce_cutTo h _ vs).bind (reduceAll_cutTo ps)
  | .binary _ :: ps, vs => (reduce_cutTo h _ vs).bind (reduceAll_cutTo ps)
  | .call _ _ :: ps, vs => (reduce_cutTo h _ vs).bind (reduceAll_cutTo ps)

theorem closeCall_cutTo (ps : List Pending) (vs : List Operand) : CutTo n (closeCall n ps vs) (closeCall n' ps vs) := by
  unfold closeCall
  split
  · exact (reduce_cutTo h _ vs).bind (fun ws => .pure _)
  · exact .pure _

theorem readRightParen_cutTo (m : Machine) : CutTo n (m.readRightParen n) (m.readRightParen n') := by
  unfold readRightParen
  split
  · split
    · exact (closeCall_cutTo h _ _).bind (fun r => .pure _)
    · exact unexpected_cutTo m _
  · exact unexpected_cutTo m _
  · exact (reduceToParen_cutTo h _ _).bind (fun r => (closeCall_cutTo h r.1 r.2).bind (fun q => .pure _))

theorem readOperator_cutTo (m : Machine) (op : Operator) : CutTo n (m.readOperator n op) (m.readOperator n' op) := by
  unfold readOperator
  split
  · split
    · exact .pure _
    · exact unexpected_cutTo m _
  · exact unexpected_cutTo m _
  · exact (reduceBefore_cutTo h op _ _).bind (fun r => .pure _)

theorem step_cutTo (m : Machine) : ∀ s : Symbol, CutTo n (m.step n s) (m.step n' s)
  | .openCall _ => .pure _
  | .token (.number x) => readOperand_cutTo m (.number x) (.number x)
  | .token (.name id) => readOperand_cutTo m (.name id) (.name id)
  | .token .leftParen => readLeftParen_cutTo m
  | .token .rightParen => readRightParen_cutTo h m
  | .token (.operator op) => readOperator_cutTo h m op

theorem finish_cutTo (m : Machine) : CutTo n (m.finish n) (m.finish n') := by
  unfold finish
  split
  · exact .fail (fun _ hk => by cases hk)
  · refine (reduceAll_cutTo h _ _).bind (fun vs => .refl (fun k hk => ?_))
    split at hk <;> cases hk

end Machine

namespace Reader

variable (h : n ≤ n')
include h

theorem feed_cutTo (r : Reader) (t : Token) : CutTo n (r.feed n t) (r.feed n' t) := by
  unfold feed
  split
  · exact (Machine.step_cutTo h _ _).bind (fun m => .pure _)
  · exact (Machine.step_cutTo h _ _).bind (fun m => .pure _)
  · exact (Machine.step_cutTo h _ _).bind (fun m => .pure _)

theorem readAll_cutTo {s : Scan} (hs : ∀ k, s.fault ≠ some (.tooDeep k)) (r : Reader) :
    CutTo n (readAll n s r) (readAll n' s r) := by
  have hread : ∀ (r : Reader) (t : Token × Nat), CutTo n (r.read n t) (r.read n' t) := fun r t =>
    (CutTo.refl (fun k hk => by cases hk)).bind (fun _ => feed_cutTo h r t.1)
  refine (CutTo.foldlM hread s.tokens r).bind (fun r' => ?_)
  unfold close
  cases he : s.fault with
  | none => exact Machine.finish_cutTo h r'.machine
  | some e => exact .fail (fun k hk => hs k (by rw [he, hk]))

end Reader

end

namespace Expr

variable {d d' : Nat}

/-- **The parse under the smaller limit is the other one, or the beginning of it.** -/
theorem parse_cutTo (h : d ≤ d') (source : String) : CutTo (max d 1) (parse d source) (parse d' source) := by
  have hn : max d 1 ≤ max d' 1 := by omega
  rw [parse_eq_readAll, parse_eq_readAll]
  refine Reader.readAll_cutTo hn (fun k hk => ?_) Reader.start
  obtain ⟨x, n, hx⟩ := Cursor.scan_fault hk
  cases hx

theorem parse_of_isExpression {source : String} {ts : List Token} {e : Expr}
    (hts : (Cursor.ofString source).collect.1 = .ok ts) (h : Derives .sum ts e) (d : Nat) :
    (parse d source).outcome = if e.height ≤ max d 1 then .ok e else .error (.tooDeep (max d 1)) := by
  split
  · rename_i hh
    exact parse_of_derives hts h hh
  · rename_i hh
    -- a limit that is large enough is the one to compare with
    have hd : d ≤ e.height := by omega
    have hy : (parse e.height source).outcome = .ok e := parse_of_derives hts h (Nat.le_max_left _ _)
    rcases parse_cutTo hd source with ⟨hx, -⟩ | ⟨hx, -⟩
    · rw [← hx] at hy
      obtain ⟨us, hus, -, hle⟩ := derives_of_parse hy
      exact absurd hle hh
    · exact hx

end Expr

/-! ## Parentheses -/

theorem Machine.reduceFrom_three (limit : Nat) (ps : List Pending) (vs : List Operand) :
    reduceFrom limit 3 ps vs = pure (ps, vs) := by
  refine reduceFrom_of_stop (fun p _ => ?_) limit vs
  cases p with
  | binary op => cases op <;> rfl
  | _ => rfl

namespace Reader

variable {limit : Nat} {r : Reader} {ts : List Token} {e : Expr}

theorem foldlM_primary (h : Derives .primary ts e) (hf : Fits 3 r.machine.pending) (he : r.machine.expects ≠ .operator)
    (hh : e.height ≤ limit) :
    ∃ r', (ts.foldlM (feed limit) r).outcome = .ok r' ∧ r'.machine = (r.push e).machine := by
  have hs : Category.primary.Starts r.machine.expects := by
    cases hm : r.machine.expects with
    | operator => exact absurd hm he
    | operand => exact .inr ⟨rfl, rfl⟩
    | operandOrMinus => exact .inl rfl
  obtain ⟨r', log, log', hread, hop, hred, -⟩ := h.absorbs hf hs hh
  change Machine.reduceFrom limit 3 _ _ = _ at hred
  rw [Machine.reduceFrom_three] at hred
  injection hred with _ hred
  injection hred with hred
  obtain ⟨hps, hvs⟩ := Prod.mk.inj hred
  refine ⟨r', congrArg Traced.outcome hread, ?_⟩
  rw [push, machine_settled, ← hps, ← hvs, ← hop]

theorem foldlM_congr_machine {r' : Reader} (h : r.machine = r'.machine) (hts : ts.head? ≠ some .leftParen) :
    (ts.foldlM (feed limit) r >>= fun r => r.machine.finish limit)
      = ts.foldlM (feed limit) r' >>= fun r => r.machine.finish limit := by
  have hfeed : ∀ (r : Reader) (t : Token), t ≠ .leftParen → r.feed limit t = (settled r.machine).feed limit t := by
    intro r t ht
    cases r with
    | settled m => rfl
    | named m id => exact feed_named ht limit m id
  cases ts with
  | nil => rw [List.foldlM_nil, List.foldlM_nil, pure_bind, pure_bind, h]
  | cons t ts =>
    have ht : t ≠ .leftParen := fun ht => hts (by rw [ht]; rfl)
    rw [List.foldlM_cons, List.foldlM_cons, hfeed r t ht, hfeed r' t ht, h]

/-- What a primary starts with can be read only where an operand is due, or as the arguments of a name before it. -/
theorem expects_ne_of_primary (h : Derives .primary ts e) {r' : Reader} (hr : ∀ m id, r ≠ named m id)
    (hread : (ts.foldlM (feed limit) r).outcome = .ok r') : r.machine.expects ≠ .operator := by
  intro he
  cases r with
  | named m id => exact hr m id rfl
  | settled m =>
    obtain ⟨ps, vs, x⟩ := m
    cases he
    cases h <;> cases hread

end Reader

/-- **Parentheses around a primary change nothing**, if no name is before it and no argument after it. -/
theorem Derives.parenthesize {before ts after : List Token} {t e : Expr} (h : Derives .sum (before ++ ts ++ after) t)
    (hp : Derives .primary ts e) (hname : ∀ id, before.getLast? ≠ some (.name id))
    (hparen : after.head? ≠ some .leftParen) :
    Derives .sum (before ++ (.leftParen :: ts ++ [.rightParen]) ++ after) t := by
  have hh : e.height ≤ max t.height e.height := Nat.le_max_right _ _
  have hread := congrArg Traced.outcome (Reader.foldlM_feed_finish h (Nat.le_max_left t.height e.height))
  generalize max t.height e.height = limit at hh hread
  have hl : 1 ≤ limit := Nat.le_trans e.one_le_height hh
  rw [List.foldlM_append, List.foldlM_append, bind_assoc, bind_assoc] at hread
  obtain ⟨r, hr, hread⟩ := Traced.outcome_bind_ok hread
  obtain ⟨r₁, hr₁, hread⟩ := Traced.outcome_bind_ok hread
  have hreads : Reads limit before r := (Reader.foldlM_feed_ends hl before).of_ok hr
  have hsettled : ∀ m id, r ≠ .named m id := by
    rintro m id rfl
    cases hreads
    exact hname id List.getLast?_concat
  have he : r.machine.expects ≠ .operator := Reader.expects_ne_of_primary hp hsettled hr₁
  have hf : Fits 3 r.machine.pending := ((hreads.holds hl).awaits he).fits
  obtain ⟨r₂, hr₂, hm⟩ := Reader.foldlM_primary hp hf he hh
  obtain rfl : r₁ = r₂ := by
    rw [hr₁] at hr₂
    injection hr₂
  have hsum : Derives .sum ts e := .ofTerm (.ofFactor (.ofPrimary hp))
  have hparens := congrArg Traced.outcome
    (Reader.Absorbs.foldlM_parentheses hf he (hsum.absorbs trivial (.inl rfl) hh))
  suffices hall : ((before ++ (Token.leftParen :: ts ++ [Token.rightParen]) ++ after).foldlM (Reader.feed limit)
      Reader.start >>= fun r => r.machine.finish limit).outcome = .ok t from (Reader.derives_of_foldlM hl hall).1
  rw [List.foldlM_append, List.foldlM_append, bind_assoc, bind_assoc, Traced.outcome_bind_of_ok hr,
    Traced.outcome_bind_of_ok hparens, ← Reader.foldlM_congr_machine hm hparen]
  exact hread

/-! ## Two limits, one source -/

/-- **A smaller limit cuts a parse short and never changes it otherwise; and a phrase in parentheses has its own tree
again, so that they, around the whole or around a primary, never bring a source closer to the limit.** -/
theorem parse_of_le :
    (∀ (d d' : Nat) (source : String), d ≤ d' →
      let n := max d 1
      let x := Expr.parse d source
      let y := Expr.parse d' source
      (∀ t, y.outcome = .ok t → x.outcome = if t.height ≤ n then .ok t else .error (.tooDeep n)) ∧
      (∀ e, y.outcome = .error e → (∀ k, e ≠ .tooDeep k) → x.outcome = .error e ∨ x.outcome = .error (.tooDeep n)) ∧
      (∀ k, y.outcome = .error (.tooDeep k) → x.outcome = .error (.tooDeep n)) ∧
      ((∀ k, x.outcome ≠ .error (.tooDeep k)) → y.outcome = x.outcome ∧ y.log.map Event.line = x.log.map Event.line) ∧
      x.log.map Event.line <+: y.log.map Event.line) ∧
    (∀ (ts : List Token) (e e' : Expr), Derives .sum ts e →
      (Derives .primary (.leftParen :: ts ++ [.rightParen]) e' ↔ e' = e)) ∧
    (∀ (source : String) (ts : List Token), (Cursor.ofString source).collect.1 = .ok ts → IsExpression ts →
      ∀ d, (Expr.parse d ("(" ++ source ++ ")")).outcome = (Expr.parse d source).outcome) ∧
    (∀ (source source' : String) (before ts after : List Token) (e : Expr),
      (Cursor.ofString source).collect.1 = .ok (before ++ ts ++ after) →
      (Cursor.ofString source').collect.1 = .ok (before ++ (.leftParen :: ts ++ [.rightParen]) ++ after) →
      IsExpression (before ++ ts ++ after) → Derives .primary ts e →
      (∀ id, before.getLast? ≠ some (.name id)) → after.head? ≠ some .leftParen →
      ∀ d, (Expr.parse d source').outcome = (Expr.parse d source).outcome) := by
  refine ⟨?_, ?_, ?_, ?_⟩
  · intro d d' source h n x y
    have hcut : CutTo n x y := Expr.parse_cutTo h source
    refine ⟨fun t ht => ?_, fun e he hne => ?_, fun k hk => ?_, fun hne => ?_, ?_⟩
    · obtain ⟨ts, hts, hd, -⟩ := Expr.derives_of_parse ht
      exact Expr.parse_of_isExpression hts hd d
    · exact hcut.outcome_eq_or.imp (fun hx => hx.trans he) id
    · rcases hcut with ⟨-, hy⟩ | ⟨hx, -⟩
      · exact absurd hk (hy k)
      · exact hx
    · rw [hcut.eq_of_ne hne]
      exact ⟨rfl, rfl⟩
    · exact hcut.log_prefix.map Event.line
  · intro ts e e' hd
    constructor
    · intro hd'
      exact hd'.unique (.parentheses hd)
    · rintro rfl
      exact .parentheses hd
  · rintro source ts hts ⟨e, hd⟩ d
    have hts' := Cursor.collect_parentheses hts
    rw [Expr.parse_of_isExpression hts hd, Expr.parse_of_isExpression hts' hd.inParentheses]
  · rintro source source' before ts after e hts hts' ⟨t, hd⟩ hp hname hparen d
    rw [Expr.parse_of_isExpression hts hd, Expr.parse_of_isExpression hts' (hd.parenthesize hp hname hparen)]

theorem parse_of_le_minus :
    (Expr.parse 1 "-x").outcome = .error (.tooDeep 1) ∧
    (Expr.parse 2 "(-x)").outcome = (Expr.parse 2 "-x").outcome ∧
    (Expr.parse 2 "-(x)").outcome = (Expr.parse 2 "-x").outcome := by
  have hd : Derives .sum [.operator .minus, .name "x"] (.negate (.name "x")) :=
    .ofTerm (.ofFactor (.negation (.name "x")))
  have hts : (Cursor.ofString "-x").collect.1 = .ok [.operator .minus, .name "x"] := by
    rw [Cursor.collect_eq_ok_iff]
    iterate 2 rw [Cursor.scan_of_get_ok (by decide) rfl]
    rw [Cursor.scan_of_atEnd rfl]
    exact ⟨rfl, rfl⟩
  have hts' : (Cursor.ofString "-(x)").collect.1 = .ok [.operator .minus, .leftParen, .name "x", .rightParen] := by
    rw [Cursor.collect_eq_ok_iff]
    iterate 4 rw [Cursor.scan_of_get_ok (by decide) rfl]
    rw [Cursor.scan_of_atEnd rfl]
    exact ⟨rfl, rfl⟩
  have hy : (Expr.parse 2 "-x").outcome = .ok (.negate (.name "x")) := Expr.parse_of_derives hts hd (by decide)
  refine ⟨((parse_of_le.1 1 2 "-x" (by decide)).1 _ hy).trans (if_neg (by decide)),
    parse_of_le.2.2.1 "-x" _ hts ⟨_, hd⟩ 2, ?_⟩
  exact parse_of_le.2.2.2 "-x" "-(x)" [.operator .minus] [.name "x"] [] _ hts hts' ⟨_, hd⟩ (.name "x") (by simp)
    (by simp) 2

end Calculator
