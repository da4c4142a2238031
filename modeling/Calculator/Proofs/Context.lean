import Calculator.Proofs.Grammar
import Calculator.Proofs.Reader
import Calculator.Proofs.Reduction
import Mathlib.Data.List.TakeWhile
/-!
# Proofs.Context — what the stacks hold

Between two tokens the stacks are an expression that is not finished: a context that awaits an operand (`Awaits`), or
such a context with a phrase read in it (`Completed`).  A pending operator in a context binds more loosely than what is
above it, so whenever it is reduced its operands are complete phrases of its level.

Every token that is accepted keeps this (`Reads.feed`), and a token that is not is refused in one of two ways
(`Refuses`), unless the limit came before.
-/
namespace Calculator

open Category (ofLevel)

def Operand.of (e : Expr) : Operand := ⟨e, e.height⟩

/-- A phrase of the level may stand above what is pending: a barrier or a looser operator is on top. -/
def Fits (n : Nat) : List Pending → Prop
  | [] | .leftParen :: _ => True
  | .binary op :: _ => op.precedence < n
  | .unaryMinus :: _ => 2 < n
  | .call _ _ :: _ => False

/-- The tokens leave this behind on the stacks, and an operand is to come.  No value is taller than the limit. -/
inductive Awaits (limit : Nat) : List Token → List Pending → List Operand → Prop
  | start : Awaits limit [] [] []
  | leftParen {ts ps vs} : Awaits limit ts ps vs → Awaits limit (ts ++ [.leftParen]) (.leftParen :: ps) vs
  | openCall {ts ps vs} (id) : Awaits limit ts ps vs →
      Awaits limit (ts ++ [.name id, .leftParen]) (.leftParen :: .call id vs.length :: ps) vs
  | minus {ts ps vs} : Awaits limit ts ps vs → Fits 2 ps →
      Awaits limit (ts ++ [.operator .minus]) (.unaryMinus :: ps) vs
  | binary {ts ps vs op ls l} : Awaits limit ts ps vs → Fits op.precedence ps →
      Derives (ofLevel op.precedence) ls l → l.height ≤ limit →
      Awaits limit (ts ++ ls ++ [.operator op]) (.binary op :: ps) (.of l :: vs)

/-- The tokens leave this behind on the stacks, the topmost value being a phrase of the level that fits there. -/
inductive Completed (limit n : Nat) : List Token → List Pending → List Operand → Prop
  | intro {ts ps vs ss x} : Awaits limit ts ps vs → Fits n ps → Derives (ofLevel n) ss x → x.height ≤ limit →
      Completed limit n (ts ++ ss) ps (.of x :: vs)

theorem Operator.precedence_lt (op : Operator) : op.precedence < 2 := by cases op <;> decide

theorem Fits.bindsAt {n : Nat} {p : Pending} {ps : List Pending} (h : Fits n (p :: ps)) : p.bindsAt n = false := by
  cases p with
  | binary op => exact decide_eq_false (Nat.not_le.2 h)
  | unaryMinus => exact decide_eq_false (Nat.not_le.2 h)
  | leftParen => rfl
  | call => rfl

theorem Fits.lt {n k : Nat} {p : Pending} {ps : List Pending} (h : Fits n (p :: ps)) (hp : p.precedence? = some k) :
    k < n := by
  cases p with
  | binary op => cases hp; exact h
  | unaryMinus => cases hp; exact h
  | leftParen => cases hp
  | call => cases hp

theorem Fits.of_bindsAt {n k : Nat} {p : Pending} {ps : List Pending} (h : Fits n (p :: ps))
    (hp : ¬ p.bindsAt k = true) : Fits k (p :: ps) := by
  cases p with
  | binary op => exact Nat.not_le.1 (fun hk => hp (decide_eq_true hk))
  | unaryMinus => exact Nat.not_le.1 (fun hk => hp (decide_eq_true hk))
  | leftParen => trivial
  | call => exact h

theorem Fits.zero {ps : List Pending} (h : Fits 0 ps) : ps = [] ∨ ∃ qs, ps = .leftParen :: qs := by
  match ps, h with
  | [], _ => exact .inl rfl
  | .leftParen :: qs, _ => exact .inr ⟨qs, rfl⟩
  | .binary _ :: _, h => exact absurd h (Nat.not_lt_zero _)
  | .unaryMinus :: _, h => exact absurd h (Nat.not_lt_zero _)

theorem Awaits.fits {limit : Nat} {ts : List Token} {ps : List Pending} {vs : List Operand}
    (h : Awaits limit ts ps vs) : Fits 3 ps := by
  cases h with
  | start => trivial
  | leftParen => trivial
  | openCall => trivial
  | minus => exact Nat.lt_succ_self 2
  | @binary _ _ _ op => exact Nat.lt_succ_of_lt op.precedence_lt

theorem Awaits.completed {limit : Nat} {ts ss : List Token} {ps : List Pending} {vs : List Operand} {x : Expr}
    (h : Awaits limit ts ps vs) (hx : Derives .primary ss x) (hl : x.height ≤ limit) :
    Completed limit 3 (ts ++ ss) ps (.of x :: vs) := ⟨h, h.fits, hx, hl⟩

namespace Completed

variable {n k limit : Nat} {ts : List Token} {p : Pending} {ps : List Pending} {vs : List Operand}

theorem values_ne_nil (h : Completed limit n ts ps vs) : vs ≠ [] := by
  cases h
  exact List.cons_ne_nil _ _

theorem fits (h : Completed limit n ts ps vs) : Fits n ps := by
  obtain ⟨-, hf, -, -⟩ := h
  exact hf

/-- **A pending operator finds its operands, and they are a phrase of its level.** -/
theorem combine (h : Completed limit n ts (p :: ps) vs) (hp : p.precedence? = some k) :
    ∃ x rest, Machine.combine p vs = .ok (x, rest) ∧ (x.height ≤ limit → Completed limit k ts ps (x :: rest)) := by
  obtain ⟨ha, hf, hx, -⟩ := h
  have hx := hx.loosen (hf.lt hp)
  cases ha with
  | minus ha hf' =>
    cases hp
    refine ⟨_, _, rfl, fun hl => ?_⟩
    rw [List.append_assoc]
    exact ⟨ha, hf', .negation hx, hl⟩
  | binary ha hf' hl =>
    cases hp
    refine ⟨_, _, rfl, fun hl' => ?_⟩
    rw [List.append_assoc, List.append_assoc]
    exact ⟨ha, hf', hl.binary hx, hl'⟩
  | leftParen => cases hp
  | openCall => cases hp

theorem reduceFrom (h : Completed limit n ts ps vs) (hk : k ≤ n) :
    (Machine.reduceFrom limit k ps vs).Ends
      (fun r => Completed limit k ts r.1 r.2 ∧ r.1 = ps.dropWhile (Pending.bindsAt k)) (· = .tooDeep limit) := by
  induction ps generalizing n vs with
  | nil =>
    obtain ⟨ha, -, hx, hl⟩ := h
    exact ⟨⟨ha, trivial, hx.loosen hk, hl⟩, rfl⟩
  | cons p ps ih =>
    rw [Machine.reduceFrom]
    split
    · rename_i hp
      obtain ⟨j, hj, hkj⟩ : ∃ j, p.precedence? = some j ∧ k ≤ j := by
        unfold Pending.bindsAt at hp
        cases hj : p.precedence? with
        | none => rw [hj] at hp; cases hp
        | some j => rw [hj] at hp; exact ⟨j, rfl, of_decide_eq_true hp⟩
      obtain ⟨x, rest, hc, hj'⟩ := h.combine hj
      rw [List.dropWhile_cons_of_pos hp]
      refine (Machine.reduce_ends hc limit).bind (fun ws hws => ?_)
      obtain ⟨rfl, hl⟩ := hws
      exact ih (hj' hl) hkj
    · rename_i hp
      rw [List.dropWhile_cons_of_neg hp]
      obtain ⟨ha, hf, hx, hl⟩ := h
      exact ⟨⟨ha, hf.of_bindsAt hp, hx.loosen hk, hl⟩, rfl⟩

/-- What is left of the pending after reducing as far as possible: nothing, or the open parenthesis. -/
theorem leftParen_mem_iff (h : Completed limit 0 ts (ps.dropWhile (Pending.bindsAt 0)) vs) :
    .leftParen ∈ ps ↔ ∃ qs, ps.dropWhile (Pending.bindsAt 0) = .leftParen :: qs := by
  constructor
  · intro hmem
    rcases h.fits.zero with hnil | hqs
    · have hall := List.dropWhile_eq_nil_iff.1 hnil _ hmem
      cases hall
    · exact hqs
  · rintro ⟨qs, hqs⟩
    exact (List.dropWhile_suffix _).subset (by rw [hqs]; exact List.mem_cons_self)

theorem reduceToParen (h : Completed limit n ts ps vs) :
    (Machine.reduceToParen limit ps vs).Ends (fun r => Completed limit 0 ts (.leftParen :: r.1) r.2)
      (fun e => e = .tooDeep limit ∨ e = .mismatchedParen .right ∧ .leftParen ∉ ps) := by
  rw [← Machine.reduceFrom_bind_reduceToParen (n := 0)]
  refine ((h.reduceFrom (Nat.zero_le n)).mono (fun _ hr => hr) (fun e he => .inl he)).bind (fun r hr => ?_)
  obtain ⟨qs, ws⟩ := r
  obtain ⟨hc, rfl⟩ := hr
  by_cases hmem : .leftParen ∈ ps
  · obtain ⟨qs, hqs⟩ := hc.leftParen_mem_iff.1 hmem
    simp only [hqs] at hc ⊢
    exact hc
  · have hf : Fits 0 (ps.dropWhile (Pending.bindsAt 0)) := hc.fits
    rcases hf.zero with hnil | hqs
    · simp only [hnil]
      exact .inr ⟨rfl, hmem⟩
    · exact absurd (hc.leftParen_mem_iff.2 hqs) hmem

theorem reduceAll (h : Completed limit n ts ps vs) :
    (Machine.reduceAll limit ps vs).Ends (fun ws => ∃ x, ws = [.of x] ∧ Derives .sum ts x ∧ x.height ≤ limit)
      (fun e => e = .tooDeep limit ∨ e = .mismatchedParen .left ∧ .leftParen ∈ ps) := by
  rw [← Machine.reduceFrom_bind_reduceAll (n := 0)]
  refine ((h.reduceFrom (Nat.zero_le n)).mono (fun _ hr => hr) (fun e he => .inl he)).bind (fun r hr => ?_)
  obtain ⟨qs, ws⟩ := r
  obtain ⟨hc, rfl⟩ := hr
  have hf : Fits 0 (ps.dropWhile (Pending.bindsAt 0)) := hc.fits
  rcases hf.zero with hnil | ⟨qs, hqs⟩
  · simp only [hnil] at hc ⊢
    obtain ⟨ha, -, hx, hl⟩ := hc
    cases ha
    exact ⟨_, rfl, hx, hl⟩
  · have hmem := hc.leftParen_mem_iff.2 ⟨qs, hqs⟩
    simp only [hqs]
    exact .inr ⟨rfl, hmem⟩

end Completed

theorem Machine.closeCall_of_fits {n : Nat} {ps : List Pending} (h : Fits n ps) (limit : Nat) (vs : List Operand) :
    closeCall limit ps vs = pure (ps, vs) := by
  match ps, h with
  | [], _ => rfl
  | .leftParen :: _, _ => rfl
  | .binary _ :: _, _ => rfl
  | .unaryMinus :: _, _ => rfl

theorem Machine.combine_call (id : String) (x : Expr) (vs : List Operand) :
    combine (.call id vs.length) (.of x :: vs) = .ok (.of (.call id [x]), vs) := by
  simp [combine, Operand.of, Expr.height, Expr.tallest]

theorem Machine.combine_emptyCall (id : String) (vs : List Operand) :
    combine (.call id vs.length) vs = .ok (.of (.call id []), vs) := by
  simp [combine, Operand.of, Expr.height, Expr.tallest]

theorem Completed.closeCall {limit : Nat} {ts : List Token} {ps : List Pending} {vs : List Operand}
    (h : Completed limit 0 ts (.leftParen :: ps) vs) :
    (Machine.closeCall limit ps vs).Ends (fun r => Completed limit 3 (ts ++ [.rightParen]) r.1 r.2)
      (· = .tooDeep limit) := by
  obtain ⟨ha, -, hx, hl⟩ := h
  cases ha with
  | leftParen ha =>
    rw [Machine.closeCall_of_fits ha.fits]
    simpa using ha.completed (.parentheses hx) hl
  | openCall id ha =>
    refine (Machine.reduce_ends (Machine.combine_call id _ _) limit).bind (fun ws hws => ?_)
    obtain ⟨rfl, hl⟩ := hws
    simpa using ha.completed (.call id hx) hl

/-! ## Between two tokens -/

/-- What may come next where an operand is due: no minus after a minus. -/
def expectationOn : List Pending → Expectation
  | .unaryMinus :: _ => .operand
  | _ => .operandOrMinus

inductive Holds (limit : Nat) : List Token → Machine → Prop
  | operand {ts ps vs} : Awaits limit ts ps vs → Holds limit ts ⟨ps, vs, expectationOn ps⟩
  | operator {ts ps vs} : Completed limit 3 ts ps vs → Holds limit ts ⟨ps, vs, .operator⟩

inductive Reads (limit : Nat) : List Token → Reader → Prop
  | settled {ts m} : Holds limit ts m → Reads limit ts (.settled m)
  | named {ts m} (id) : Holds limit ts m → m.expects ≠ .operator → Reads limit (ts ++ [.name id]) (.named m id)

/-- The faults with which a machine refuses a token. -/
inductive Refuses (m : Machine) (t : Token) : Fault → Prop
  | unexpected : ¬ (t = .rightParen ∧ m.expects = .operator) → Refuses m t (.unexpectedToken m.expects t.text)
  | mismatched : t = .rightParen → m.expects = .operator → .leftParen ∉ m.pending →
      Refuses m t (.mismatchedParen .right)

theorem expectationOn_ne (ps : List Pending) : expectationOn ps ≠ .operator := by
  unfold expectationOn
  split <;> exact fun h => by cases h

section
variable {limit : Nat} {ts ss : List Token} {m : Machine} {r : Reader}

theorem Holds.awaits (h : Holds limit ts m) (he : m.expects ≠ .operator) : Awaits limit ts m.pending m.values := by
  cases h with
  | operand ha => exact ha
  | operator => exact absurd rfl he

theorem Holds.completed (h : Holds limit ts m) (he : m.expects = .operator) :
    Completed limit 3 ts m.pending m.values := by
  cases h with
  | operand ha => exact absurd he (expectationOn_ne _)
  | operator hc => exact hc

theorem Holds.read {x : Expr} (h : Holds limit ts m) (he : m.expects ≠ .operator) (hx : Derives .primary ss x)
    (hl : x.height ≤ limit) : Holds limit (ts ++ ss) ⟨m.pending, .of x :: m.values, .operator⟩ :=
  .operator ((h.awaits he).completed hx hl)

theorem Reads.start : Reads limit [] .start := .settled (.operand .start)

theorem Reads.holds (hl : 1 ≤ limit) (h : Reads limit ts r) : Holds limit ts r.machine := by
  cases h with
  | settled h => exact h
  | named id h he => exact h.read he (.name id) hl

namespace Holds

theorem unexpected {α : Type} {P : α → Prop} {t : Token} (ht : ¬ (t = .rightParen ∧ m.expects = .operator)) :
    (m.unexpected t : Traced α).Ends P (fun e => e = .tooDeep limit ∨ Refuses m t e) := .inr (.unexpected ht)

theorem readOperand (h : Holds limit ts m) (hl : 1 ≤ limit) {t : Token} {e : Expr} (ht : t ≠ .rightParen)
    (he : e.height = 1) (hd : Derives .primary [t] e) :
    (m.readOperand t e).Ends (fun m' => Holds limit (ts ++ [t]) m' ∧ m.expects ≠ .operator)
      (fun e => e = .tooDeep limit ∨ Refuses m t e) := by
  unfold Machine.readOperand
  cases hm : m.expects with
  | operator => exact unexpected (fun hc => ht hc.1)
  | _ =>
    have hleaf : Operand.leaf e = .of e := by rw [Operand.leaf, Operand.of, he]
    rw [hleaf]
    exact ⟨h.read (by rw [hm]; exact fun h => by cases h) hd (he ▸ hl), fun h => by cases h⟩

theorem readLeftParen (h : Holds limit ts m) :
    m.readLeftParen.Ends (Holds limit (ts ++ [.leftParen]))
      (fun e => e = .tooDeep limit ∨ Refuses m .leftParen e) := by
  unfold Machine.readLeftParen
  cases hm : m.expects with
  | operator => exact unexpected (fun hc => by cases hc.1)
  | _ => exact .operand (.leftParen (h.awaits (by rw [hm]; exact fun h => by cases h)))

theorem readOpenCall (h : Holds limit ts m) (he : m.expects ≠ .operator) (id : String) {E : Fault → Prop} :
    (m.readOpenCall id).Ends (Holds limit (ts ++ [.name id, .leftParen])) E :=
  .operand (.openCall id (h.awaits he))

/-- Where an operand or a minus is due, an empty call is one that was just opened. -/
theorem readEmptyCall (h : Holds limit ts m) (hm : m.expects = .operandOrMinus) (hc : m.atEmptyCall = true) :
    (Machine.closeCall limit m.pending.tail m.values).Ends
      (fun r => Completed limit 3 (ts ++ [.rightParen]) r.1 r.2) (· = .tooDeep limit) := by
  unfold Machine.atEmptyCall at hc
  cases h with
  | operator => cases hm
  | operand ha =>
    cases ha with
    | openCall id ha =>
      refine (Machine.reduce_ends (Machine.combine_emptyCall id _) limit).bind (fun ws hws => ?_)
      obtain ⟨rfl, hl⟩ := hws
      simpa using ha.completed (.emptyCall id) hl
    | leftParen ha =>
      -- a call is never without its parenthesis
      have hf := ha.fits
      split at hc
      · rename_i hp
        simp only [List.cons.injEq] at hp
        rw [hp.2] at hf
        exact hf.elim
      · cases hc
    | _ => cases hc

theorem readRightParen (h : Holds limit ts m) :
    (m.readRightParen limit).Ends (Holds limit (ts ++ [.rightParen]))
      (fun e => e = .tooDeep limit ∨ Refuses m .rightParen e) := by
  unfold Machine.readRightParen
  cases hm : m.expects with
  | operand => exact unexpected (fun hc => by rw [hm] at hc; cases hc.2)
  | operandOrMinus =>
    simp only
    split
    · rename_i hc
      exact ((h.readEmptyCall hm hc).mono (fun _ hr => hr) (fun e he => .inl he)).bind (fun r hr => .operator hr)
    · exact unexpected (fun hc => by rw [hm] at hc; cases hc.2)
  | operator =>
    refine ((h.completed hm).reduceToParen.mono (fun _ hr => hr) (fun e he => ?_)).bind (fun r hr => ?_)
    · rcases he with he | ⟨rfl, hmem⟩
      · exact .inl he
      · exact .inr (.mismatched rfl hm hmem)
    · exact (hr.closeCall.mono (fun _ hq => hq) (fun e he => .inl he)).bind (fun q hq => .operator hq)

theorem readOperator (h : Holds limit ts m) (op : Operator) :
    (m.readOperator limit op).Ends (Holds limit (ts ++ [.operator op]))
      (fun e => e = .tooDeep limit ∨ Refuses m (.operator op) e) := by
  unfold Machine.readOperator
  cases hm : m.expects with
  | operand => exact unexpected (fun hc => by cases hc.1)
  | operandOrMinus =>
    simp only
    split
    · rename_i hop
      subst hop
      cases h with
      | operator => cases hm
      | operand ha =>
        refine .operand (.minus ha ?_)
        -- no minus is on top, so a factor fits
        cases ha with
        | minus => cases hm
        | @binary _ _ _ op => exact op.precedence_lt
        | _ => trivial
    · exact unexpected (fun hc => by cases hc.1)
  | operator =>
    simp only [Machine.reduceBefore_eq_reduceFrom]
    have hc := (h.completed hm).reduceFrom (k := op.precedence) (Nat.le_of_lt (Nat.lt_succ_of_lt op.precedence_lt))
    refine (hc.mono (fun _ hr => hr.1) (fun e he => .inl he)).bind (fun r hr => ?_)
    obtain ⟨qs, ws⟩ := r
    obtain ⟨ha, hf, hd, hl⟩ := hr
    exact .operand (.binary ha hf hd hl)

end Holds

/-- **A token is read into the stacks or refused.** -/
theorem Reads.feed (hl : 1 ≤ limit) (h : Reads limit ts r) (t : Token) :
    (r.feed limit t).Ends (Reads limit (ts ++ [t])) (fun e => e = .tooDeep limit ∨ Refuses r.machine t e) := by
  have hm := h.holds hl
  cases t with
  | number x =>
    rw [Reader.feed_number]
    have hread := hm.readOperand hl (fun h => by cases h) rfl (.number x)
    exact (hread.mono (fun m' hm' => .settled hm'.1) (fun _ he => he)).map
  | operator op =>
    rw [Reader.feed_operator]
    exact ((hm.readOperator op).mono (fun m' hm' => .settled hm') (fun _ he => he)).map
  | name id =>
    rw [Reader.feed_name]
    exact (hm.readOperand hl (fun h => by cases h) rfl (.name id)).bind (fun m' hm' => .named id hm hm'.2)
  | rightParen =>
    rw [Reader.feed_rightParen]
    exact (hm.readRightParen.mono (fun m' hm' => .settled hm') (fun _ he => he)).map
  | leftParen =>
    cases h with
    | settled h => exact (h.readLeftParen.mono (fun m' hm' => .settled hm') (fun _ he => he)).map
    | named id h he =>
      rw [List.append_assoc]
      exact ((h.readOpenCall he id).mono (fun m' hm' => .settled hm') (fun _ he => he)).map

end

end Calculator
