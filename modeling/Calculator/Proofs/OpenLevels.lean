import Calculator.Proofs.FirstFault
import Calculator.Proofs.Stacks
/-!
# Proofs.OpenLevels — what tokens leave open

Every parenthesis that is not closed starts a level, inside the levels that were open before.  `OpenLevels` keeps the
binary operators of the open levels; those of a pair that is closed are gone with the pair.  It looks at nothing but the
tokens, and at each only once.

A phrase leaves the levels around it as they were, but for its own operators at the top (`Derives.adds`).  So the
levels tell what is pending: as many parentheses, and an operator on a level if one is pending there.  Which one that is
on the innermost level can be told as well, if it is the one with the most before it: the last of those that bind least
tightly (`OpenLevels.Tells`).
-/
namespace Calculator

open Category (ofLevel)

/-- The open levels of parentheses after some tokens. -/
structure OpenLevels where
  /-- The binary operators of the innermost level, the last one first. -/
  inner : List Operator
  /-- Those of the levels around it, from the inside, one for each parenthesis that is not closed. -/
  outer : List (List Operator)
  /-- Whether an operand has just ended, so that a minus is binary. -/
  afterOperand : Bool
deriving DecidableEq, Repr

namespace OpenLevels

def read (l : OpenLevels) : Token → OpenLevels
  | .leftParen => ⟨[], l.inner :: l.outer, false⟩
  | .rightParen => ⟨l.outer.headD [], l.outer.tail, true⟩
  | .operator op => ⟨if l.afterOperand then op :: l.inner else l.inner, l.outer, false⟩
  | .number _ | .name _ => ⟨l.inner, l.outer, true⟩

def start : OpenLevels := ⟨[], [], false⟩

def ofTokens (ts : List Token) : OpenLevels := ts.foldl read start

theorem ofTokens_append (ts us : List Token) : ofTokens (ts ++ us) = us.foldl read (ofTokens ts) := List.foldl_append

end OpenLevels

/-- The last of the operators that bind least tightly, the operators being given from the last to the first. -/
def loosest : List Operator → Option Operator
  | [] => none
  | op :: ops =>
    match loosest ops with
    | none => some op
    | some looser => some (if looser.precedence < op.precedence then looser else op)

theorem loosest_eq_none_iff {ops : List Operator} : loosest ops = none ↔ ops = [] := by
  cases ops with
  | nil => exact ⟨fun _ => rfl, fun _ => rfl⟩
  | cons op ops =>
    rw [loosest]
    cases loosest ops <;> simp

theorem mem_of_loosest : ∀ {ops : List Operator} {op : Operator}, loosest ops = some op → op ∈ ops
  | [], _, h => nomatch h
  | x :: ops, op, h => by
    rw [loosest] at h
    cases hl : loosest ops with
    | none =>
      rw [hl] at h
      cases h
      exact List.mem_cons_self
    | some y =>
      rw [hl] at h
      simp only [Option.some.injEq] at h
      split at h
      · exact List.mem_cons_of_mem _ (h ▸ mem_of_loosest hl)
      · exact h ▸ List.mem_cons_self

theorem loosest_cons_of_forall_le {op : Operator} {ops : List Operator} (h : ∀ x ∈ ops, op.precedence ≤ x.precedence) :
    loosest (op :: ops) = some op := by
  rw [loosest]
  cases hl : loosest ops with
  | none => rfl
  | some y => simp only [if_neg (Nat.not_lt.2 (h y (mem_of_loosest hl)))]

/-- What binds more tightly does not count. -/
theorem loosest_append_of_lt {op : Operator} {ys : List Operator} (hy : loosest ys = some op) :
    ∀ {xs : List Operator}, (∀ x ∈ xs, op.precedence < x.precedence) → loosest (xs ++ ys) = some op
  | [], _ => hy
  | x :: xs, h => by
    obtain ⟨hx, hxs⟩ := List.forall_mem_cons.1 h
    rw [List.cons_append, loosest, loosest_append_of_lt hy hxs]
    simp only [if_pos hx]

/-! ## Phrases -/

namespace OpenLevels

/-- The tokens are an operand that adds operators of at least this precedence to the innermost level. -/
def Adds (n : Nat) (ts : List Token) : Prop :=
  ∀ l : OpenLevels, l.afterOperand = false →
    ∃ ops, ts.foldl read l = ⟨ops ++ l.inner, l.outer, true⟩ ∧ ∀ op ∈ ops, n ≤ op.precedence

namespace Adds

variable {n : Nat} {ts us : List Token}

theorem mono {k : Nat} (h : Adds n ts) (hk : k ≤ n) : Adds k ts := by
  intro l hl
  obtain ⟨ops, hread, hops⟩ := h l hl
  exact ⟨ops, hread, fun op hop => Nat.le_trans hk (hops op hop)⟩

theorem of_read (h : ∀ l : OpenLevels, ts.foldl read l = ⟨l.inner, l.outer, true⟩) : Adds n ts :=
  fun l _ => ⟨[], h l, fun _ hop => nomatch hop⟩

theorem binary {op : Operator} (hop : n ≤ op.precedence) (h : Adds n ts) (h' : Adds (n + 1) us) :
    Adds n (ts ++ .operator op :: us) := by
  intro l hl
  obtain ⟨ops, hread, hops⟩ := h l hl
  obtain ⟨ops', hread', hops'⟩ := h' ⟨op :: (ops ++ l.inner), l.outer, false⟩ rfl
  refine ⟨ops' ++ op :: ops, ?_, ?_⟩
  · rw [List.foldl_append, hread, List.foldl_cons, List.append_assoc]
    exact hread'
  · exact List.forall_mem_append.2
      ⟨fun x hx => Nat.le_of_succ_le (hops' x hx), List.forall_mem_cons.2 ⟨hop, hops⟩⟩

theorem minus (h : Adds n ts) : Adds n (.operator .minus :: ts) := by
  intro l hl
  obtain ⟨ops, hread, hops⟩ := h ⟨l.inner, l.outer, false⟩ rfl
  refine ⟨ops, ?_, hops⟩
  rw [List.foldl_cons, read, hl]
  exact hread

/-- The level of a pair of parentheses is gone when they close. -/
theorem foldl_parentheses (h : Adds n ts) (l : OpenLevels) :
    (Token.leftParen :: ts ++ [Token.rightParen]).foldl read l = ⟨l.inner, l.outer, true⟩ := by
  obtain ⟨ops, hread, -⟩ := h ⟨[], l.inner :: l.outer, false⟩ rfl
  rw [List.foldl_append, List.foldl_cons]
  show [Token.rightParen].foldl read (ts.foldl read ⟨[], l.inner :: l.outer, false⟩) = _
  rw [hread]
  rfl

end Adds
end OpenLevels

/-- **A phrase adds its operators at the top to the innermost level, and changes no other.** -/
theorem Derives.adds {c : Category} {ts : List Token} {e : Expr} (h : Derives c ts e) :
    OpenLevels.Adds c.level ts := by
  induction h with
  | ofTerm _ ih | ofFactor _ ih | ofPrimary _ ih => exact ih.mono (Nat.le_succ _)
  | addition _ _ _ ihl ihr => exact .binary (Nat.zero_le _) ihl ihr
  | multiplication hop _ _ ihl ihr =>
    refine .binary ?_ ihl ihr
    rcases hop with rfl | rfl <;> exact Nat.le_refl 1
  | negation _ ih => exact (ih.mono (Nat.le_succ 2)).minus
  | number x => exact .of_read (fun _ => rfl)
  | name id => exact .of_read (fun _ => rfl)
  | parentheses _ ih => exact .of_read ih.foldl_parentheses
  | emptyCall id => exact .of_read (fun _ => rfl)
  | call id _ ih => exact .of_read (fun l => ih.foldl_parentheses ⟨l.inner, l.outer, true⟩)

/-! ## What is pending -/

namespace Pending

theorem unaryMinus_ne : unaryMinus ≠ leftParen := fun h => nomatch h

theorem binary_ne (op : Operator) : binary op ≠ leftParen := fun h => nomatch h

theorem leftParen_mem_cons {p : Pending} {ps : List Pending} (hp : p ≠ leftParen) :
    leftParen ∈ p :: ps ↔ leftParen ∈ ps := by
  rw [List.mem_cons]
  exact or_iff_right (fun h => hp h.symm)

end Pending

/-- The binary operators that are pending on the innermost level, the topmost first. -/
def waiting : List Pending → List Operator
  | .binary op :: ps => op :: waiting ps
  | .unaryMinus :: ps => waiting ps
  | [] | .leftParen :: _ | .call _ _ :: _ => []

theorem length_waiting_le : ∀ ps : List Pending, (waiting ps).length ≤ binaries ps
  | .binary op :: ps => by
    rw [waiting, binaries_binary, List.length_cons]
    exact Nat.succ_le_succ (length_waiting_le ps)
  | .unaryMinus :: ps => by
    rw [waiting, binaries_cons_of_ne rfl]
    exact length_waiting_le ps
  | [] | .leftParen :: _ | .call _ _ :: _ => Nat.zero_le _

namespace OpenLevels

/-- The levels tell what is pending. -/
structure Tells (l : OpenLevels) (ps : List Pending) : Prop where
  afterOperand : l.afterOperand = false
  leftParen : .leftParen ∈ ps ↔ l.outer ≠ []
  /-- The operator that has waited longest on the innermost level. -/
  inner : (waiting ps).getLast? = loosest l.inner
  looser : ∀ n op, Fits n ps → loosest l.inner = some op → op.precedence < n
  /-- On an outer level an operator waits if there is any. -/
  outer : (waiting ps).length < binaries ps ↔ l.outer.flatten ≠ []

theorem Tells.waiting_eq_nil_iff {l : OpenLevels} {ps : List Pending} (h : l.Tells ps) :
    waiting ps = [] ↔ l.inner = [] := by
  rw [← List.getLast?_eq_none_iff, h.inner, loosest_eq_none_iff]

theorem Tells.leftParen_cons {l : OpenLevels} {ps qs : List Pending} (h : l.Tells ps)
    (hqs : binaries qs = binaries ps) : Tells ⟨[], l.inner :: l.outer, false⟩ (.leftParen :: qs) where
  afterOperand := rfl
  leftParen := ⟨fun _ => List.cons_ne_nil _ _, fun _ => List.mem_cons_self⟩
  inner := rfl
  looser := fun _ _ _ hop => nomatch hop
  outer := by
    have hle := length_waiting_le ps
    have hpos : 0 < (waiting ps).length ↔ l.inner ≠ [] := by
      rw [List.length_pos_iff, Ne, h.waiting_eq_nil_iff]
    rw [waiting, binaries_cons_of_ne rfl, hqs, List.length_nil, List.flatten_cons, Ne, List.append_eq_nil_iff,
      not_and_or, ← Ne, ← Ne, ← hpos, ← h.outer]
    omega

end OpenLevels

/-- **What the tokens leave pending is told by the levels they leave open.** -/
theorem Awaits.levels {limit : Nat} {ts : List Token} {ps : List Pending} {vs : List Operand}
    (h : Awaits limit ts ps vs) : (OpenLevels.ofTokens ts).Tells ps := by
  induction h with
  | start =>
    exact ⟨rfl, ⟨fun h => (nomatch h), fun h => absurd rfl h⟩, rfl, fun _ _ _ hop => (nomatch hop),
      ⟨fun h => (nomatch h), fun h => absurd rfl h⟩⟩
  | leftParen _ ih =>
    rw [OpenLevels.ofTokens_append]
    exact ih.leftParen_cons rfl
  | openCall id _ ih =>
    rw [OpenLevels.ofTokens_append]
    exact ih.leftParen_cons (binaries_cons_of_ne rfl _)
  | @minus ts ps vs _ hf ih =>
    have hread : OpenLevels.ofTokens (ts ++ [.operator .minus]) = OpenLevels.ofTokens ts := by
      have hafter := ih.afterOperand
      rw [OpenLevels.ofTokens_append]
      generalize OpenLevels.ofTokens ts = l at hafter
      obtain ⟨inner, outer, afterOperand⟩ := l
      cases hafter
      rfl
    rw [hread]
    refine ⟨ih.afterOperand, ?_, ih.inner, fun n op hn hop => ?_, ?_⟩
    · exact (Pending.leftParen_mem_cons Pending.unaryMinus_ne).trans ih.leftParen
    · exact Nat.lt_trans (ih.looser 2 op hf hop) hn
    · rw [waiting, binaries_cons_of_ne rfl]
      exact ih.outer
  | @binary ts ps vs op ls l _ hf hd _ ih =>
    obtain ⟨ops, hread, hops⟩ := hd.adds (OpenLevels.ofTokens ts) ih.afterOperand
    have hlevel : (ofLevel op.precedence).level = op.precedence := by cases op <;> rfl
    rw [hlevel] at hops
    rw [OpenLevels.ofTokens_append, OpenLevels.ofTokens_append, hread]
    -- the operator is the loosest of its level unless a looser one was pending before its left operand
    have hloosest : (waiting (.binary op :: ps)).getLast? = loosest (op :: (ops ++ (OpenLevels.ofTokens ts).inner)) ∧
        ∀ x, loosest (op :: (ops ++ (OpenLevels.ofTokens ts).inner)) = some x → x.precedence ≤ op.precedence := by
      cases hl : loosest (OpenLevels.ofTokens ts).inner with
      | none =>
        have hnil := loosest_eq_none_iff.1 hl
        rw [waiting, ih.waiting_eq_nil_iff.2 hnil, hnil, List.append_nil, loosest_cons_of_forall_le hops]
        exact ⟨rfl, fun x hx => Option.some.inj hx ▸ Nat.le_refl _⟩
      | some y =>
        have hy := ih.looser op.precedence y hf hl
        have hall : ∀ x ∈ op :: ops, y.precedence < x.precedence :=
          List.forall_mem_cons.2 ⟨hy, fun x hx => Nat.lt_of_lt_of_le hy (hops x hx)⟩
        rw [← List.cons_append, loosest_append_of_lt hl hall, waiting, List.getLast?_cons, ih.inner, hl]
        exact ⟨rfl, fun x hx => Option.some.inj hx ▸ Nat.le_of_lt hy⟩
    refine ⟨rfl, ?_, hloosest.1, fun n x hn hx => Nat.lt_of_le_of_lt (hloosest.2 x hx) hn, ?_⟩
    · exact (Pending.leftParen_mem_cons (Pending.binary_ne op)).trans ih.leftParen
    · rw [waiting, binaries_binary, List.length_cons, Nat.succ_lt_succ_iff]
      exact ih.outer

end Calculator
