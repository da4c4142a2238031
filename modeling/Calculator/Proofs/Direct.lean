import Calculator.Calculation
import Calculator.Proofs.Rendering
import Calculator.Session
/-!
# Proofs.Direct — arithmetic straight from the tokens

A descent with one function for each category of the grammar, and no tree and no stack: a sum is a term and what is
added to it from the left, a term is a factor and what it is multiplied by or divided by.  It stops at the first fault
of the arithmetic.  Tokens that are no phrase have no value here, not even a fault.

A phrase has the value of its tree (`Derives.gives`).  So a source that is accepted has the value of its tokens, and one
that is not has the fault of its form, before any arithmetic.
-/
namespace Calculator

open Category (ofLevel)

namespace Direct

/-- The value of a phrase at the front of some tokens, and the tokens after it. -/
structure Front (ts : List Token) where
  value : Float
  rest : List Token
  length_lt : rest.length < ts.length

section
variable {ts us : List Token} {t : Token} (f : Front ts) (h : f.rest = t :: us)
include h

theorem Front.length_lt_of_rest : us.length < f.rest.length := by
  rw [h]
  exact Nat.lt_succ_self _

/-- What has been read up to the end of a phrase that comes next but one. -/
def Front.upTo (g : Front us) (value : Float) : Front ts :=
  ⟨value, g.rest, Nat.lt_trans g.length_lt (Nat.lt_trans (f.length_lt_of_rest h) f.length_lt)⟩

end

/-- A fault of the arithmetic ends a reading early; without a phrase there is none. -/
abbrev Reading := ExceptT Fault Option

def noPhrase {α : Type} : Reading α := ExceptT.mk none

mutual

/-- A number, or a sum in parentheses.  A name has no value, nor has a call, whatever its argument. -/
def primary : (ts : List Token) → Reading (Front ts)
  | .number x :: ts => pure ⟨x, ts, Nat.lt_succ_self _⟩
  | .name id :: .leftParen :: _ => throw (.unsupported ("call to `" ++ id ++ "`"))
  | .name id :: _ => throw (.unsupported ("identifier `" ++ id ++ "`"))
  | .leftParen :: ts => do
    let f ← sum ts
    match h : f.rest with
    | .rightParen :: us =>
      pure ⟨f.value, us, Nat.lt_succ_of_lt (Nat.lt_trans (f.length_lt_of_rest h) f.length_lt)⟩
    | _ => noPhrase
  | _ => noPhrase
termination_by ts => (ts.length, 0)

def factor : (ts : List Token) → Reading (Front ts)
  | .operator .minus :: ts => do
    let f ← primary ts
    pure ⟨-f.value, f.rest, Nat.lt_succ_of_lt f.length_lt⟩
  | ts => primary ts
termination_by ts => (ts.length, 1)

def factors {ts : List Token} (f : Front ts) : Reading (Front ts) :=
  match h : f.rest with
  | .operator .times :: us => do
    let g ← factor us
    factors (f.upTo h g (f.value * g.value))
  | .operator .divide :: us => do
    let g ← factor us
    if g.value == 0.0 then throw .divisionByZero
    else factors (f.upTo h g (f.value / g.value))
  | _ => pure f
termination_by (f.rest.length, 2)
decreasing_by
  all_goals refine Prod.Lex.left _ _ ?_
  · exact f.length_lt_of_rest h
  · exact Nat.lt_trans g.length_lt (f.length_lt_of_rest h)
  · exact f.length_lt_of_rest h
  · exact Nat.lt_trans g.length_lt (f.length_lt_of_rest h)

def term (ts : List Token) : Reading (Front ts) := do
  let f ← factor ts
  factors f
termination_by (ts.length, 3)
decreasing_by
  · exact Prod.Lex.right _ (by decide)
  · exact Prod.Lex.left _ _ f.length_lt

def terms {ts : List Token} (f : Front ts) : Reading (Front ts) :=
  match h : f.rest with
  | .operator .plus :: us => do
    let g ← term us
    terms (f.upTo h g (f.value + g.value))
  | .operator .minus :: us => do
    let g ← term us
    terms (f.upTo h g (f.value - g.value))
  | _ => pure f
termination_by (f.rest.length, 4)
decreasing_by
  all_goals refine Prod.Lex.left _ _ ?_
  · exact f.length_lt_of_rest h
  · exact Nat.lt_trans g.length_lt (f.length_lt_of_rest h)
  · exact f.length_lt_of_rest h
  · exact Nat.lt_trans g.length_lt (f.length_lt_of_rest h)

def sum (ts : List Token) : Reading (Front ts) := do
  let f ← term ts
  terms f
termination_by (ts.length, 5)
decreasing_by
  · exact Prod.Lex.right _ (by decide)
  · exact Prod.Lex.left _ _ f.length_lt

end

/-- The value of tokens that are a sum to their end, or the first fault of its arithmetic. -/
def value (ts : List Token) : Option (Except Fault Float) := ExceptT.run do
  let f ← sum ts
  if f.rest.isEmpty then pure f.value else noPhrase

/-! ## Reading on -/

def known {α : Type} (r : Except Fault α) : Reading α := ExceptT.mk (some r)

theorem known_bind {α β : Type} (r : Except Fault α) (f : α → Except Fault β) :
    known (r >>= f) = known r >>= fun a => known (f a) := by
  cases r <;> rfl

def read : Category → (ts : List Token) → Reading (Front ts)
  | .sum => sum
  | .term => term
  | .factor => factor
  | .primary => primary

/-- Reads on after a phrase that begins one of the category. -/
def readOn {ts : List Token} : Category → Front ts → Reading (Front ts)
  | .sum => terms
  | .term => factors
  | .factor | .primary => pure

/-- What may come after a phrase of the category for it to end there or to be read on. -/
def Follows (c : Category) (ts : List Token) : Prop :=
  ts.head? ≠ some .leftParen ∧ (c = .sum → ∀ op : Operator, op.precedence = 1 → ts.head? ≠ some (.operator op))

theorem follows_nil (c : Category) : Follows c [] := by
  refine ⟨fun hp => ?_, fun _ _ _ hp => ?_⟩ <;> cases hp

theorem follows_rightParen (c : Category) (ts : List Token) : Follows c (.rightParen :: ts) := by
  refine ⟨fun hp => ?_, fun _ _ _ hp => ?_⟩ <;> cases hp

theorem follows_operator (op : Operator) (ts : List Token) : Follows (ofLevel op.precedence) (.operator op :: ts) := by
  refine ⟨fun hp => ?_, fun hc op' hop' hp => ?_⟩
  · cases hp
  · cases hp
    rw [hop'] at hc
    cases hc

theorem Follows.tighten {c c' : Category} {ts : List Token} (h : Follows c ts) (hc : c' ≠ .sum) : Follows c' ts :=
  ⟨h.1, fun hs => absurd hs hc⟩

section
variable {ts us : List Token} {x : Float} {h : us.length < ts.length}

theorem terms_of_stop (hu : ∀ op : Operator, op.precedence = 0 → us.head? ≠ some (.operator op)) :
    terms (⟨x, us, h⟩ : Front ts) = pure ⟨x, us, h⟩ := by
  rw [terms]
  split
  · rename_i hs
    exact absurd (congrArg List.head? hs) (hu .plus rfl)
  · rename_i hs
    exact absurd (congrArg List.head? hs) (hu .minus rfl)
  · rfl

theorem factors_of_stop (hu : ∀ op : Operator, op.precedence = 1 → us.head? ≠ some (.operator op)) :
    factors (⟨x, us, h⟩ : Front ts) = pure ⟨x, us, h⟩ := by
  rw [factors]
  split
  · rename_i hs
    exact absurd (congrArg List.head? hs) (hu .times rfl)
  · rename_i hs
    exact absurd (congrArg List.head? hs) (hu .divide rfl)
  · rfl

theorem readOn_operand {op : Operator} (hu : Follows (ofLevel op.precedence) us) :
    readOn (ofLevel (op.precedence + 1)) (⟨x, us, h⟩ : Front ts) = pure ⟨x, us, h⟩ := by
  cases op with
  | plus | minus => exact factors_of_stop (hu.2 rfl)
  | times | divide => rfl

theorem readOn_operator {op : Operator} {h : (Token.operator op :: us).length < ts.length} :
    readOn (ofLevel op.precedence) (⟨x, .operator op :: us, h⟩ : Front ts)
      = read (ofLevel (op.precedence + 1)) us >>= fun g => known (op.apply x g.value) >>= fun z =>
          readOn (ofLevel op.precedence) (Front.upTo ⟨x, .operator op :: us, h⟩ rfl g z) := by
  cases op with
  | plus | minus =>
    show terms _ = _
    rw [terms]
    rfl
  | times =>
    show factors _ = _
    rw [factors]
    rfl
  | divide =>
    show factors _ = _
    rw [factors]
    refine congrArg (factor us >>= ·) (funext (fun g => ?_))
    rw [Operator.apply]
    split <;> rfl

end

/-! ## The descent follows the derivation -/

/-- Reading tokens of the category gives the value of the tree, or the fault of that, and reads on from there. -/
def Gives (c : Category) (ts : List Token) (e : Expr) : Prop :=
  ∀ {rest us : List Token} (_ : us = ts ++ rest) (hlt : rest.length < us.length), Follows c rest →
    read c us = known e.eval >>= fun x => readOn c ⟨x, rest, hlt⟩

section
variable {ts : List Token} {e : Expr}

theorem Gives.ofTerm (h : Gives .term ts e) : Gives .sum ts e := by
  intro rest us hus hlt hf
  have ht := h hus hlt (hf.tighten (by decide))
  change term us = _ at ht
  rw [read, sum, ht, bind_assoc]
  refine congrArg (known _ >>= ·) (funext (fun x => ?_))
  show (factors ⟨x, rest, hlt⟩ >>= terms) = _
  rw [factors_of_stop (hf.2 rfl), pure_bind]
  rfl

theorem Gives.ofFactor (h : Gives .factor ts e) : Gives .term ts e := by
  intro rest us hus hlt hf
  have ht := h hus hlt (hf.tighten (by decide))
  change factor us = _ at ht
  rw [read, term, ht, bind_assoc]
  rfl

theorem Gives.ofPrimary (hp : Derives .primary ts e) (h : Gives .primary ts e) : Gives .factor ts e := by
  intro rest us hus hlt hf
  have hfactor : factor us = primary us := by
    subst hus
    cases hp <;> rw [factor] <;> exact fun _ hs => by cases hs
  rw [read, hfactor]
  exact h hus hlt (hf.tighten (by decide))

theorem Gives.binary {op : Operator} {ls rs : List Token} {l r : Expr} (hls : 0 < ls.length) (hrs : 0 < rs.length)
    (hl : Gives (ofLevel op.precedence) ls l) (hr : Gives (ofLevel (op.precedence + 1)) rs r) :
    Gives (ofLevel op.precedence) (ls ++ .operator op :: rs) (.binary op l r) := by
  intro rest us hus hlt hf
  have hus' : us = ls ++ .operator op :: (rs ++ rest) := by simpa using hus
  have hlt' : rest.length < (rs ++ rest).length := by simpa using hrs
  have hlt'' : (Token.operator op :: (rs ++ rest)).length < us.length := by
    rw [hus', List.length_append]
    omega
  have hne : ofLevel (op.precedence + 1) ≠ .sum := by cases op <;> decide
  rw [hl hus' hlt'' (follows_operator op _), Expr.eval, known_bind, bind_assoc]
  refine congrArg (known _ >>= ·) (funext (fun x => ?_))
  rw [readOn_operator, hr rfl hlt' (hf.tighten hne), known_bind, bind_assoc, bind_assoc]
  refine congrArg (known _ >>= ·) (funext (fun y => ?_))
  rw [readOn_operand hf, pure_bind]
  rfl

theorem Gives.negate (hts : 0 < ts.length) (h : Gives .primary ts e) :
    Gives .factor (.operator .minus :: ts) (.negate e) := by
  intro rest us hus hlt hf
  have hus' : us = .operator .minus :: (ts ++ rest) := by simpa using hus
  subst hus'
  have hlt' : rest.length < (ts ++ rest).length := by simpa using hts
  have hp := h rfl hlt' (hf.tighten (by decide))
  change primary _ = _ at hp
  rw [read, factor, hp, Expr.eval, known_bind, bind_assoc, bind_assoc]
  rfl

theorem Gives.parentheses (hts : 0 < ts.length) (h : Gives .sum ts e) :
    Gives .primary (.leftParen :: ts ++ [.rightParen]) e := by
  intro rest us hus hlt _
  have hus' : us = .leftParen :: (ts ++ .rightParen :: rest) := by simpa using hus
  subst hus'
  have hlt' : (Token.rightParen :: rest).length < (ts ++ .rightParen :: rest).length := by
    rw [List.length_append]
    omega
  have hs := h rfl hlt' (follows_rightParen _ _)
  change sum _ = _ at hs
  rw [read, primary, hs, bind_assoc]
  refine congrArg (known _ >>= ·) (funext (fun x => ?_))
  show (terms ⟨x, .rightParen :: rest, hlt'⟩ >>= _) = _
  rw [terms_of_stop (fun _ _ hp => by cases hp), pure_bind]
  rfl

theorem gives_number (x : Float) : Gives .primary [.number x] (.number x) := by
  intro rest us hus hlt _
  have hus' : us = .number x :: rest := by simpa using hus
  subst hus'
  rw [read, primary]
  rfl

theorem gives_name (id : String) : Gives .primary [.name id] (.name id) := by
  intro rest us hus hlt hf
  have hus' : us = .name id :: rest := by simpa using hus
  subst hus'
  rw [read, primary]
  · rfl
  · intro us hrest
    exact hf.1 (by rw [hrest]; rfl)

theorem gives_call (id : String) (ts : List Token) (args : List Expr) :
    Gives .primary (.name id :: .leftParen :: ts) (.call id args) := by
  intro rest us hus hlt _
  have hus' : us = .name id :: .leftParen :: (ts ++ rest) := by simpa using hus
  subst hus'
  rw [read, primary]
  rfl

end

end Direct

open Direct

/-- **A phrase has the value of its tree.** -/
theorem Derives.gives {c : Category} {ts : List Token} {e : Expr} (h : Derives c ts e) : Gives c ts e := by
  induction h with
  | ofTerm _ ih => exact ih.ofTerm
  | ofFactor _ ih => exact ih.ofFactor
  | ofPrimary h ih => exact ih.ofPrimary h
  | addition hop hl hr ihl ihr =>
    rcases hop with rfl | rfl <;> exact Gives.binary hl.length_pos hr.length_pos ihl ihr
  | multiplication hop hl hr ihl ihr =>
    rcases hop with rfl | rfl <;> exact Gives.binary hl.length_pos hr.length_pos ihl ihr
  | negation h ih => exact ih.negate h.length_pos
  | number x => exact gives_number x
  | name id => exact gives_name id
  | parentheses h ih => exact ih.parentheses h.length_pos
  | emptyCall id => exact gives_call id _ _
  | call id _ _ => exact gives_call id _ _

theorem Derives.value {ts : List Token} {e : Expr} (h : Derives .sum ts e) : Direct.value ts = some e.eval := by
  have hread := h.gives (List.append_nil ts).symm h.length_pos (follows_nil .sum)
  change sum ts = known e.eval >>= fun x => terms ⟨x, [], h.length_pos⟩ at hread
  rw [Direct.value, hread]
  cases he : e.eval with
  | error f => rfl
  | ok x =>
    show ExceptT.run (terms ⟨x, [], h.length_pos⟩ >>= _) = _
    rw [terms_of_stop (fun _ _ hp => by cases hp), pure_bind]
    rfl

/-! ## Sources -/

theorem outcome_evaluate (maxDepth : Nat) (source : String) :
    (evaluate maxDepth source).outcome = (Expr.parse maxDepth source).outcome.bind Expr.eval := by
  rw [evaluate, Traced.outcome_bind]
  refine congrArg _ (funext (fun e => ?_))
  rw [Traced.outcome_bind]
  cases e.eval <;> rfl

theorem Session.process_eval (maxDepth : Nat) (source : String) :
    Session.process ⟨.eval, maxDepth⟩ source
      = (evaluate maxDepth source).outcome.map (fun x => "=" ++ Binary64.text x ++ "\n") := by
  rw [outcome_evaluate, Session.process]
  cases (Expr.parse maxDepth source).outcome with
  | error e => rfl
  | ok e => cases he : e.eval <;> simp [Except.bind, bind, he] <;> rfl

theorem Session.process_eq_ok_iff {maxDepth : Nat} {source text : String} :
    Session.process ⟨.eval, maxDepth⟩ source = .ok text ↔
      ∃ x, (evaluate maxDepth source).outcome = .ok x ∧ text = "=" ++ Binary64.text x ++ "\n" := by
  rw [Session.process_eval]
  cases (evaluate maxDepth source).outcome with
  | error e => simp [Except.map]
  | ok x => simp [Except.map, eq_comm]

/-- **A source that is no expression has the same fault however it is evaluated, and an expression has the value of its
tokens, or the first fault of that.** -/
theorem evaluate_eq_direct (maxDepth : Nat) (source : String) :
    (∀ e, (Expr.parse maxDepth source).outcome = .error e →
      (evaluate maxDepth source).outcome = .error e ∧ ∀ mode, Session.process ⟨mode, maxDepth⟩ source = .error e) ∧
    (∀ e, (Expr.parse maxDepth source).outcome = .ok e →
      ∃ ts, (Cursor.ofString source).collect.1 = .ok ts ∧
        Direct.value ts = some (evaluate maxDepth source).outcome) ∧
    (∀ text, Session.process ⟨.eval, maxDepth⟩ source = .ok text ↔
      ∃ x, (evaluate maxDepth source).outcome = .ok x ∧ text = "=" ++ Binary64.text x ++ "\n") := by
  refine ⟨fun e he => ⟨?_, fun mode => ?_⟩, fun e he => ?_, fun text => Session.process_eq_ok_iff⟩
  · rw [outcome_evaluate, he]
    rfl
  · rw [Session.process, he]
    rfl
  · obtain ⟨ts, hts, hd, -⟩ := Expr.derives_of_parse he
    refine ⟨ts, hts, ?_⟩
    rw [hd.value, outcome_evaluate, he]
    rfl

/-- A fault of the form comes before any arithmetic, a division by zero before the name behind it; and differences are
grouped to the left, after the product. -/
theorem evaluate_eq_direct_difference :
    (evaluate 4 "1/0)").outcome = .error (.mismatchedParen .right) ∧
    (∃ ts, (Cursor.ofString "1-2/0*x").collect.1 = .ok ts ∧ Direct.value ts = some (.error .divisionByZero)) ∧
    (∃ ts, (Cursor.ofString "9-4-3*2").collect.1 = .ok ts ∧
      Direct.value ts = some (evaluate 4 "9-4-3*2").outcome) ∧
    Session.process ⟨.eval, 4⟩ "9-4-3*2" = .ok "=-1\n" := by
  obtain ⟨n, hn⟩ : ∃ n : Char → Float, n = fun d => (Decimal.ofNumeral [d]).toFloat := ⟨_, rfl⟩
  have hspells : ∀ {d : Char}, d.isDigit = true → Spells [d] (.number (n d)) := fun hd =>
    hn ▸ .number (.whole (List.cons_ne_nil _ _) (List.forall_mem_singleton.2 hd))
  -- a digit and the symbol behind it
  have hdigit : ∀ {d c : Char} {t : Token} {text : List Char} {ts : List Token}, d.isDigit = true → Stops [c] →
      Token.ofChar? c = some t → Writes [] text ts → Writes [] (d :: c :: text) (.number (n d) :: t :: ts) :=
    fun hd hs hc h => (h.symbol hc).spelled (hspells hd) hs
  have hminus : Stops ['-'] := stops_cons rfl (by decide) _
  have htimes : Stops ['*'] := stops_cons rfl (by decide) _
  have hdivide : Stops ['/'] := stops_cons rfl (by decide) _
  have hparen : Stops [')'] := stops_cons rfl (by decide) _
  have hnumber : ∀ d, Derives .primary [.number (n d)] (.number (n d)) := fun d => .number _
  have hsurplus : (Expr.parse 4 "1/0)").outcome = .error (.mismatchedParen .right) := by
    have hwrites : Writes [] "1/0)".toList _ := hdigit rfl hdivide rfl (hdigit rfl hparen rfl .nil)
    obtain ⟨hs, hts⟩ := Cursor.collect_eq_ok_iff.1 (collect_of_writes hwrites)
    rw [Expr.parse_eq_readAll, Reader.outcome_readAll, hs, hts]
    rfl
  have hquotient : (Expr.parse 4 "1-2/0*x").outcome = .ok (.binary .minus (.number (n '1'))
      (.binary .times (.binary .divide (.number (n '2')) (.number (n '0'))) (.name "x"))) := by
    have hx : IsName "x".toList := (.intro rfl (List.forall_mem_nil _) : IsName ['x'])
    have hwrites : Writes [] "1-2/0*x".toList _ :=
      hdigit rfl hminus rfl (hdigit rfl hdivide rfl (hdigit rfl htimes rfl (hx.spells.writes stops_nil)))
    exact Expr.parse_of_writes hwrites (.addition (.inr rfl) (.ofTerm (.ofFactor (.ofPrimary (hnumber '1'))))
      (.multiplication (.inl rfl) (.multiplication (.inr rfl) (.ofFactor (.ofPrimary (hnumber '2')))
        (.ofPrimary (hnumber '0'))) (.ofPrimary (.name "x")))) (Nat.le_refl 4)
  have hdifference : (Expr.parse 4 "9-4-3*2").outcome = .ok (.binary .minus
      (.binary .minus (.number (n '9')) (.number (n '4'))) (.binary .times (.number (n '3')) (.number (n '2')))) := by
    have hwrites : Writes [] "9-4-3*2".toList _ :=
      hdigit rfl hminus rfl (hdigit rfl hminus rfl (hdigit rfl htimes rfl ((hspells rfl).writes stops_nil)))
    exact Expr.parse_of_writes hwrites (.addition (.inr rfl) (.addition (.inr rfl)
      (.ofTerm (.ofFactor (.ofPrimary (hnumber '9')))) (.ofFactor (.ofPrimary (hnumber '4'))))
      (.multiplication (.inl rfl) (.ofFactor (.ofPrimary (hnumber '3'))) (.ofPrimary (hnumber '2')))) (Nat.le_succ 3)
  have hzero : (evaluate 4 "1-2/0*x").outcome = .error .divisionByZero := by
    rw [outcome_evaluate, hquotient, hn]
    decide +kernel
  obtain ⟨x, hx, htext⟩ : ∃ x, (evaluate 4 "9-4-3*2").outcome = .ok x ∧ "=-1\n" = "=" ++ Binary64.text x ++ "\n" := by
    rw [outcome_evaluate, hdifference, hn]
    exact ⟨_, rfl, by decide +kernel⟩
  exact ⟨((evaluate_eq_direct 4 "1/0)").1 _ hsurplus).1, hzero ▸ (evaluate_eq_direct 4 "1-2/0*x").2.1 _ hquotient,
    (evaluate_eq_direct 4 "9-4-3*2").2.1 _ hdifference,
    ((evaluate_eq_direct 4 "9-4-3*2").2.2 _).2 ⟨x, hx, htext⟩⟩

end Calculator
