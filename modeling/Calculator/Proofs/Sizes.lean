import Calculator.Proofs.PreOrder
import Calculator.Proofs.Remainder
import Calculator.Proofs.TokenTrace
import Calculator.Proofs.Unfinished
/-!
# Proofs.Sizes — no size outgrows the source

Every token adds one at most to the bulk of the stacks, so what is pending, how many values there are, their heights and
the bases of calls are all at most the number of tokens used up.  That holds within a step, too, and while all that is
pending is reduced at the end, where an operator may take an operand from an outer level: `Machine.Passes` allows for
every reduction of what is on top, whether or not the tokens are an expression.

A tree that is read is half as tall (`Derives.two_mul_height_le`).  Each level takes two tokens, an operator and another
operand or the two parentheses of a call, and only a minus in front of a primary is a level with one token; but a minus
needs parentheses to stand under another.
-/
namespace Calculator

/-! ## Trees -/

/-- How many tokens a phrase of the category may be short of two for each level. -/
def Category.slack : Category → Nat
  | .primary => 1
  | .sum | .term | .factor => 2

/-- **There are two tokens for each level of a tree but the topmost.** -/
theorem Derives.two_mul_height_le {c : Category} {ts : List Token} {e : Expr} (h : Derives c ts e) :
    2 * e.height ≤ ts.length + c.slack := by
  induction h with
  | ofTerm _ ih => exact ih
  | ofFactor _ ih => exact ih
  | ofPrimary _ ih => exact Nat.le_succ_of_le ih
  | addition _ hl hr ihl ihr =>
    have hlpos := hl.length_pos
    have hrpos := hr.length_pos
    simp only [Category.slack, Expr.height, List.length_append, List.length_cons] at *
    omega
  | multiplication _ hl hr ihl ihr =>
    have hlpos := hl.length_pos
    have hrpos := hr.length_pos
    simp only [Category.slack, Expr.height, List.length_append, List.length_cons] at *
    omega
  | negation _ ih =>
    simp only [Category.slack, Expr.height, List.length_cons] at *
    omega
  | number | name => exact Nat.le_refl 2
  | parentheses _ ih =>
    simp only [Category.slack, List.length_append, List.length_cons, List.length_nil] at *
    omega
  | emptyCall =>
    simp only [Category.slack, Expr.height, Expr.tallest, List.length_cons, List.length_nil]
    omega
  | call _ _ ih =>
    simp only [Category.slack, Expr.height, Expr.tallest, List.length_append, List.length_cons, List.length_nil] at *
    omega

theorem Derives.height_le {c : Category} {ts : List Token} {e : Expr} (h : Derives c ts e) : e.height ≤ ts.length := by
  have hpos := h.length_pos
  have htwo := h.two_mul_height_le
  have hslack : c.slack ≤ 2 := by cases c <;> decide
  omega

namespace Expr

mutual

/-- The rows of a tree lie within its height. -/
theorem depth_lt_of_mem_rows : ∀ (depth : Nat) (e : Expr), ∀ row ∈ e.rows depth, row.depth < depth + e.height
  | depth, .number _, row, h => by
    rw [rows, List.mem_singleton] at h
    rw [h, height]
    exact Nat.lt_succ_self depth
  | depth, .name _, row, h => by
    rw [rows, List.mem_singleton] at h
    rw [h, height]
    exact Nat.lt_succ_self depth
  | depth, .binary op l r, row, h => by
    rw [rows, List.mem_cons, List.mem_append] at h
    rw [height]
    rcases h with rfl | h | h
    · show depth < _
      omega
    · have hl := depth_lt_of_mem_rows (depth + 1) l row h
      omega
    · have hr := depth_lt_of_mem_rows (depth + 1) r row h
      omega
  | depth, .negate x, row, h => by
    rw [rows, List.mem_cons] at h
    rw [height]
    rcases h with rfl | h
    · show depth < _
      omega
    · have hx := depth_lt_of_mem_rows (depth + 1) x row h
      omega
  | depth, .call _ args, row, h => by
    rw [rows, List.mem_cons] at h
    rw [height]
    rcases h with rfl | h
    · show depth < _
      omega
    · have hargs := depth_lt_of_mem_rowsOfAll (depth + 1) args row h
      omega

theorem depth_lt_of_mem_rowsOfAll : ∀ (depth : Nat) (es : List Expr), ∀ row ∈ rowsOfAll depth es,
    row.depth < depth + tallest es
  | depth, [], row, h => by
    rw [rowsOfAll] at h
    cases h
  | depth, e :: es, row, h => by
    rw [rowsOfAll, List.mem_append] at h
    rw [tallest]
    rcases h with h | h
    · have he := depth_lt_of_mem_rows depth e row h
      omega
    · have hes := depth_lt_of_mem_rowsOfAll depth es row h
      omega

end

end Expr

/-! ## Stacks -/

section
variable {limit : Nat} {ts : List Token} {ps : List Pending} {vs : List Operand}

theorem Awaits.bulk_le (h : Awaits limit ts ps vs) : Machine.bulk ps vs ≤ ts.length := by
  induction h with
  | start => exact Nat.le_refl 0
  | leftParen _ ih =>
    simp only [Machine.bulk, List.length_append, List.length_cons, List.length_nil] at *
    omega
  | openCall _ _ ih =>
    simp only [Machine.bulk, List.length_append, List.length_cons, List.length_nil] at *
    omega
  | minus _ _ ih =>
    simp only [Machine.bulk, List.length_append, List.length_cons, List.length_nil] at *
    omega
  | binary _ _ hl _ ih =>
    have hheight := hl.height_le
    simp only [Machine.bulk, Machine.heights, Operand.of, List.length_append, List.length_cons, List.length_nil] at *
    omega

theorem Holds.bulk_le {m : Machine} (h : Holds limit ts m) : Machine.bulk m.pending m.values ≤ ts.length := by
  cases h with
  | operand ha => exact ha.bulk_le
  | operator hc =>
    obtain ⟨ha, -, hx, -⟩ := hc
    have hbulk := ha.bulk_le
    have hheight := hx.height_le
    simp only [Machine.bulk, Machine.heights, Operand.of, List.length_append] at *
    omega

end

/-! ## Within a step -/

/-- The stacks that a run comes to, between two symbols and within a step, with the tokens that are used up by then.  A
step takes away what is on top of the pending, by a reduction or because a parenthesis is closed. -/
inductive Machine.Passes (limit : Nat) (source : Cursor) : List Token → List Pending → List Operand → Prop
  | reached {ts m c} : Reaches limit source ts m c → Passes limit source ts m.pending m.values
  | read {ts m c c' s} : Reaches limit source ts m c → ¬ c.atEnd = true → (c.symbol m.expects).outcome = .ok (s, c') →
      Passes limit source (ts ++ s.tokens) m.pending m.values
  | reduced {ts p ps vs x rest} : Passes limit source ts (p :: ps) vs → combine p vs = .ok (x, rest) →
      x.height ≤ limit → Passes limit source ts ps (x :: rest)
  | dropped {ts ps vs} : Passes limit source ts (.leftParen :: ps) vs → Passes limit source ts ps vs

/-- What is on the stacks, and what a reduction makes of it, is within a bound. -/
structure Machine.Within (bound : Nat) (ps : List Pending) (vs : List Operand) : Prop where
  pending : ps.length ≤ bound
  values : vs.length ≤ bound
  heights : ∀ x ∈ vs, x.height ≤ bound
  bases : ∀ id base, .call id base ∈ ps → base ≤ bound
  reduction : ∀ p below x rest, ps = p :: below → combine p vs = .ok (x, rest) → x.height ≤ bound

namespace Machine

theorem one_le_height_of_combine {p : Pending} {vs rest : List Operand} {x : Operand}
    (h : combine p vs = .ok (x, rest)) : 1 ≤ x.height ∧ rest <:+ vs := by
  cases p with
  | unaryMinus =>
    cases vs with
    | nil => cases h
    | cons y vs =>
      cases h
      exact ⟨Nat.succ_pos _, List.suffix_cons y _⟩
  | binary op =>
    match vs, h with
    | r :: l :: vs, h =>
      cases h
      exact ⟨Nat.succ_pos _, (List.suffix_cons l _).trans (List.suffix_cons r _)⟩
  | call id base =>
    simp only [combine] at h
    split at h
    · cases h
    · cases h
      exact ⟨Nat.succ_pos _, List.drop_suffix _ _⟩
  | leftParen => cases h

theorem length_le_heights : ∀ {vs : List Operand}, (∀ x ∈ vs, 1 ≤ x.height) → vs.length ≤ heights vs
  | [], _ => Nat.le_refl 0
  | x :: vs, h => by
    have hx := h x List.mem_cons_self
    have hvs := length_le_heights (fun y hy => h y (List.mem_cons_of_mem x hy))
    rw [List.length_cons, heights]
    omega

theorem height_le_heights : ∀ {vs : List Operand} {x : Operand}, x ∈ vs → x.height ≤ heights vs
  | y :: vs, x, h => by
    rw [heights]
    rcases List.mem_cons.1 h with rfl | h
    · exact Nat.le_add_right _ _
    · have hx := height_le_heights h
      omega

namespace Passes

variable {limit : Nat} {source : Cursor} {ts : List Token} {ps : List Pending} {vs : List Operand}

/-- What the bounds follow from: the bulk, and that no height is zero and no base larger than the bulk at the time. -/
theorem bulk_le (hl : 1 ≤ limit) (h : Passes limit source ts ps vs) :
    bulk ps vs ≤ ts.length ∧ (∀ x ∈ vs, 1 ≤ x.height) ∧ ∀ id base, .call id base ∈ ps → base ≤ ts.length := by
  have hholds : ∀ {ts : List Token} {m : Machine}, Holds limit ts m → bulk m.pending m.values ≤ ts.length ∧
      (∀ x ∈ m.values, 1 ≤ x.height) ∧ ∀ id base, .call id base ∈ m.pending → base ≤ ts.length := by
    intro ts m hm
    have hbulk := hm.bulk_le
    refine ⟨hbulk, fun x hx => ?_, fun id base hmem => ?_⟩
    · rw [(hm.invariant.heights x hx).1]
      exact x.expr.one_le_height
    · obtain ⟨above, below, hps⟩ := List.append_of_mem hmem
      obtain ⟨-, hbase, -⟩ := hm.invariant.calls above id base below hps
      have hcount : binaries below ≤ below.length := List.countP_le_length
      rw [bulk, hps, List.length_append, List.length_cons] at hbulk
      omega
  induction h with
  | reached hm => exact hholds (hm.holds hl)
  | read hm =>
    obtain ⟨hbulk, hpos, hbase⟩ := hholds (hm.holds hl)
    rw [List.length_append]
    exact ⟨Nat.le_add_right_of_le hbulk, hpos, fun id base hmem => Nat.le_add_right_of_le (hbase id base hmem)⟩
  | reduced _ hc _ ih =>
    obtain ⟨hbulk, hpos, hbase⟩ := ih
    have hheights := combine_heights hc
    obtain ⟨hx, hrest⟩ := one_le_height_of_combine hc
    rw [bulk, List.length_cons] at hbulk
    refine ⟨?_, List.forall_mem_cons.2 ⟨hx, fun y hy => hpos y (hrest.subset hy)⟩,
      fun id base hmem => hbase id base (List.mem_cons_of_mem _ hmem)⟩
    rw [bulk]
    omega
  | dropped _ ih =>
    obtain ⟨hbulk, hpos, hbase⟩ := ih
    rw [bulk, List.length_cons] at hbulk
    exact ⟨Nat.le_of_succ_le hbulk, hpos, fun id base hmem => hbase id base (List.mem_cons_of_mem _ hmem)⟩

/-- **Nothing on the stacks, and no height that is made of it, is larger than the number of tokens used up.** -/
theorem within (hl : 1 ≤ limit) (h : Passes limit source ts ps vs) : Within ts.length ps vs := by
  obtain ⟨hbulk, hpos, hbase⟩ := h.bulk_le hl
  have hlength := length_le_heights hpos
  rw [bulk] at hbulk
  refine ⟨by omega, by omega, fun x hx => ?_, hbase, fun p below x rest hps hc => ?_⟩
  · have hx := height_le_heights hx
    omega
  · have hheights := combine_heights hc
    rw [hps, List.length_cons] at hbulk
    rw [heights] at hheights
    omega

end Passes

/-! ## What is on record -/

/-- A reduction on record is one of what is pending at the time, with so many values. -/
def Occurs (limit : Nat) (source : Cursor) (ts : List Token) : Event → Prop
  | .reduce p k => ∃ ps vs, Passes limit source ts (p :: ps) vs ∧ vs.length = k
  | _ => True

/-- A part of a step: it uses up no token, its reductions are of what is pending, and what it comes to is good. -/
def Stays {α : Type} (limit : Nat) (source : Cursor) (ts : List Token) (x : Traced α) (good : α → Prop) : Prop :=
  (x.Records fun e => e.tokenAt? = none ∧ Occurs limit source ts e) ∧ x.Ends good (fun _ => True)

section
variable {limit : Nat} {source : Cursor} {ts : List Token} {ps : List Pending} {vs : List Operand} {m : Machine}

theorem stays_pure {α : Type} {good : α → Prop} {a : α} (h : good a) : Stays limit source ts (pure a) good :=
  ⟨Traced.records_pure, h⟩

theorem stays_fail {α : Type} {good : α → Prop} {e : Fault} : Stays limit source ts (Traced.fail e : Traced α) good :=
  ⟨Traced.records_fail, trivial⟩

theorem Stays.bind {α β : Type} {x : Traced α} {f : α → Traced β} {good : α → Prop} {good' : β → Prop}
    (h : Stays limit source ts x good) (hf : ∀ a, good a → Stays limit source ts (f a) good') :
    Stays limit source ts (x >>= f) good' :=
  ⟨h.1.bind (fun a ha => (hf a (h.2.of_ok ha)).1), h.2.bind (fun a ha => (hf a ha).2)⟩

theorem Passes.reduce {p : Pending} (h : Passes limit source ts (p :: ps) vs) :
    Stays limit source ts (reduce limit p vs) (fun ws => Passes limit source ts ps ws) := by
  refine ⟨fun e he => ?_, ?_⟩
  · rw [log_reduce, List.mem_singleton] at he
    rw [he]
    exact ⟨rfl, ps, vs, h, rfl⟩
  · cases hc : combine p vs with
    | error e =>
      rw [reduce_of_error hc]
      trivial
    | ok r =>
      refine (reduce_ends hc limit).mono (fun ws hws => ?_) (fun _ _ => trivial)
      rw [hws.1]
      exact h.reduced hc hws.2

theorem Passes.reduceBefore (op : Operator) : ∀ {ps : List Pending} {vs : List Operand}, Passes limit source ts ps vs →
    Stays limit source ts (reduceBefore limit op ps vs) (fun r => Passes limit source ts r.1 r.2)
  | [], _, h => stays_pure h
  | p :: ps, vs, h => by
    rw [Machine.reduceBefore]
    split
    · exact h.reduce.bind (fun ws hws => hws.reduceBefore op)
    · exact stays_pure h

theorem Passes.reduceToParen : ∀ {ps : List Pending} {vs : List Operand}, Passes limit source ts ps vs →
    Stays limit source ts (reduceToParen limit ps vs) (fun r => Passes limit source ts r.1 r.2)
  | [], _, _ => stays_fail
  | .leftParen :: _, _, h => stays_pure h.dropped
  | .unaryMinus :: _, _, h => h.reduce.bind (fun _ hws => hws.reduceToParen)
  | .binary _ :: _, _, h => h.reduce.bind (fun _ hws => hws.reduceToParen)
  | .call _ _ :: _, _, h => h.reduce.bind (fun _ hws => hws.reduceToParen)

theorem Passes.reduceAll : ∀ {ps : List Pending} {vs : List Operand}, Passes limit source ts ps vs →
    Stays limit source ts (reduceAll limit ps vs) (fun _ => True)
  | [], _, _ => stays_pure trivial
  | .leftParen :: _, _, _ => stays_fail
  | .unaryMinus :: _, _, h => h.reduce.bind (fun _ hws => hws.reduceAll)
  | .binary _ :: _, _, h => h.reduce.bind (fun _ hws => hws.reduceAll)
  | .call _ _ :: _, _, h => h.reduce.bind (fun _ hws => hws.reduceAll)

theorem Passes.closeCall (h : Passes limit source ts ps vs) :
    Stays limit source ts (closeCall limit ps vs) (fun _ => True) := by
  unfold Machine.closeCall
  split
  · exact h.reduce.bind (fun _ _ => stays_pure trivial)
  · exact stays_pure trivial

theorem Passes.readRightParen (h : Passes limit source ts m.pending m.values) :
    Stays limit source ts (m.readRightParen limit) (fun _ => True) := by
  unfold Machine.readRightParen
  split
  · split
    · rename_i hempty
      obtain ⟨ps, hps⟩ : ∃ ps, m.pending = .leftParen :: ps := by
        unfold atEmptyCall at hempty
        split at hempty
        · exact ⟨_, ‹_›⟩
        · cases hempty
      rw [hps] at h ⊢
      exact h.dropped.closeCall.bind (fun _ _ => stays_pure trivial)
    · exact stays_fail
  · exact stays_fail
  · exact h.reduceToParen.bind (fun r hr => hr.closeCall.bind (fun _ _ => stays_pure trivial))

theorem Passes.readOperator (h : Passes limit source ts m.pending m.values) (op : Operator) :
    Stays limit source ts (m.readOperator limit op) (fun _ => True) := by
  unfold Machine.readOperator
  split
  · split
    · exact stays_pure trivial
    · exact stays_fail
  · exact stays_fail
  · exact (h.reduceBefore op).bind (fun _ _ => stays_pure trivial)

theorem Passes.step (h : Passes limit source ts m.pending m.values) (s : Symbol) :
    Stays limit source ts (m.step limit s) (fun _ => True) := by
  have hoperand : ∀ t e, Stays limit source ts (m.readOperand t e) (fun _ => True) := by
    intro t e
    unfold readOperand
    split
    · exact stays_fail
    · exact stays_pure trivial
  have hparen : Stays limit source ts m.readLeftParen (fun _ => True) := by
    unfold readLeftParen
    split
    · exact stays_fail
    · exact stays_pure trivial
  cases s with
  | openCall => exact stays_pure trivial
  | token t =>
    cases t with
    | number | name => exact hoperand _ _
    | operator op => exact h.readOperator op
    | rightParen => exact h.readRightParen
    | leftParen => exact hparen

theorem Passes.finish (h : Passes limit source ts m.pending m.values) :
    Stays limit source ts (m.finish limit) (fun _ => True) := by
  unfold Machine.finish
  split
  · exact stays_fail
  · refine h.reduceAll.bind (fun vs _ => ?_)
    split
    · exact stays_fail
    · have hparsed : ∀ k, Stays limit source ts (Traced.record (.parsed k)) (fun _ => True) := fun k =>
        ⟨fun e he => List.mem_singleton.1 he ▸ ⟨rfl, trivial⟩, trivial⟩
      exact (hparsed _).bind (fun _ _ => stays_pure trivial)
    · exact stays_fail

end

end Machine

/-- The tokens on record. -/
def tokensOf (log : List Event) : List Token := (log.filterMap Event.tokenAt?).map Prod.fst

/-- Each event of a record has the property at the tokens that were used up before it. -/
def HoldsAlong (P : List Token → Event → Prop) : List Token → List Event → Prop
  | _, [] => True
  | ts, e :: log => P ts e ∧ HoldsAlong P (ts ++ tokensOf [e]) log

namespace HoldsAlong

variable {P : List Token → Event → Prop}

theorem tokensOf_cons (e : Event) (log : List Event) : tokensOf (e :: log) = tokensOf [e] ++ tokensOf log := by
  rw [tokensOf, tokensOf, tokensOf, ← List.map_append, ← List.filterMap_append]
  rfl

theorem append : ∀ {log log' : List Event} {ts : List Token}, HoldsAlong P ts log →
    HoldsAlong P (ts ++ tokensOf log) log' → HoldsAlong P ts (log ++ log')
  | [], log', ts, _, h' => by
    rw [tokensOf, List.filterMap_nil, List.map_nil, List.append_nil] at h'
    exact h'
  | e :: log, log', ts, h, h' => by
    rw [tokensOf_cons, ← List.append_assoc] at h'
    exact ⟨h.1, h.2.append h'⟩

theorem bind {α β : Type} {x : Traced α} {f : α → Traced β} {ts : List Token} (h : HoldsAlong P ts x.log)
    (hf : ∀ a, x.outcome = .ok a → HoldsAlong P (ts ++ tokensOf x.log) (f a).log) : HoldsAlong P ts (x >>= f).log := by
  obtain ⟨log, e | a⟩ := x
  · exact h
  · exact h.append (hf a rfl)

theorem of_tokens : ∀ {log : List Event}, (∀ e ∈ log, ∀ ts, P ts e) → ∀ ts, HoldsAlong P ts log
  | [], _, _ => trivial
  | e :: _, h, ts => ⟨h e List.mem_cons_self ts, of_tokens (fun e' he' => h e' (List.mem_cons_of_mem e he')) _⟩

theorem of_others {ts : List Token} : ∀ {log : List Event}, (∀ e ∈ log, e.tokenAt? = none ∧ P ts e) →
    HoldsAlong P ts log ∧ tokensOf log = []
  | [], _ => ⟨trivial, rfl⟩
  | e :: log, h => by
    obtain ⟨hnone, he⟩ := h e List.mem_cons_self
    obtain ⟨hlog, htokens⟩ := of_others (fun e' he' => h e' (List.mem_cons_of_mem e he'))
    have hnil : tokensOf [e] = [] := by rw [tokensOf, List.filterMap_cons_none hnone, List.filterMap_nil, List.map_nil]
    refine ⟨⟨he, ?_⟩, ?_⟩
    · rwa [hnil, List.append_nil]
    · rw [tokensOf_cons, hnil, htokens]
      rfl

theorem get : ∀ {before after : List Event} {e : Event} {ts : List Token}, HoldsAlong P ts (before ++ e :: after) →
    P (ts ++ tokensOf before) e
  | [], after, e, ts, h => by
    rw [tokensOf, List.filterMap_nil, List.map_nil, List.append_nil]
    exact h.1
  | b :: before, after, e, ts, h => by
    rw [tokensOf_cons, ← List.append_assoc]
    exact h.2.get

end HoldsAlong

theorem Cursor.log_symbol (c : Cursor) (expects : Expectation) :
    (∀ e ∈ (c.symbol expects).log, e.isToken = true) ∧
      ∀ s c', (c.symbol expects).outcome = .ok (s, c') → tokensOf (c.symbol expects).log = s.tokens := by
  have hone : ∀ (t : Token) (n : Nat), ∀ e ∈ [Event.token t n], e.isToken = true := fun t n e he =>
    List.mem_singleton.1 he ▸ rfl
  rcases hg : c.get with ⟨e | t, d⟩
  · rw [symbol, take_of_get_error hg]
    exact ⟨List.forall_mem_nil _, fun _ _ h => by cases h⟩
  by_cases hname : ∃ id, t = .name id
  · obtain ⟨id, rfl⟩ := hname
    by_cases he : expects = .operator
    · subst he
      rw [symbol_of_name_of_operator hg]
      exact ⟨hone _ _, fun _ _ h => by cases h; rfl⟩
    · rw [symbol_of_name hg he]
      by_cases hend : d.atEnd = true
      · rw [opensCall_of_atEnd hend]
        exact ⟨hone _ _, fun _ _ h => by cases h; rfl⟩
      rcases hg' : d.get with ⟨e | u, d'⟩
      · rw [opensCall_of_get_error hend hg']
        exact ⟨hone _ _, fun _ _ h => by cases h⟩
      by_cases hu : u = .leftParen
      · subst hu
        rw [opensCall_of_get_leftParen hend hg', take_of_get_ok hg']
        refine ⟨fun e he => ?_, fun _ _ h => by cases h; rfl⟩
        rcases List.mem_cons.1 he with rfl | he
        · rfl
        · exact hone _ _ e he
      · rw [opensCall_of_get_ne hend hg' hu]
        exact ⟨hone _ _, fun _ _ h => by cases h; rfl⟩
  · rw [symbol_of_ne_name hg (fun id hid => hname ⟨id, hid⟩)]
    exact ⟨hone _ _, fun _ _ h => by cases h; rfl⟩

/-- **Every reduction on record is one that the run passes**, at the tokens on record before it. -/
theorem Machine.Reaches.holdsAlong {limit : Nat} {source c : Cursor} {ts : List Token} {m : Machine}
    (h : Reaches limit source ts m c) : HoldsAlong (Occurs limit source) ts (m.run limit c).log := by
  induction hn : c.rest.length using Nat.strongRecOn generalizing ts m c with
  | ind n ih =>
    by_cases hend : c.atEnd = true
    · rw [run_of_atEnd hend]
      exact (HoldsAlong.of_others (Passes.reached h).finish.1).1
    · obtain ⟨htokens, hsymbol⟩ := c.log_symbol m.expects
      rw [run_of_not_atEnd hend]
      refine HoldsAlong.bind (.of_tokens (fun e he ts => ?_) ts) (fun a hs => ?_)
      · cases e with
        | reduce => cases htokens _ he
        | _ => trivial
      · obtain ⟨s, c'⟩ := a
        rw [hsymbol s c' hs]
        have hstep := ((Passes.read h hend hs).step s).1
        refine HoldsAlong.bind (HoldsAlong.of_others hstep).1 (fun m' hm' => ?_)
        rw [(HoldsAlong.of_others hstep).2, List.append_nil]
        exact ih _ (hn ▸ Cursor.length_symbol_lt m.expects c c' s hs) (h.step hend hs hm') rfl

theorem Machine.Passes.prefix_words {limit : Nat} {source : Cursor} {ts : List Token} {ps : List Pending}
    {vs : List Operand} (h : Passes limit source ts ps vs) : ts <+: source.scan.words := by
  induction h with
  | reached hm => exact ⟨_, hm.words.symm⟩
  | @read _ _ _ c' _ hm hend hs =>
    refine ⟨c'.scan.words, ?_⟩
    rw [hm.words, (Cursor.words_of_symbol hend hs).1, List.append_assoc]
  | reduced _ _ _ ih => exact ih
  | dropped _ ih => exact ih

/-! ## Places -/

/-- The cursor is as far in the text as its place says. -/
def Cursor.IsPlaced (text : List Char) (c : Cursor) : Prop :=
  c.source = text ∧ c.offset + byteCount c.rest = byteCount text

namespace Cursor.IsPlaced

variable {text : List Char} {c : Cursor}

theorem ofList (text : List Char) : (Cursor.ofList text).IsPlaced text := ⟨rfl, Nat.zero_add _⟩

theorem skipSpaces (h : c.IsPlaced text) : c.skipSpaces.IsPlaced text := by
  refine ⟨h.1, ?_⟩
  have hsplit := byteCount_append (c.rest.takeWhile isSpace) (c.rest.dropWhile isSpace)
  rw [List.takeWhile_append_dropWhile] at hsplit
  rw [← h.2, hsplit, ← Nat.add_assoc]
  rfl

theorem skipLexeme (h : c.IsPlaced text) : c.skipLexeme.IsPlaced text := by
  refine ⟨h.1, ?_⟩
  have hsplit := byteCount_append (lexeme c.rest) (c.rest.drop (lexeme c.rest).length)
  rw [lexeme_append_drop] at hsplit
  rw [← h.2, hsplit, ← Nat.add_assoc]
  rfl

theorem get (h : c.IsPlaced text) : c.get.2.IsPlaced text := by
  unfold Cursor.get
  split
  · exact h.skipSpaces.skipLexeme
  · exact h.skipSpaces

theorem answer (h : c.IsPlaced text) : ∀ r : Request, (c.answer r).2.IsPlaced text
  | .peek => h.skipSpaces
  | .get => h.get
  | .atEnd => h
  | .reset => h.1 ▸ ofList c.source
  | .next => by
    show c.next?.2.IsPlaced text
    unfold next?
    split
    · exact h
    · exact h.get

theorem leave : ∀ (rs : List Request) {c : Cursor}, c.IsPlaced text → (c.leave rs).IsPlaced text
  | [], _, h => h
  | r :: rs, _, h => leave rs (h.answer r)

/-- **The next lexeme is within the text.** -/
theorem offset_add_le (h : c.IsPlaced text) :
    c.skipSpaces.offset + byteCount (lexeme c.skipSpaces.rest) ≤ byteCount text := by
  have hend := h.skipSpaces.skipLexeme.2
  exact hend ▸ Nat.le_add_right _ _

end Cursor.IsPlaced

theorem Cut.length_le {after before : List Char} {ws : List (List Char)} (h : Cut after before ws) :
    ws.length ≤ byteCount before := by
  induction h with
  | spaces => exact Nat.zero_le _
  | lexeme _ hw _ ih =>
    obtain ⟨⟨t, ht⟩, -⟩ := hw
    have hpos := byteCount_pos ht.ne_nil
    rw [List.length_cons, byteCount_append, byteCount_append]
    omega

/-- No token is without a byte. -/
theorem Cursor.length_words_le (source : String) :
    (Cursor.ofString source).scan.words.length ≤ byteCount source.toList := by
  obtain ⟨before, after, ws, hs, hcut, hforeign⟩ := exists_cut source.toList
  have hwords := (Cursor.scan_of_cut hcut hforeign (c := Cursor.ofString source) hs).1
  rw [← hwords.length_eq, hs, byteCount_append]
  exact Nat.le_add_right_of_le hcut.length_le

/-! ## Sources -/

/-- **A limit of at least the number of tokens is never reached.** -/
theorem Expr.parse_ne_tooDeep {maxDepth : Nat} {source : String}
    (h : (Cursor.ofString source).scan.words.length ≤ maxDepth) (k : Nat) :
    (Expr.parse maxDepth source).outcome ≠ .error (.tooDeep k) := by
  have hlimit : 0 + (Cursor.ofString source).scan.words.length ≤ max maxDepth 1 := by omega
  have hread := Reader.foldlM_feed_bulk _ Reader.start 0 (Nat.le_refl 0) hlimit
  have hclose : ((Cursor.ofString source).scan.words.foldlM (Reader.feed (max maxDepth 1)) Reader.start >>=
      Reader.close (max maxDepth 1) (Cursor.ofString source).scan.fault).Ends (fun _ => True) Fault.NotDeep := by
    refine hread.bind (fun r hr => ?_)
    unfold Reader.close
    cases hf : (Cursor.ofString source).scan.fault with
    | none => exact Machine.finish_bulk (Nat.le_trans hr hlimit)
    | some e =>
      obtain ⟨x, n, rfl⟩ := Cursor.scan_fault hf
      exact fun _ hk => by cases hk
  rw [Expr.parse_eq_readAll, Reader.outcome_readAll]
  exact fun hdeep => hclose.of_error hdeep k rfl

/-- **No size outgrows the source.**  At every time of a run, whether or not the source is an expression, nothing on the
stacks is larger than the number of tokens used up, and neither is any height that is made of it; all reductions on
record are such.  A tree that is read has two tokens for each level but the topmost.  So no height and no indentation
outgrows 64 bits if the source has less than `2 ^ 63` bytes, a limit of as many levels as tokens is never reached, and
the next lexeme ends within the source wherever a cursor stands. -/
theorem parse_sizes (maxDepth : Nat) (source : String) :
    let words := (Cursor.ofString source).scan.words
    let Passes := Machine.Passes (max maxDepth 1) (Cursor.ofString source)
    let bytes := byteCount source.toList
    (∀ ts ps vs, Passes ts ps vs → ts <+: words ∧ Machine.Within ts.length ps vs) ∧
    (∀ before p k after, (Expr.parse maxDepth source).log = before ++ .reduce p k :: after →
      ∃ ps vs, Passes (tokensOf before) (p :: ps) vs ∧ vs.length = k) ∧
    (∀ e, (Expr.parse maxDepth source).outcome = .ok e →
      2 * e.height ≤ words.length + 2 ∧ ∀ row ∈ e.rows 0, OutlineRow.indent * row.depth ≤ 2 * words.length) ∧
    (words.length ≤ maxDepth → ∀ k, (Expr.parse maxDepth source).outcome ≠ .error (.tooDeep k)) ∧
    words.length ≤ bytes ∧
    (bytes ≤ 2 ^ 63 - 1 →
      (∀ ts p ps vs x rest, Passes ts (p :: ps) vs → Machine.combine p vs = .ok (x, rest) → x.height ≤ 2 ^ 64 - 1) ∧
      ∀ e, (Expr.parse maxDepth source).outcome = .ok e →
        ∀ row ∈ e.rows 0, OutlineRow.indent * row.depth ≤ 2 ^ 64 - 1) ∧
    ∀ rs, let c := (Cursor.ofString source).leave rs
      c.skipSpaces.offset + byteCount (lexeme c.skipSpaces.rest) ≤ bytes := by
  intro words Passes bytes
  have hl : 1 ≤ max maxDepth 1 := Nat.le_max_right _ _
  have hwords : words.length ≤ bytes := Cursor.length_words_le source
  have htree : ∀ e, (Expr.parse maxDepth source).outcome = .ok e →
      2 * e.height ≤ words.length + 2 ∧ ∀ row ∈ e.rows 0, OutlineRow.indent * row.depth ≤ 2 * words.length := by
    intro e he
    obtain ⟨ts, hts, hd, -⟩ := Expr.derives_of_parse he
    obtain ⟨-, rfl⟩ := Cursor.collect_eq_ok_iff.1 hts
    have hheight : 2 * e.height ≤ words.length + 2 := hd.two_mul_height_le
    refine ⟨hheight, fun row hrow => ?_⟩
    have hdepth := Expr.depth_lt_of_mem_rows 0 e row hrow
    show 4 * row.depth ≤ _
    omega
  refine ⟨fun ts ps vs h => ⟨h.prefix_words, h.within hl⟩, fun before p k after hlog => ?_, htree,
    Expr.parse_ne_tooDeep, hwords, fun hbytes => ⟨fun ts p ps vs x rest h hc => ?_, fun e he row hrow => ?_⟩,
    fun rs => ((Cursor.IsPlaced.ofList source.toList).leave rs).offset_add_le⟩
  · have hstart : Machine.Reaches (max maxDepth 1) (Cursor.ofString source) [] .start (Cursor.ofString source) := .start
    have hrecord : HoldsAlong _ [] (Expr.parse maxDepth source).log := hstart.holdsAlong
    rw [hlog] at hrecord
    exact hrecord.get
  · have hx := (h.within hl).reduction p ps x rest rfl hc
    have hts : ts.length ≤ words.length := h.prefix_words.length_le
    omega
  · have hrow := (htree e he).2 row hrow
    omega

/-- A minus under a sum is as tall as four tokens can be. -/
theorem parse_sizes_minus : ∃ e, (Expr.parse 4 "x+-x").outcome = .ok e ∧
    2 * e.height = (Cursor.ofString "x+-x").scan.words.length + 2 ∧
    ∀ row ∈ e.rows 0, OutlineRow.indent * row.depth ≤ 8 := by
  have hts : (Cursor.ofString "x+-x").collect.1
      = .ok [.name "x", .operator .plus, .operator .minus, .name "x"] := by
    rw [Cursor.collect_eq_ok_iff]
    iterate 4 rw [Cursor.scan_of_get_ok (by decide) rfl]
    rw [Cursor.scan_of_atEnd rfl]
    exact ⟨rfl, rfl⟩
  have hd : Derives .sum [.name "x", .operator .plus, .operator .minus, .name "x"]
      (.binary .plus (.name "x") (.negate (.name "x"))) :=
    .addition (.inl rfl) (.ofTerm (.ofFactor (.ofPrimary (.name "x")))) (.ofFactor (.negation (.name "x")))
  have he : (Expr.parse 4 "x+-x").outcome = .ok _ := Expr.parse_of_derives hts hd (by decide)
  obtain ⟨-, hwords⟩ := Cursor.collect_eq_ok_iff.1 hts
  have hrows := ((parse_sizes 4 "x+-x").2.2.1 _ he).2
  rw [hwords] at hrows ⊢
  exact ⟨_, he, rfl, hrows⟩

end Calculator
