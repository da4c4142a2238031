import Calculator.Proofs.FirstFault
/-!
# Proofs.Stacks — the two stacks between two symbols

`Machine.Reaches` are the states of a run between two symbols, and `Machine.Invariant` is what holds in each of them:
how many values there are, where the calls lie and what their bases are, how the pending operators are ordered, when a
minus is on top, and that the heights kept beside the trees are their heights.  Each part is read off what the tokens
leave on the stacks (`Holds`), which every step keeps.
-/
namespace Calculator

/-! ## The states of a run -/

/-- The tokens that a symbol uses up. -/
def Symbol.tokens : Symbol → List Token
  | .token t => [t]
  | .openCall id => [.name id, .leftParen]

/-- A run from the source comes to this machine and cursor, having used up the tokens. -/
inductive Machine.Reaches (limit : Nat) (source : Cursor) : List Token → Machine → Cursor → Prop
  | start : Reaches limit source [] .start source
  | step {ts m m' c c' s} : Reaches limit source ts m c → ¬ c.atEnd = true →
      (c.symbol m.expects).outcome = .ok (s, c') → (m.step limit s).outcome = .ok m' →
      Reaches limit source (ts ++ s.tokens) m' c'

theorem Cursor.words_of_symbol {c c' : Cursor} {expects : Expectation} {s : Symbol} (hend : ¬ c.atEnd = true)
    (h : (c.symbol expects).outcome = .ok (s, c')) :
    c.scan.words = s.tokens ++ c'.scan.words ∧ ∀ id, s = .openCall id → expects ≠ .operator := by
  rcases hg : c.get with ⟨e | t, d⟩
  · rw [symbol, take_of_get_error hg] at h
    cases h
  rw [scan_of_get_ok hend hg]
  by_cases hname : ∃ id, t = .name id
  · obtain ⟨id, rfl⟩ := hname
    by_cases he : expects = .operator
    · subst he
      rw [symbol_of_name_of_operator hg] at h
      cases h
      exact ⟨rfl, fun _ hs => by cases hs⟩
    · rw [symbol_of_name hg he] at h
      by_cases hend' : d.atEnd = true
      · rw [opensCall_of_atEnd hend'] at h
        cases h
        exact ⟨rfl, fun _ _ => he⟩
      rcases hg' : d.get with ⟨e | u, d'⟩
      · rw [opensCall_of_get_error hend' hg'] at h
        cases h
      by_cases hu : u = .leftParen
      · subst hu
        rw [opensCall_of_get_leftParen hend' hg', take_of_get_ok hg'] at h
        cases h
        rw [scan_of_get_ok hend' hg']
        exact ⟨rfl, fun _ _ => he⟩
      · rw [opensCall_of_get_ne hend' hg' hu] at h
        cases h
        exact ⟨rfl, fun _ _ => he⟩
  · rw [symbol_of_ne_name hg (fun id hid => hname ⟨id, hid⟩)] at h
    cases h
    exact ⟨rfl, fun _ hs => by cases hs⟩

/-- What a step leaves on the stacks stands for the tokens it used up. -/
theorem Holds.step {limit : Nat} {ts : List Token} {m : Machine} (h : Holds limit ts m) (hl : 1 ≤ limit) {s : Symbol}
    (hs : ∀ id, s = .openCall id → m.expects ≠ .operator) :
    (m.step limit s).Ends (Holds limit (ts ++ s.tokens)) (fun _ => True) := by
  cases s with
  | openCall id => exact h.readOpenCall (hs id rfl) id
  | token t =>
    cases t with
    | number x =>
      have hread := h.readOperand hl (fun h => by cases h) rfl (.number x)
      exact hread.mono (fun m' hm' => hm'.1) (fun _ _ => trivial)
    | name id =>
      have hread := h.readOperand hl (fun h => by cases h) rfl (.name id)
      exact hread.mono (fun m' hm' => hm'.1) (fun _ _ => trivial)
    | operator op => exact (h.readOperator op).mono (fun _ hm' => hm') (fun _ _ => trivial)
    | leftParen => exact h.readLeftParen.mono (fun _ hm' => hm') (fun _ _ => trivial)
    | rightParen => exact h.readRightParen.mono (fun _ hm' => hm') (fun _ _ => trivial)

namespace Machine.Reaches

variable {limit : Nat} {source c : Cursor} {ts : List Token} {m : Machine} (h : Reaches limit source ts m c)
include h

theorem holds (hl : 1 ≤ limit) : Holds limit ts m := by
  induction h with
  | start => exact .operand .start
  | step _ hend hs hm ih => exact (ih.step hl (Cursor.words_of_symbol hend hs).2).of_ok hm

theorem words : source.scan.words = ts ++ c.scan.words := by
  induction h with
  | start => rfl
  | step _ hend hs _ ih => rw [ih, (Cursor.words_of_symbol hend hs).1, List.append_assoc]

/-- **A run goes on from every state it reaches.** -/
theorem run : ∃ log, Machine.start.run limit source = Traced.after log (m.run limit c) := by
  induction h with
  | start => exact ⟨[], rfl⟩
  | @step _ m m' c c' s _ hend hs hm ih =>
    obtain ⟨log, hrun⟩ := ih
    obtain ⟨log', hs'⟩ : ∃ log, c.symbol m.expects = ⟨log, .ok (s, c')⟩ := ⟨_, congrArg (Traced.mk _) hs⟩
    obtain ⟨log'', hm'⟩ : ∃ log, m.step limit s = ⟨log, .ok m'⟩ := ⟨_, congrArg (Traced.mk _) hm⟩
    refine ⟨log ++ log' ++ log'', ?_⟩
    rw [hrun, run_of_not_atEnd hend, hs', Traced.ok_bind_eq_after, hm', Traced.ok_bind_eq_after, Traced.after_after,
      Traced.after_after]

end Machine.Reaches

/-! ## How many values there are -/

def Pending.isBinary : Pending → Bool
  | .binary _ => true
  | _ => false

/-- The number of pending binary operators. -/
def binaries (ps : List Pending) : Nat := ps.countP Pending.isBinary

theorem binaries_append (ps qs : List Pending) : binaries (ps ++ qs) = binaries ps + binaries qs :=
  List.countP_append

theorem binaries_binary (op : Operator) (ps : List Pending) : binaries (.binary op :: ps) = binaries ps + 1 :=
  List.countP_cons_of_pos rfl

theorem binaries_cons_of_ne {p : Pending} (h : p.isBinary = false) (ps : List Pending) :
    binaries (p :: ps) = binaries ps := List.countP_cons_of_neg (by rw [h]; decide)

/-- Every pending binary operator has its left operand among the values. -/
theorem Awaits.length_values {limit : Nat} {ts : List Token} {ps : List Pending} {vs : List Operand}
    (h : Awaits limit ts ps vs) : vs.length = binaries ps := by
  induction h with
  | start => rfl
  | leftParen _ ih => exact ih.trans (binaries_cons_of_ne rfl _).symm
  | openCall id _ ih => rw [ih, binaries_cons_of_ne rfl, binaries_cons_of_ne rfl]
  | minus _ _ ih => exact ih.trans (binaries_cons_of_ne rfl _).symm
  | binary _ _ _ _ ih => rw [List.length_cons, ih, binaries_binary]

/-! ## Where the calls lie -/

/-- Every call lies directly below its parenthesis, and its base counts the binary operators below it. -/
def CallsGuarded (ps : List Pending) : Prop :=
  ∀ above id base below, ps = above ++ .call id base :: below →
    (∃ inside, above = inside ++ [.leftParen]) ∧ base = binaries below

namespace CallsGuarded

variable {p : Pending} {ps : List Pending}

theorem cons (h : CallsGuarded ps) (hp : ∀ id base, p ≠ .call id base) : CallsGuarded (p :: ps) := by
  intro above id base below hps
  cases above with
  | nil => exact absurd (List.cons.inj hps).1 (hp id base)
  | cons q above =>
    obtain ⟨-, hps⟩ := List.cons.inj hps
    obtain ⟨⟨inside, rfl⟩, hbase⟩ := h above id base below hps
    exact ⟨⟨q :: inside, rfl⟩, hbase⟩

theorem openCall (h : CallsGuarded ps) (id : String) : CallsGuarded (.leftParen :: .call id (binaries ps) :: ps) := by
  intro above id' base below hps
  match above, hps with
  | [], hps => cases hps
  | [q], hps =>
    simp only [List.cons_append, List.nil_append, List.cons.injEq, Pending.call.injEq] at hps
    obtain ⟨rfl, ⟨-, rfl⟩, rfl⟩ := hps
    exact ⟨⟨[], rfl⟩, rfl⟩
  | q :: q' :: above, hps =>
    simp only [List.cons_append, List.cons.injEq] at hps
    obtain ⟨⟨inside, rfl⟩, hbase⟩ := h above id' base below hps.2.2
    exact ⟨⟨q :: q' :: inside, rfl⟩, hbase⟩

theorem tail (h : CallsGuarded (p :: ps)) (hp : p ≠ .leftParen) : CallsGuarded ps := by
  intro above id base below hps
  obtain ⟨⟨inside, hinside⟩, hbase⟩ := h (p :: above) id base below (by rw [hps]; rfl)
  cases inside with
  | nil => exact absurd (List.cons.inj hinside).1 hp
  | cons q inside => exact ⟨⟨inside, (List.cons.inj hinside).2⟩, hbase⟩

/-- A call is never on top. -/
theorem not_call {id : String} {base : Nat} (h : CallsGuarded (.call id base :: ps)) : False := by
  obtain ⟨⟨inside, hinside⟩, -⟩ := h [] id base ps rfl
  simp at hinside

end CallsGuarded

theorem Awaits.callsGuarded {limit : Nat} {ts : List Token} {ps : List Pending} {vs : List Operand}
    (h : Awaits limit ts ps vs) : CallsGuarded ps := by
  induction h with
  | start => exact fun above id base below hps => by simp at hps
  | leftParen _ ih => exact ih.cons (fun _ _ hp => nomatch hp)
  | openCall id ha ih =>
    rw [ha.length_values]
    exact ih.openCall id
  | minus _ _ ih => exact ih.cons (fun _ _ hp => nomatch hp)
  | binary _ _ _ _ ih => exact ih.cons (fun _ _ hp => nomatch hp)

/-! ## How the operators are ordered -/

/-- Every pending operator binds more tightly than what it lies on. -/
def Increasing : List Pending → Prop
  | [] => True
  | p :: ps => (∀ k, p.precedence? = some k → Fits k ps) ∧ Increasing ps

theorem Awaits.increasing {limit : Nat} {ts : List Token} {ps : List Pending} {vs : List Operand}
    (h : Awaits limit ts ps vs) : Increasing ps := by
  induction h with
  | start => trivial
  | leftParen _ ih => exact ⟨fun _ hk => (nomatch hk), ih⟩
  | openCall id _ ih => exact ⟨fun _ hk => (nomatch hk), fun _ hk => (nomatch hk), ih⟩
  | minus _ hf ih => exact ⟨fun _ hk => Option.some.inj hk ▸ hf, ih⟩
  | binary _ hf _ _ ih => exact ⟨fun _ hk => Option.some.inj hk ▸ hf, ih⟩

theorem Increasing.suffix : ∀ (above : List Pending) {below : List Pending},
    Increasing (above ++ below) → Increasing below
  | [], _, h => h
  | _ :: above, _, h => Increasing.suffix above h.2

/-- On what a level of operators lies, the topmost first. -/
theorem Increasing.pairwise : ∀ {ks : List Nat} {level below : List Pending}, Increasing (level ++ below) →
    level.map Pending.precedence? = ks.map some →
      ks.Pairwise (· > ·) ∧ ∀ n, Fits n (level ++ below) → ∀ k ∈ ks, k < n
  | [], _, _, _, _ => ⟨.nil, fun _ _ _ hk => nomatch hk⟩
  | k :: ks, level, below, h, hks => by
    obtain ⟨p, level, rfl⟩ : ∃ p ps, level = p :: ps := by
      cases level with
      | nil => cases hks
      | cons p ps => exact ⟨p, ps, rfl⟩
    rw [List.map_cons, List.map_cons, List.cons.injEq] at hks
    obtain ⟨hp, hks⟩ := hks
    obtain ⟨hpairwise, hlt⟩ := Increasing.pairwise h.2 hks
    have hbelow : ∀ j ∈ ks, j < k := hlt k (h.1 k hp)
    refine ⟨List.pairwise_cons.2 ⟨hbelow, hpairwise⟩, fun n hn => List.forall_mem_cons.2 ⟨hn.lt hp, fun j hj => ?_⟩⟩
    exact Nat.lt_trans (hbelow j hj) (hn.lt hp)

theorem length_le_of_pairwise_gt : ∀ {ks : List Nat} {n : Nat}, ks.Pairwise (· > ·) → (∀ k ∈ ks, k < n) → ks.length ≤ n
  | [], n, _, _ => Nat.zero_le n
  | k :: ks, n, h, hn => by
    obtain ⟨hk, h⟩ := List.pairwise_cons.1 h
    have hlen := length_le_of_pairwise_gt h hk
    have hlt := hn k List.mem_cons_self
    rw [List.length_cons]
    omega

theorem Pending.precedence_lt {p : Pending} {k : Nat} (h : p.precedence? = some k) : k < 3 := by
  cases p with
  | binary op => cases h; exact Nat.lt_succ_of_lt op.precedence_lt
  | unaryMinus => cases h; exact Nat.lt_succ_self 2
  | leftParen => cases h
  | call => cases h

/-! ## When a minus is on top -/

/-- The last token is a minus before which no operand ends. -/
def EndsInUnaryMinus (ts : List Token) : Prop :=
  ∃ before, ts = before ++ [.operator .minus] ∧ before.getLast?.any Token.endsOperand = false

theorem expectationAfter_eq_operand_iff {ts : List Token} :
    expectationAfter ts = .operand ↔ EndsInUnaryMinus ts := by
  rcases List.eq_nil_or_concat ts with rfl | ⟨before, t, rfl⟩
  · exact ⟨fun h => (nomatch h), fun ⟨_, h, _⟩ => by simp at h⟩
  · have hends : EndsInUnaryMinus (before ++ [t]) ↔
        t = .operator .minus ∧ before.getLast?.any Token.endsOperand = false := by
      constructor
      · rintro ⟨before', h, hany⟩
        obtain ⟨rfl, ht⟩ := List.append_inj' h rfl
        exact ⟨List.singleton_inj.1 ht, hany⟩
      · rintro ⟨rfl, hany⟩
        exact ⟨before, rfl, hany⟩
    rw [List.concat_eq_append, hends, expectationAfter, List.reverse_append, List.reverse_singleton,
      List.singleton_append]
    split
    · rename_i h
      cases h
    · rename_i h
      obtain ⟨rfl, rfl⟩ := List.cons.inj h
      rw [List.head?_reverse]
      cases before.getLast?.any Token.endsOperand <;> simp
    · rename_i u _ hne h
      obtain ⟨rfl, rfl⟩ := List.cons.inj h
      constructor
      · cases t.endsOperand <;> exact fun h => nomatch h
      · rintro ⟨rfl, -⟩
        exact (hne rfl).elim

/-! ## The heights -/

theorem Awaits.heights {limit : Nat} {ts : List Token} {ps : List Pending} {vs : List Operand}
    (h : Awaits limit ts ps vs) : ∀ x ∈ vs, x.height = x.expr.height ∧ x.height ≤ limit := by
  induction h with
  | start => exact fun _ hx => nomatch hx
  | leftParen _ ih => exact ih
  | openCall _ _ ih => exact ih
  | minus _ _ ih => exact ih
  | binary _ _ _ hl ih => exact List.forall_mem_cons.2 ⟨⟨rfl, hl⟩, ih⟩

/-! ## The invariant -/

/-- What holds of a machine between two symbols, the tokens before having been used up. -/
structure Machine.Invariant (limit : Nat) (ts : List Token) (m : Machine) : Prop where
  /-- Each pending binary operator has its left operand, and the last operand is there once an operator is due. -/
  values : m.values.length = binaries m.pending + if m.expects = .operator then 1 else 0
  /-- The base of a call is the number of values below its argument. -/
  calls : ∀ above id base below, m.pending = above ++ .call id base :: below →
    (∃ inside, above = inside ++ [.leftParen]) ∧ base = binaries below ∧
    ∃ argument beneath, m.values = argument ++ beneath ∧ beneath.length = base ∧
      argument.length = binaries above + if m.expects = .operator then 1 else 0
  /-- The operators without a barrier between them, and so at most three of them. -/
  levels : ∀ above level below (ks : List Nat), m.pending = above ++ level ++ below →
    level.map Pending.precedence? = ks.map some → ks.Pairwise (· > ·) ∧ ks.length ≤ 3
  minus : m.expects = .operand ↔ EndsInUnaryMinus ts
  minus_on_top : m.expects = .operand → m.pending.head? = some .unaryMinus
  heights : ∀ x ∈ m.values, x.height = x.expr.height ∧ x.height ≤ limit

section
variable {limit : Nat} {ts : List Token} {m : Machine}

/-- All that an invariant needs is a context that awaits an operand; the operand itself may have been read. -/
theorem Holds.exists_awaits (h : Holds limit ts m) :
    ∃ us vs ws, Awaits limit us m.pending vs ∧ m.values = ws ++ vs ∧
      (ws.length = if m.expects = .operator then 1 else 0) ∧ ∀ x ∈ ws, x.height = x.expr.height ∧ x.height ≤ limit := by
  cases h with
  | operand ha =>
    refine ⟨_, _, [], ha, rfl, ?_, fun _ hx => nomatch hx⟩
    rw [if_neg (expectationOn_ne _)]
    rfl
  | operator hc =>
    obtain ⟨ha, -, -, hl⟩ := hc
    exact ⟨_, _, [.of _], ha, rfl, rfl, List.forall_mem_singleton.2 ⟨rfl, hl⟩⟩

/-- **What the tokens leave on the stacks has the invariant.** -/
theorem Holds.invariant (h : Holds limit ts m) : m.Invariant limit ts := by
  obtain ⟨us, vs, ws, ha, hvs, hws, hheights⟩ := h.exists_awaits
  have hlength : m.values.length = binaries m.pending + if m.expects = .operator then 1 else 0 := by
    rw [hvs, List.length_append, hws, ha.length_values, Nat.add_comm]
  refine ⟨hlength, fun above id base below hp => ?_, fun above level below ks hp hks => ?_, ?_, fun he => ?_, ?_⟩
  · obtain ⟨hparen, hbase⟩ := ha.callsGuarded above id base below hp
    rw [hp, binaries_append, binaries_cons_of_ne rfl, ← hbase] at hlength
    refine ⟨hparen, hbase, m.values.take (m.values.length - base), m.values.drop (m.values.length - base), ?_, ?_, ?_⟩
    · exact (List.take_append_drop _ _).symm
    · rw [List.length_drop]
      omega
    · rw [List.length_take]
      omega
  · have hincreasing := ha.increasing
    rw [hp, List.append_assoc] at hincreasing
    obtain ⟨hpairwise, -⟩ := (hincreasing.suffix above).pairwise hks
    refine ⟨hpairwise, length_le_of_pairwise_gt hpairwise (fun k hk => ?_)⟩
    obtain ⟨p, -, hpk⟩ := List.mem_map.1 (hks ▸ List.mem_map_of_mem hk)
    exact Pending.precedence_lt hpk
  · rw [h.expects]
    exact expectationAfter_eq_operand_iff
  · cases h with
    | operator => cases he
    | @operand _ ps _ =>
      unfold expectationOn at he
      split at he
      · rfl
      · cases he
  · rw [hvs]
    exact fun x hx => (List.mem_append.1 hx).elim (hheights x) (ha.heights x)

end

end Calculator
