import Calculator.Cursor
import Calculator.Machine
/-!
# Expr.Parse — the tree of a source

A machine is run on the symbols that a cursor yields until only spaces remain.  The one look ahead is after a name where
an operand may stand: if the next token is an opening parenthesis, the two are read together as the opening of a call.
-/
namespace Calculator
namespace Cursor

/-- Uses up a token, and records it with the place where its lexeme starts. -/
def take (c : Cursor) : Traced (Token × Cursor) :=
  match c.get with
  | (.ok t, c') => ⟨[.token t c.skipSpaces.offset], .ok (t, c')⟩
  | (.error e, _) => Traced.fail e

/-- Whether an opening parenthesis is next; what is unrecognized there is a fault already. -/
def opensCall (c : Cursor) : Except Fault Bool :=
  if c.atEnd then .ok false
  else
    match c.peek.1 with
    | .ok .leftParen => .ok true
    | .ok _ => .ok false
    | .error e => .error e

/-- The next symbol for a machine with this expectation. -/
def symbol (expects : Expectation) (c : Cursor) : Traced (Symbol × Cursor) := do
  match ← c.take with
  | (.name id, c') =>
    if expects = .operator then pure (.token (.name id), c')
    else if ← Traced.ofExcept c'.opensCall then do
      let (_, c'') ← c'.take
      pure (.openCall id, c'')
    else pure (.token (.name id), c')
  | (t, c') => pure (.token t, c')

/-! ## A symbol that is read leaves less to read -/

theorem length_take_lt (c c' : Cursor) (t : Token) (h : c.take.outcome = .ok (t, c')) :
    c'.rest.length < c.rest.length := by
  unfold take at h
  split at h
  · rename_i u d hg
    injection h with h
    obtain ⟨rfl, rfl⟩ := Prod.mk.inj h
    exact length_get_lt c d u hg
  · cases h

theorem length_symbol_lt (expects : Expectation) (c c' : Cursor) (s : Symbol)
    (h : (c.symbol expects).outcome = .ok (s, c')) : c'.rest.length < c.rest.length := by
  unfold symbol at h
  obtain ⟨⟨t, d⟩, ht, h⟩ := Traced.outcome_bind_ok h
  have hd := length_take_lt c d t ht
  split at h
  · rename_i id d' he
    obtain ⟨-, rfl⟩ := Prod.mk.inj he
    split at h
    · injection h with h
      exact (Prod.mk.inj h).2 ▸ hd
    · obtain ⟨b, -, h⟩ := Traced.outcome_bind_ok h
      split at h
      · obtain ⟨⟨u, f⟩, hu, h⟩ := Traced.outcome_bind_ok h
        injection h with h
        have := length_take_lt d f u hu
        exact (Prod.mk.inj h).2 ▸ Nat.lt_trans this hd
      · injection h with h
        exact (Prod.mk.inj h).2 ▸ hd
  · rename_i u d' he
    obtain ⟨-, rfl⟩ := Prod.mk.inj he
    injection h with h
    exact (Prod.mk.inj h).2 ▸ hd

end Cursor

def Machine.run (limit : Nat) (m : Machine) (c : Cursor) : Traced Expr :=
  if c.atEnd then m.finish limit
  else
    match _h : c.symbol m.expects with
    | ⟨log, .error e⟩ => ⟨log, .error e⟩
    | ⟨log, .ok (s, c')⟩ => Traced.after log do
      let m' ← m.step limit s
      m'.run limit c'
termination_by c.rest.length
decreasing_by exact Cursor.length_symbol_lt m.expects c c' s (by rw [‹c.symbol _ = _›])

/-- The tree of what a cursor still yields.  A limit of zero counts as one, so that a leaf is always possible. -/
def Cursor.parse (maxDepth : Nat) (c : Cursor) : Traced Expr := Machine.start.run (max maxDepth 1) c

def Expr.parse (maxDepth : Nat) (source : String) : Traced Expr := (Cursor.ofString source).parse maxDepth

end Calculator
