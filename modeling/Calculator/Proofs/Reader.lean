import Calculator.Expr.Parse
import Calculator.Proofs.Outcome
import Calculator.Proofs.Scan
/-!
# Proofs.Reader — the machine, one token at a time

The machine reads a name and the parenthesis that opens its call as one symbol, which takes a look ahead.  A `Reader`
does without: after a name it remembers the machine from before, and goes back to it when a parenthesis follows.  So it
is fed tokens one by one, and every prefix of a source has its state.

`run_eq_readAll`: what a machine makes of a cursor is what its reader makes of the scanned tokens, records included.
-/
namespace Calculator

/-- A machine between two tokens. -/
inductive Reader where
  | settled (m : Machine)
  /-- A name was read where the machine takes an operand; it may still open a call. -/
  | named (m : Machine) (id : String)

namespace Reader

/-- The machine that takes the name for an operand. -/
def machine : Reader → Machine
  | settled m => m
  | named m id => ⟨m.pending, .leaf (.name id) :: m.values, .operator⟩

@[simp] theorem machine_settled (m : Machine) : (settled m).machine = m := rfl

def start : Reader := settled Machine.start

def feed (limit : Nat) : Reader → Token → Traced Reader
  | named m id, .leftParen => settled <$> m.step limit (.openCall id)
  | r, .name id => do
    let _ ← r.machine.step limit (.token (.name id))
    pure (named r.machine id)
  | r, t => settled <$> r.machine.step limit (.token t)

/-- One more token, recorded with its place. -/
def read (limit : Nat) (r : Reader) (t : Token × Nat) : Traced Reader := do
  Traced.record (.token t.1 t.2)
  r.feed limit t.1

/-- The tree, once there is nothing more to read, or the fault that stops the reading. -/
def close (limit : Nat) (fault : Option Fault) (r : Reader) : Traced Expr :=
  match fault with
  | none => r.machine.finish limit
  | some e => Traced.fail e

def readAll (limit : Nat) (s : Scan) (r : Reader) : Traced Expr :=
  s.tokens.foldlM (read limit) r >>= close limit s.fault

theorem readAll_cons (limit : Nat) (t : Token) (n : Nat) (ts : List (Token × Nat)) (e : Option Fault) (r : Reader) :
    readAll limit ⟨(t, n) :: ts, e⟩ r = Traced.after [.token t n] (r.feed limit t >>= readAll limit ⟨ts, e⟩) := by
  rw [Traced.after_eq_bind]
  simp only [readAll, read, List.foldlM_cons, bind_assoc]
  rfl

section
variable (limit : Nat) (r : Reader)

theorem feed_number (x : Float) :
    r.feed limit (.number x) = settled <$> r.machine.readOperand (.number x) (.number x) := by
  cases r <;> rfl

theorem feed_name (id : String) :
    r.feed limit (.name id) = r.machine.readOperand (.name id) (.name id) >>= fun _ => pure (named r.machine id) := by
  cases r <;> rfl

theorem feed_rightParen : r.feed limit .rightParen = settled <$> r.machine.readRightParen limit := by
  cases r <;> rfl

theorem feed_operator (op : Operator) :
    r.feed limit (.operator op) = settled <$> r.machine.readOperator limit op := by
  cases r <;> rfl

end

/-- Only a parenthesis can tell a name that may open a call from one that cannot. -/
theorem feed_named {t : Token} (ht : t ≠ .leftParen) (limit : Nat) (m : Machine) (id : String) :
    (named m id).feed limit t = (settled (named m id).machine).feed limit t := by
  cases t <;> first | rfl | exact absurd rfl ht

theorem feed_settled_of_ne_name {t : Token} (ht : ∀ id, t ≠ .name id) (limit : Nat) (m : Machine) :
    (settled m).feed limit t = settled <$> m.step limit (.token t) := by
  cases t <;> first | rfl | exact absurd rfl (ht _)

theorem readAll_named {s : Scan} (hs : ∀ n, s.tokens.head? ≠ some (.leftParen, n)) (limit : Nat) (m : Machine)
    (id : String) : readAll limit s (named m id) = readAll limit s (settled (named m id).machine) := by
  obtain ⟨_ | ⟨⟨t, n⟩, ts⟩, e⟩ := s
  · cases e <;> rfl
  · rw [readAll_cons, readAll_cons, feed_named (fun h => hs n (by rw [h]; rfl))]

end Reader

/-! ## The look ahead -/

namespace Cursor

theorem take_of_get_ok {c c' : Cursor} {t : Token} (h : c.get = (.ok t, c')) :
    c.take = ⟨[.token t c.skipSpaces.offset], .ok (t, c')⟩ := by
  rw [take, h]

theorem take_of_get_error {c c' : Cursor} {e : Fault} (h : c.get = (.error e, c')) : c.take = Traced.fail e := by
  rw [take, h]

theorem symbol_of_ne_name {c c' : Cursor} {t : Token} (h : c.get = (.ok t, c')) (ht : ∀ id, t ≠ .name id)
    (expects : Expectation) : c.symbol expects = ⟨[.token t c.skipSpaces.offset], .ok (.token t, c')⟩ := by
  rw [symbol, take_of_get_ok h, Traced.ok_bind]
  cases t <;> first | rfl | exact absurd rfl (ht _)

theorem symbol_of_name_of_operator {c c' : Cursor} {id : String} (h : c.get = (.ok (.name id), c')) :
    c.symbol .operator = ⟨[.token (.name id) c.skipSpaces.offset], .ok (.token (.name id), c')⟩ := by
  rw [symbol, take_of_get_ok h, Traced.ok_bind]
  rfl

/-- A name where an operand is due: what comes next decides. -/
theorem symbol_of_name {c c' : Cursor} {id : String} (h : c.get = (.ok (.name id), c')) {expects : Expectation}
    (he : expects ≠ .operator) :
    c.symbol expects = Traced.after [.token (.name id) c.skipSpaces.offset] (do
      if ← Traced.ofExcept c'.opensCall then do
        let (_, c'') ← c'.take
        pure (.openCall id, c'')
      else pure (.token (.name id), c')) := by
  rw [symbol, take_of_get_ok h, Traced.ok_bind]
  simp only [if_neg he]
  rfl

theorem opensCall_of_atEnd {c : Cursor} (h : c.atEnd = true) : c.opensCall = .ok false := by
  rw [opensCall, if_pos h]

theorem opensCall_of_get_error {c c' : Cursor} {e : Fault} (h : ¬ c.atEnd = true) (hg : c.get = (.error e, c')) :
    c.opensCall = .error e := by
  rw [opensCall, if_neg h, ← get_fst, hg]

theorem opensCall_of_get_leftParen {c c' : Cursor} (h : ¬ c.atEnd = true) (hg : c.get = (.ok .leftParen, c')) :
    c.opensCall = .ok true := by
  rw [opensCall, if_neg h, ← get_fst, hg]

theorem opensCall_of_get_ne {c c' : Cursor} {t : Token} (h : ¬ c.atEnd = true) (hg : c.get = (.ok t, c'))
    (ht : t ≠ .leftParen) : c.opensCall = .ok false := by
  rw [opensCall, if_neg h, ← get_fst, hg]
  cases t <;> first | rfl | exact absurd rfl ht

end Cursor

namespace Machine

theorem run_of_atEnd {c : Cursor} (h : c.atEnd = true) (limit : Nat) (m : Machine) :
    m.run limit c = m.finish limit := by
  rw [run, if_pos h]

theorem run_of_not_atEnd {c : Cursor} (h : ¬ c.atEnd = true) (limit : Nat) (m : Machine) :
    m.run limit c = c.symbol m.expects >>= fun s => m.step limit s.1 >>= fun m' => m'.run limit s.2 := by
  rw [run, if_neg h]
  split
  · rename_i hs
    rw [hs, Traced.error_bind]
  · rename_i hs
    rw [hs]
    rfl

theorem step_name_of_operator {m : Machine} (h : m.expects = .operator) (limit : Nat) (id : String) :
    m.step limit (.token (.name id)) = m.unexpected (.name id) := by
  unfold step readOperand
  simp only [h]

theorem step_name {m : Machine} (h : m.expects ≠ .operator) (limit : Nat) (id : String) :
    m.step limit (.token (.name id)) = pure (Reader.named m id).machine := by
  unfold step readOperand
  cases he : m.expects with
  | operator => exact absurd he h
  | operand => rfl
  | operandOrMinus => rfl

/-- **A machine makes of a cursor what its reader makes of the scanned tokens.** -/
theorem run_eq_readAll (limit : Nat) (m : Machine) (c : Cursor) :
    m.run limit c = Reader.readAll limit c.scan (.settled m) := by
  induction hn : c.rest.length using Nat.strongRecOn generalizing c m with
  | ind n ih =>
    by_cases h : c.atEnd = true
    · rw [run_of_atEnd h, Cursor.scan_of_atEnd h]
      rfl
    rw [run_of_not_atEnd h]
    rcases hg : c.get with ⟨e | t, c'⟩
    · rw [Cursor.scan_of_get_error h hg, Cursor.symbol, Cursor.take_of_get_error hg]
      rfl
    have hlt : c'.rest.length < n := hn ▸ Cursor.length_get_lt c c' t hg
    rw [Cursor.scan_of_get_ok h hg, Reader.readAll_cons]
    by_cases hname : ∃ id, t = .name id
    · obtain ⟨id, rfl⟩ := hname
      by_cases he : m.expects = .operator
      · rw [he, Cursor.symbol_of_name_of_operator hg, Traced.ok_bind, step_name_of_operator he]
        simp only [Reader.feed, Reader.machine, step_name_of_operator he]
        rfl
      -- a name where an operand is due
      rw [Cursor.symbol_of_name hg he]
      simp only [Reader.feed, Reader.machine, step_name he, pure_bind, Traced.after_eq_bind, bind_assoc]
      congr 1
      funext _
      by_cases h' : c'.atEnd = true
      · rw [Cursor.opensCall_of_atEnd h', Cursor.scan_of_atEnd h']
        show (step limit m (.token (.name id)) >>= fun m' => m'.run limit c') = _
        rw [step_name he, pure_bind, run_of_atEnd h']
        rfl
      rcases hg' : c'.get with ⟨e | u, c''⟩
      · rw [Cursor.opensCall_of_get_error h' hg', Cursor.scan_of_get_error h' hg']
        rfl
      by_cases hu : u = .leftParen
      · subst hu
        have hlt' : c''.rest.length < n := Nat.lt_trans (Cursor.length_get_lt c' c'' _ hg') hlt
        rw [Cursor.opensCall_of_get_leftParen h' hg', Cursor.scan_of_get_ok h' hg', Reader.readAll_cons]
        show (c'.take >>= _) >>= _ = _
        rw [Cursor.take_of_get_ok hg']
        simp only [bind_assoc, pure_bind]
        show Traced.after _ (m.readOpenCall id >>= fun m' => m'.run limit c'') = _
        simp only [ih _ hlt' _ c'' rfl]
        rfl
      · rw [Cursor.opensCall_of_get_ne h' hg' hu]
        show (step limit m (.token (.name id)) >>= fun m' => m'.run limit c') = _
        rw [step_name he, pure_bind, ih _ hlt _ c' rfl, Reader.readAll_named]
        intro k hk
        rw [Cursor.scan_of_get_ok h' hg'] at hk
        simp at hk
        exact hu hk.1
    · have hne : ∀ id, t ≠ .name id := fun id hid => hname ⟨id, hid⟩
      rw [Cursor.symbol_of_ne_name hg hne, Traced.ok_bind, Reader.feed_settled_of_ne_name hne]
      simp only [map_eq_pure_bind, bind_assoc, pure_bind, ← ih _ hlt _ c' rfl]
      rfl

end Machine

/-- **The tree of a source is what a reader makes of its scan.** -/
theorem Expr.parse_eq_readAll (maxDepth : Nat) (source : String) :
    Expr.parse maxDepth source = Reader.readAll (max maxDepth 1) (Cursor.ofString source).scan Reader.start :=
  Machine.run_eq_readAll _ _ _

end Calculator
