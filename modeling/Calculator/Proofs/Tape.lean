import Calculator.Proofs.Lexing
/-!
# Proofs.Tape — a cursor is a place in a fixed list of tokens

A source fixes a `Tape`: the tokens that can be read, and what is after them, the end or an unrecognized symbol.  Any
requests to a cursor, in any order, are answered as by an index into the tape of its source (`respond_eq_tape`).

A cursor has more places than the index: a failure and a look ahead leave it past the spaces where it stood.  All of
them have the same scan (`Cursor.scan_skipSpaces`), and an answer depends on nothing else.
-/
namespace Calculator

/-- What can be asked of a cursor. -/
inductive Request where
  | peek
  | get
  | next
  | atEnd
  | reset
deriving DecidableEq, Repr

inductive Response where
  | token (result : Except Fault Token)
  | item (result : Option (Except Fault Token))
  | ended (answer : Bool)
  | done

/-- Whether a request only looks. -/
def Request.looks : Request → Bool
  | peek | atEnd => true
  | get | next | reset => false

/-- Requests with their answers, each asked in the state that the one before it left. -/
def exchange {σ : Type} (answer : σ → Request → Response × σ) : σ → List Request → List (Request × Response)
  | _, [] => []
  | s, r :: rs => (r, (answer s r).1) :: exchange answer (answer s r).2 rs

/-- Answers do not depend on what was only looked at, if that does not change the state. -/
theorem filter_exchange {σ : Type} {answer : σ → Request → Response × σ}
    (h : ∀ s r, r.looks = true → (answer s r).2 = s) :
    ∀ (rs : List Request) (s : σ), (exchange answer s rs).filter (fun p => !p.1.looks)
      = exchange answer s (rs.filter (fun r => !r.looks))
  | [], _ => rfl
  | r :: rs, s => by
    rw [exchange, List.filter_cons, List.filter_cons]
    cases hr : r.looks with
    | true =>
      rw [h s r hr, filter_exchange h rs s]
      rfl
    | false =>
      simp only [Bool.not_false, if_true, exchange]
      rw [filter_exchange h rs]

/-! ## The index -/

/-- The tokens of a source, and the symbol that stops them with its place, `none` if they go on to the end. -/
structure Tape where
  tokens : List Token
  stop : Option (Char × Nat)

namespace Tape

def fault (t : Tape) : Option Fault := t.stop.map (fun s => .unrecognizedSymbol s.1 s.2)

/-- The token at an index, or why there is none. -/
def token (t : Tape) (i : Nat) : Except Fault Token :=
  match t.tokens[i]? with
  | some x => .ok x
  | none => .error (t.fault.getD .endOfInput)

/-- The index after a token that is used up; without one it stays. -/
def after (t : Tape) (i : Nat) : Nat := if i < t.tokens.length then i + 1 else i

def atEnd (t : Tape) (i : Nat) : Bool := decide (t.tokens.length ≤ i) && t.stop.isNone

def answer (t : Tape) (i : Nat) : Request → Response × Nat
  | .peek => (.token (t.token i), i)
  | .get => (.token (t.token i), t.after i)
  | .next => if t.atEnd i then (.item none, i) else (.item (some (t.token i)), t.after i)
  | .atEnd => (.ended (t.atEnd i), i)
  | .reset => (.done, 0)

def respond (t : Tape) : List Request → List (Request × Response) := exchange t.answer 0

end Tape

namespace Cursor

def answer (c : Cursor) : Request → Response × Cursor
  | .peek => (.token c.peek.1, c.peek.2)
  | .get => (.token c.get.1, c.get.2)
  | .next => (.item c.next?.1, c.next?.2)
  | .atEnd => (.ended c.atEnd, c)
  | .reset => (.done, c.reset)

def respond (c : Cursor) : List Request → List (Request × Response) := exchange answer c

/-! ## Spaces before the next token do not matter -/

theorem skipSpaces_skipSpaces (c : Cursor) : c.skipSpaces.skipSpaces = c.skipSpaces := by
  have hnil : (c.rest.dropWhile isSpace).takeWhile isSpace = [] := by
    cases h : c.rest.dropWhile isSpace with
    | nil => rfl
    | cons x xs =>
      have hx := List.head?_dropWhile_not isSpace c.rest
      rw [h] at hx
      exact List.takeWhile_cons_of_neg (by simpa using hx)
  have hdrop : (c.rest.dropWhile isSpace).dropWhile isSpace = c.rest.dropWhile isSpace := by
    conv => rhs; rw [← List.takeWhile_append_dropWhile (p := isSpace) (l := c.rest.dropWhile isSpace), hnil]
    rfl
  simp only [skipSpaces, hnil, hdrop]
  rfl

theorem atEnd_skipSpaces (c : Cursor) : c.skipSpaces.atEnd = c.atEnd := by
  apply Bool.eq_iff_iff.2
  constructor
  · intro h
    have hall : ∀ x ∈ c.skipSpaces.rest, isSpace x = true := List.all_eq_true.1 h
    rw [atEnd, ← List.takeWhile_append_dropWhile (p := isSpace) (l := c.rest), List.all_append, Bool.and_eq_true]
    exact ⟨List.all_eq_true.2 (fun x hx => List.mem_takeWhile_imp hx), List.all_eq_true.2 hall⟩
  · intro h
    have hall : ∀ x ∈ c.rest, isSpace x = true := List.all_eq_true.1 h
    exact List.all_eq_true.2 (fun x hx => hall x ((List.dropWhile_sublist _).subset hx))

theorem get_skipSpaces (c : Cursor) : c.skipSpaces.get = c.get := by
  rw [get, get, skipSpaces_skipSpaces]

theorem scan_skipSpaces (c : Cursor) : c.skipSpaces.scan = c.scan := by
  by_cases h : c.atEnd = true
  · rw [scan_of_atEnd h, scan_of_atEnd ((atEnd_skipSpaces c).trans h)]
  · have h' : ¬ c.skipSpaces.atEnd = true := by rwa [atEnd_skipSpaces]
    rcases hg : c.get with ⟨e | t, d⟩
    · rw [scan_of_get_error h hg, scan_of_get_error h' ((get_skipSpaces c).trans hg)]
    · rw [scan_of_get_ok h hg, scan_of_get_ok h' ((get_skipSpaces c).trans hg), skipSpaces_skipSpaces]

/-! ## Every answer is read off the scan -/

theorem get_of_atEnd {c : Cursor} (h : c.atEnd = true) : c.get = (.error .endOfInput, c.skipSpaces) := by
  have hnil : c.skipSpaces.rest = [] := List.dropWhile_eq_nil_iff.2 (fun x hx => List.all_eq_true.1 h x hx)
  rw [get, token, hnil]
  rfl

theorem skipSpaces_of_get_error {c c' : Cursor} {e : Fault} (h : c.get = (.error e, c')) : c' = c.skipSpaces := by
  unfold get at h
  split at h
  · cases h
  · exact (Prod.mk.inj h).2.symm

theorem source_get (c : Cursor) : c.get.2.source = c.source := by
  unfold get
  split <;> rfl

/-- The cursor and the index have the same tokens before them. -/
structure StandsAt (c : Cursor) (t : Tape) (i : Nat) : Prop where
  words : c.scan.words = t.tokens.drop i
  fault : c.scan.fault = t.fault
  start : c.reset.scan.words = t.tokens ∧ c.reset.scan.fault = t.fault

section
variable {t : Tape} {c : Cursor} {i : Nat}

theorem StandsAt.skipSpaces (h : c.StandsAt t i) : c.skipSpaces.StandsAt t i where
  words := by rw [scan_skipSpaces, h.words]
  fault := by rw [scan_skipSpaces, h.fault]
  start := h.start

theorem StandsAt.atEnd (h : c.StandsAt t i) : c.atEnd = t.atEnd i := by
  apply Bool.eq_iff_iff.2
  have hlen : t.tokens.length ≤ i ↔ c.scan.words = [] := by rw [h.words, List.drop_eq_nil_iff]
  have hstop : t.stop.isNone = true ↔ c.scan.fault = none := by
    rw [h.fault, Tape.fault, Option.map_eq_none_iff, Option.isNone_iff_eq_none]
  rw [Tape.atEnd, Bool.and_eq_true, decide_eq_true_iff, hlen, hstop]
  constructor
  · intro hend
    rw [scan_of_atEnd hend]
    exact ⟨rfl, rfl⟩
  · rintro ⟨hwords, hfault⟩
    refine Classical.byContradiction (fun hend => ?_)
    rcases hg : c.get with ⟨e | x, d⟩
    · rw [scan_of_get_error hend hg] at hfault
      cases hfault
    · rw [scan_of_get_ok hend hg] at hwords
      cases hwords

/-- **What `get` gives is at the index, and it leaves the cursor where the index goes.** -/
theorem StandsAt.get (h : c.StandsAt t i) : c.get.1 = t.token i ∧ c.get.2.StandsAt t (t.after i) := by
  by_cases hend : c.atEnd = true
  · have hi := h.atEnd.symm.trans hend
    rw [Tape.atEnd, Bool.and_eq_true, decide_eq_true_iff, Option.isNone_iff_eq_none] at hi
    rw [get_of_atEnd hend, Tape.token, List.getElem?_eq_none hi.1, Tape.fault, hi.2, Tape.after,
      if_neg (Nat.not_lt.2 hi.1)]
    exact ⟨rfl, h.skipSpaces⟩
  · rcases hg : c.get with ⟨e | x, d⟩
    · have hs := scan_of_get_error hend hg
      have hi : t.tokens.length ≤ i := by
        rw [← List.drop_eq_nil_iff, ← h.words, hs]
        rfl
      have hf : t.fault = some e := by rw [← h.fault, hs]
      rw [Tape.token, List.getElem?_eq_none hi, hf, Tape.after, if_neg (Nat.not_lt.2 hi), skipSpaces_of_get_error hg]
      exact ⟨rfl, h.skipSpaces⟩
    · have hs := scan_of_get_ok hend hg
      have hdrop : x :: d.scan.words = t.tokens.drop i := by
        rw [← h.words, hs]
        rfl
      have hi : i < t.tokens.length := by
        refine Nat.lt_of_not_le (fun hle => ?_)
        rw [List.drop_eq_nil_iff.2 hle] at hdrop
        cases hdrop
      rw [List.drop_eq_getElem_cons hi] at hdrop
      obtain ⟨hx, hwords⟩ := List.cons.inj hdrop
      have hsource : d.reset = c.reset := by
        have := source_get c
        rw [hg] at this
        rw [Cursor.reset, Cursor.reset, this]
      rw [Tape.token, List.getElem?_eq_getElem hi, ← hx, Tape.after, if_pos hi]
      refine ⟨rfl, ⟨hwords, ?_, by rw [hsource]; exact h.start⟩⟩
      rw [← h.fault, hs]

theorem StandsAt.answer (h : c.StandsAt t i) (r : Request) :
    (c.answer r).1 = (t.answer i r).1 ∧ (c.answer r).2.StandsAt t (t.answer i r).2 := by
  cases r with
  | peek =>
    have hpeek : c.peek.1 = t.token i := (get_fst c).symm.trans h.get.1
    exact ⟨congrArg Response.token hpeek, h.skipSpaces⟩
  | get => exact ⟨congrArg Response.token h.get.1, h.get.2⟩
  | next =>
    simp only [Cursor.answer, Tape.answer, next?, h.atEnd]
    split
    · exact ⟨rfl, h⟩
    · exact ⟨congrArg (fun x => Response.item (some x)) h.get.1, h.get.2⟩
  | atEnd => exact ⟨congrArg Response.ended h.atEnd, h⟩
  | reset => exact ⟨rfl, ⟨h.start.1, h.start.2, h.start⟩⟩

theorem StandsAt.exchange : ∀ (rs : List Request) {c : Cursor} {i : Nat}, c.StandsAt t i →
    exchange Cursor.answer c rs = exchange t.answer i rs
  | [], _, _, _ => rfl
  | r :: rs, c, i, h => by
    rw [Calculator.exchange, Calculator.exchange, (h.answer r).1, StandsAt.exchange rs (h.answer r).2]

end

/-- The tape of a source. -/
theorem exists_standsAt (source : List Char) : ∃ t : Tape, (ofList source).StandsAt t 0 := by
  cases hf : (ofList source).scan.fault with
  | none => exact ⟨⟨(ofList source).scan.words, none⟩, ⟨rfl, hf, rfl, hf⟩⟩
  | some e =>
    obtain ⟨x, n, rfl⟩ := scan_fault hf
    exact ⟨⟨(ofList source).scan.words, some (x, n)⟩, ⟨rfl, hf, rfl, hf⟩⟩

theorem byteCount_takeWhile_isSpace : ∀ text : List Char,
    byteCount (text.takeWhile isSpace) = (text.takeWhile isSpace).length
  | [] => rfl
  | x :: text => by
    rw [List.takeWhile_cons]
    split
    · rename_i hx
      have hx : x = ' ' := by simpa [isSpace] using hx
      rw [byteCount, byteCount_takeWhile_isSpace text, hx, List.length_cons, Nat.add_comm]
      rfl
    · rfl

end Cursor

/-- **Requests to a cursor are answered as by an index into the tape of its source**, whatever they are and in any
order.  So those that only look can be left out without a change to the other answers, though a look ahead moves the
cursor past the spaces before it. -/
theorem respond_eq_tape (source : String) :
    ∃ t : Tape, (∀ rs, (Cursor.ofString source).respond rs = t.respond rs) ∧
      (∀ rs, ((Cursor.ofString source).respond rs).filter (fun p => !p.1.looks)
        = (Cursor.ofString source).respond (rs.filter (fun r => !r.looks))) ∧
      (Cursor.ofString source).peek.2.offset = (source.toList.takeWhile isSpace).length := by
  obtain ⟨t, ht⟩ := Cursor.exists_standsAt source.toList
  have hrespond : ∀ rs, (Cursor.ofString source).respond rs = t.respond rs := fun rs => ht.exchange rs
  refine ⟨t, hrespond, fun rs => ?_, ?_⟩
  · rw [hrespond, hrespond]
    exact filter_exchange (fun i r hr => by cases r <;> first | rfl | cases hr) rs 0
  · show 0 + byteCount _ = _
    rw [Nat.zero_add, Cursor.byteCount_takeWhile_isSpace]
    rfl

end Calculator
