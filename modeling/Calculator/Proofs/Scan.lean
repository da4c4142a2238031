import Calculator.Cursor
import Mathlib.Data.List.TakeWhile
/-!
# Proofs.Scan — all that a cursor still yields

The tokens of a source do not depend on who asks for them.  `Cursor.scan` lists them with the places of their lexemes,
up to the end or to the first fault, and `collect` gives the same list (`collect_eq_scan`).
-/
namespace Calculator

/-- Tokens with the places where their lexemes start, and the fault that stops them if one does. -/
structure Scan where
  tokens : List (Token × Nat)
  fault : Option Fault

namespace Scan

def words (s : Scan) : List Token := s.tokens.map Prod.fst

end Scan

namespace Cursor

/-- The tokens from a cursor to the end, or to the first fault. -/
def scan (c : Cursor) : Scan :=
  if c.atEnd then ⟨[], none⟩
  else
    match _h : c.get with
    | (.error e, _) => ⟨[], some e⟩
    | (.ok t, c') =>
      let others := c'.scan
      ⟨(t, c.skipSpaces.offset) :: others.tokens, others.fault⟩
termination_by c.rest.length
decreasing_by exact length_get_lt c c' t ‹_›

theorem scan_of_atEnd {c : Cursor} (h : c.atEnd = true) : c.scan = ⟨[], none⟩ := by
  rw [scan, if_pos h]

theorem scan_of_get_error {c c' : Cursor} {e : Fault} (h : ¬ c.atEnd = true) (hg : c.get = (.error e, c')) :
    c.scan = ⟨[], some e⟩ := by
  rw [scan, if_neg h]
  split
  · rename_i hg'
    obtain ⟨he, -⟩ := Prod.mk.inj (hg.symm.trans hg')
    injection he with he
    rw [he]
  · rename_i hg'
    cases hg.symm.trans hg'

theorem scan_of_get_ok {c c' : Cursor} {t : Token} (h : ¬ c.atEnd = true) (hg : c.get = (.ok t, c')) :
    c.scan = ⟨(t, c.skipSpaces.offset) :: c'.scan.tokens, c'.scan.fault⟩ := by
  rw [scan, if_neg h]
  split
  · rename_i hg'
    cases hg.symm.trans hg'
  · rename_i hg'
    obtain ⟨ht, rfl⟩ := Prod.mk.inj (hg.symm.trans hg')
    injection ht with ht
    rw [ht]

theorem rest_skipSpaces_ne_nil {c : Cursor} (h : ¬ c.atEnd = true) : c.skipSpaces.rest ≠ [] := by
  intro hn
  exact h (List.all_eq_true.2 (fun d hd => List.dropWhile_eq_nil_iff.1 hn d hd))

/-- Only an unrecognized symbol stops the tokens. -/
theorem scan_fault {c : Cursor} {e : Fault} (h : c.scan.fault = some e) : ∃ x n, e = .unrecognizedSymbol x n := by
  induction hn : c.rest.length using Nat.strongRecOn generalizing c with
  | ind n ih =>
    by_cases hend : c.atEnd = true
    · rw [scan_of_atEnd hend] at h
      cases h
    · rcases hg : c.get with ⟨f | t, c'⟩
      · rw [scan_of_get_error hend hg] at h
        cases h
        unfold get token at hg
        cases hr : c.skipSpaces.rest with
        | nil => exact absurd hr (rest_skipSpaces_ne_nil hend)
        | cons x xs =>
          rw [hr] at hg
          split at hg
          · cases hg
          · rename_i ht
            split at ht
            · cases ht
            · rename_i hnil
              cases hnil
            · cases ht
              cases hg
              exact ⟨_, _, rfl⟩
      · rw [scan_of_get_ok hend hg] at h
        exact ih _ (hn ▸ length_get_lt c c' t hg) h rfl

/-- `peek` tells what `get` would. -/
theorem get_fst (c : Cursor) : c.get.1 = c.peek.1 := by
  unfold get peek
  split
  · rename_i h; exact h.symm
  · rename_i h; exact h.symm

/-- **`collect` gives the scanned tokens, or the fault that stops them.** -/
theorem collect_eq_scan (c : Cursor) :
    c.collect.1 = match c.scan.fault with
      | none => .ok c.scan.words
      | some e => .error e := by
  induction hn : c.rest.length using Nat.strongRecOn generalizing c with
  | ind n ih =>
    rw [collect]
    by_cases h : c.atEnd = true
    · rw [if_pos h, scan_of_atEnd h]
      rfl
    · rw [if_neg h]
      split
      · rename_i hg
        rw [scan_of_get_error h hg]
      · rename_i t c' hg
        have hlt : c'.rest.length < n := hn ▸ length_get_lt c c' t hg
        rw [scan_of_get_ok h hg]
        simp only [ih _ hlt c' rfl]
        cases c'.scan.fault <;> rfl

theorem collect_eq_ok_iff {c : Cursor} {ts : List Token} :
    c.collect.1 = .ok ts ↔ c.scan.fault = none ∧ c.scan.words = ts := by
  rw [collect_eq_scan]
  cases c.scan.fault <;> simp

end Cursor
end Calculator
