import Calculator.Machine
import Calculator.Proofs.Outcome
/-!
# Proofs.Reduction — the three loops that reduce

An operator, a closing parenthesis and the end each reduce what is pending, and stop at different places.  All three
begin alike: `reduceFrom` reduces down to a level and stops at a looser operator or a barrier, and each loop is
`reduceFrom` followed by itself (`reduceFrom_bind_reduceToParen` and its like).

The bulk of a machine is the sum of its operands' heights and the number of what is pending.  No reduction adds to it.
-/
namespace Calculator

/-- Whether a pending operator is reduced when all down to a level is. -/
def Pending.bindsAt (n : Nat) (p : Pending) : Bool := p.precedence?.any (n ≤ ·)

theorem Pending.bindsBefore_eq_bindsAt (p : Pending) (op : Operator) : p.bindsBefore op = p.bindsAt op.precedence := by
  unfold bindsBefore bindsAt
  cases p.precedence? with
  | none => rfl
  | some k =>
    have ha : op.associativity = .left := by cases op <;> rfl
    rw [ha]
    apply Bool.eq_iff_iff.2
    simp
    omega

theorem Pending.bindsAt_of_le {k n : Nat} (h : k ≤ n) {p : Pending} (hp : p.bindsAt n = true) : p.bindsAt k = true := by
  unfold bindsAt at *
  cases hq : p.precedence? with
  | none => rw [hq] at hp; cases hp
  | some j =>
    rw [hq] at hp
    simp at hp ⊢
    omega

/-- The limit has no part in the fault. -/
def Fault.NotDeep (e : Fault) : Prop := ∀ k, e ≠ .tooDeep k

namespace Machine

/-! ## One reduction -/

theorem combine_ne_tooDeep {p : Pending} {vs : List Operand} {k : Nat} : combine p vs ≠ .error (.tooDeep k) := by
  intro h
  unfold combine at h
  split at h <;> first | cases h | skip
  split at h <;> cases h

theorem reduce_of_error {p : Pending} {vs : List Operand} {e : Fault} (h : combine p vs = .error e) (limit : Nat) :
    reduce limit p vs = ⟨[.reduce p vs.length], .error e⟩ := by
  rw [reduce, h]
  rfl

theorem reduce_of_le {p : Pending} {vs rest : List Operand} {x : Operand} (h : combine p vs = .ok (x, rest))
    {limit : Nat} (hx : x.height ≤ limit) : reduce limit p vs = ⟨[.reduce p vs.length], .ok (x :: rest)⟩ := by
  have hn : ¬ limit < x.height := Nat.not_lt.2 hx
  rw [reduce, h]
  simp only [Traced.record, Traced.ofExcept, Traced.ok_bind, if_neg hn]
  rfl

theorem reduce_of_lt {p : Pending} {vs rest : List Operand} {x : Operand} (h : combine p vs = .ok (x, rest))
    {limit : Nat} (hx : limit < x.height) : reduce limit p vs = ⟨[.reduce p vs.length], .error (.tooDeep limit)⟩ := by
  rw [reduce, h]
  simp only [Traced.record, Traced.ofExcept, Traced.ok_bind, if_pos hx]
  rfl

theorem log_reduce (limit : Nat) (p : Pending) (vs : List Operand) :
    (reduce limit p vs).log = [.reduce p vs.length] := by
  cases hc : combine p vs with
  | error e => rw [reduce_of_error hc]
  | ok r =>
    obtain ⟨x, rest⟩ := r
    rcases Nat.lt_or_ge limit x.height with hx | hx
    · rw [reduce_of_lt hc hx]
    · rw [reduce_of_le hc hx]

theorem reduce_ends {p : Pending} {vs rest : List Operand} {x : Operand} (h : combine p vs = .ok (x, rest))
    (limit : Nat) :
    (reduce limit p vs).Ends (fun ws => ws = x :: rest ∧ x.height ≤ limit) (· = .tooDeep limit) := by
  rcases Nat.lt_or_ge limit x.height with hx | hx
  · rw [reduce_of_lt h hx]; rfl
  · rw [reduce_of_le h hx]; exact ⟨rfl, hx⟩

/-! ## Reducing down to a level -/

/-- Reduces all that binds at least as tightly as a level. -/
def reduceFrom (limit n : Nat) : List Pending → List Operand → Traced (List Pending × List Operand)
  | [], vs => pure ([], vs)
  | p :: ps, vs =>
    if p.bindsAt n then do reduceFrom limit n ps (← reduce limit p vs)
    else pure (p :: ps, vs)

theorem reduceBefore_eq_reduceFrom (limit : Nat) (op : Operator) :
    ∀ (ps : List Pending) (vs : List Operand), reduceBefore limit op ps vs = reduceFrom limit op.precedence ps vs
  | [], _ => rfl
  | p :: ps, vs => by
    rw [reduceBefore, reduceFrom, Pending.bindsBefore_eq_bindsAt]
    split
    · exact congrArg (reduce limit p vs >>= ·) (funext (reduceBefore_eq_reduceFrom limit op ps))
    · rfl

theorem reduceFrom_of_stop {n : Nat} {ps : List Pending} (h : ∀ p ∈ ps.head?, p.bindsAt n = false) (limit : Nat)
    (vs : List Operand) : reduceFrom limit n ps vs = pure (ps, vs) := by
  cases ps with
  | nil => rfl
  | cons p ps => rw [reduceFrom, h p rfl]; rfl

section
variable {limit n : Nat}

/-- What starts with reducing the same is not changed by reducing down to a level before. -/
theorem reduceFrom_bind {α : Type} {f : List Pending → List Operand → Traced α}
    (hf : ∀ p ps vs, p.bindsAt n = true → f (p :: ps) vs = reduce limit p vs >>= f ps) :
    ∀ (ps : List Pending) (vs : List Operand), (reduceFrom limit n ps vs >>= fun r => f r.1 r.2) = f ps vs
  | [], _ => rfl
  | p :: ps, vs => by
    rw [reduceFrom]
    split
    · rename_i hp
      rw [bind_assoc, hf p ps vs hp]
      exact congrArg (reduce limit p vs >>= ·) (funext (reduceFrom_bind hf ps))
    · rfl

theorem reduceFrom_bind_reduceFrom {k : Nat} (h : k ≤ n) (ps : List Pending) (vs : List Operand) :
    (reduceFrom limit n ps vs >>= fun r => reduceFrom limit k r.1 r.2) = reduceFrom limit k ps vs :=
  reduceFrom_bind (fun p ps vs hp => by rw [reduceFrom, if_pos (Pending.bindsAt_of_le h hp)]) ps vs

theorem reduceFrom_bind_reduceToParen (ps : List Pending) (vs : List Operand) :
    (reduceFrom limit n ps vs >>= fun r => reduceToParen limit r.1 r.2) = reduceToParen limit ps vs :=
  reduceFrom_bind (fun p ps vs hp => by cases p <;> first | rfl | cases hp) ps vs

theorem reduceFrom_bind_reduceAll (ps : List Pending) (vs : List Operand) :
    (reduceFrom limit n ps vs >>= fun r => reduceAll limit r.1 r.2) = reduceAll limit ps vs :=
  reduceFrom_bind (fun p ps vs hp => by cases p <;> first | rfl | cases hp) ps vs

end

/-! ## Bulk -/

def heights : List Operand → Nat
  | [] => 0
  | x :: vs => x.height + heights vs

/-- What bounds every height that is still to come. -/
def bulk (ps : List Pending) (vs : List Operand) : Nat := heights vs + ps.length

theorem heights_append : ∀ us vs : List Operand, heights (us ++ vs) = heights us + heights vs
  | [], vs => (Nat.zero_add (heights vs)).symm
  | x :: us, vs => by
    rw [List.cons_append, heights, heights, heights_append us vs, Nat.add_assoc]

theorem heights_reverse : ∀ vs : List Operand, heights vs.reverse = heights vs
  | [] => rfl
  | x :: vs => by
    rw [List.reverse_cons, heights_append, heights_reverse vs, heights, heights, heights]
    omega

theorem foldl_max_le_heights : ∀ (vs : List Operand) (n : Nat), (vs.map Operand.height).foldl max n ≤ n + heights vs
  | [], n => Nat.le_add_right n 0
  | x :: vs, n => by
    have := foldl_max_le_heights vs (max n x.height)
    rw [List.map_cons, List.foldl_cons, heights]
    omega

/-- The operands lose at least what their combination has, but for one level. -/
theorem combine_heights {p : Pending} {vs rest : List Operand} {x : Operand} (h : combine p vs = .ok (x, rest)) :
    heights (x :: rest) ≤ heights vs + 1 := by
  cases p with
  | unaryMinus =>
    cases vs with
    | nil => cases h
    | cons y vs =>
      cases h
      simp only [heights]
      omega
  | binary op =>
    match vs, h with
    | r :: l :: vs, h =>
      cases h
      simp only [heights]
      omega
  | call id base =>
    simp only [combine] at h
    split at h
    · cases h
    · cases h
      have hm := foldl_max_le_heights (vs.take (vs.length - base)).reverse 0
      have hs := heights_append (vs.take (vs.length - base)) (vs.drop (vs.length - base))
      rw [List.take_append_drop] at hs
      rw [heights_reverse] at hm
      simp only [heights]
      omega
  | leftParen => cases h

section
variable {limit bound : Nat} (hb : bound ≤ limit)
include hb

/-- A reduction within the bulk is not too deep, and does not add to it. -/
theorem reduce_bulk {p : Pending} {ps : List Pending} {vs : List Operand} (h : bulk (p :: ps) vs ≤ bound) :
    (reduce limit p vs).Ends (fun ws => bulk ps ws ≤ bound) Fault.NotDeep := by
  rw [bulk, List.length_cons] at h
  cases hc : combine p vs with
  | error e =>
    rw [reduce_of_error hc]
    exact fun k hk => combine_ne_tooDeep (hk ▸ hc)
  | ok r =>
    obtain ⟨x, rest⟩ := r
    have hx := combine_heights hc
    have : x.height ≤ heights (x :: rest) := Nat.le_add_right _ _
    rw [reduce_of_le hc (by omega)]
    show heights (x :: rest) + ps.length ≤ bound
    omega

theorem reduceBefore_bulk (op : Operator) : ∀ (ps : List Pending) (vs : List Operand), bulk ps vs ≤ bound →
    (reduceBefore limit op ps vs).Ends (fun r => bulk r.1 r.2 ≤ bound) Fault.NotDeep
  | [], _, h => h
  | p :: ps, vs, h => by
    rw [reduceBefore]
    split
    · exact (reduce_bulk hb h).bind (reduceBefore_bulk op ps)
    · exact h

theorem reduceToParen_bulk : ∀ (ps : List Pending) (vs : List Operand), bulk ps vs ≤ bound →
    (reduceToParen limit ps vs).Ends (fun r => bulk r.1 r.2 ≤ bound) Fault.NotDeep
  | [], _, _ => fun _ hk => by cases hk
  | .leftParen :: ps, vs, h => by
    rw [bulk, List.length_cons] at h
    exact Nat.le_of_succ_le h
  | .unaryMinus :: ps, _, h => (reduce_bulk hb h).bind (reduceToParen_bulk ps)
  | .binary _ :: ps, _, h => (reduce_bulk hb h).bind (reduceToParen_bulk ps)
  | .call _ _ :: ps, _, h => (reduce_bulk hb h).bind (reduceToParen_bulk ps)

theorem closeCall_bulk {ps : List Pending} {vs : List Operand} (h : bulk ps vs ≤ bound) :
    (closeCall limit ps vs).Ends (fun r => bulk r.1 r.2 ≤ bound) Fault.NotDeep := by
  unfold closeCall
  split
  · exact (reduce_bulk hb h).bind (fun ws hws => hws)
  · exact h

end

end Machine
end Calculator
