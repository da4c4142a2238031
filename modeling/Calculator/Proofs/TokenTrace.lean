import Calculator.Proofs.Cut
import Calculator.Proofs.FirstFault
import Calculator.Proofs.PostOrder
import Mathlib.Data.List.Forall2
/-!
# Proofs.TokenTrace — the tokens on record

A parse records a token when it uses it up, so its record lists the first tokens of the source in order, each with the
place of its lexeme, and after each the reductions that it causes.  How far that goes can be told from the outcome
(`Ended`): to the last token, or to the one that is refused.

There are never more reductions than tokens on record.  Whatever is reduced was pending before, and a token adds one at
most to what is pending, but for a name that opens a call: together with its parenthesis it adds two.  So the pending
are a credit that pays for the reductions to come (`Reader.credit`).

All of this can be seen in the lines that are printed, too (`Prints`).
-/
namespace Calculator

theorem Event.filterMap_tokenAt?_of_reductions {log : List Event} (h : ∀ e ∈ log, e.isReduction = true) :
    log.filterMap tokenAt? = [] := by
  refine List.filterMap_eq_nil_iff.2 (fun e he => ?_)
  have hreduce := h e he
  cases e <;> first | rfl | cases hreduce

theorem Event.ofParse_of_isReduction {e : Event} (h : e.isReduction = true) : e.OfParse := by
  cases e with
  | evaluated => cases h
  | _ => trivial

/-! ## Places -/

/-- A lexeme of the text starts at this byte and spells the token, and the lexemes before it spell others. -/
def StartsAt (text : List Char) (earlier : List Token) (t : Token) (n : Nat) : Prop :=
  ∃ before w after ws, text = before ++ w ++ after ∧ n = byteCount before ∧ Cut (w ++ after) before ws ∧
    List.Forall₂ Spells ws earlier ∧ Longest w after ∧ Spells w t

theorem byteCount_pos {w : List Char} (h : w ≠ []) : 0 < byteCount w := by
  obtain ⟨c, cs, rfl⟩ := List.exists_cons_of_ne_nil h
  exact Nat.lt_of_lt_of_le c.utf8Size_pos (Nat.le_add_right _ _)

namespace Cursor

variable {before after : List Char} {ws : List (List Char)}

theorem tokens_of_gap (hgap : ∀ x ∈ before, x = ' ') (hforeign : ∀ x ∈ after.head?, IsForeign x) {c : Cursor}
    (hr : c.rest = before ++ after) : c.scan.tokens = [] := by
  have hwords := (scan_of_cut (.spaces hgap) hforeign hr).1
  exact List.map_eq_nil_iff.1 (List.forall₂_nil_left_iff.1 hwords)

theorem startsAt_of_cut (h : Cut after before ws) (hforeign : ∀ x ∈ after.head?, IsForeign x) :
    ∀ {c : Cursor} {earlier later : List (Token × Nat)} {t : Token} {n : Nat}, c.rest = before ++ after →
      c.scan.tokens = earlier ++ (t, n) :: later →
      ∃ k, n = c.offset + k ∧ StartsAt (before ++ after) (earlier.map Prod.fst) t k := by
  induction h with
  | spaces hgap =>
    intro c earlier later t n hr hs
    rw [tokens_of_gap hgap hforeign hr] at hs
    cases earlier <;> cases hs
  | @lexeme gap w rest ws hgap hw hcut ih =>
    intro c earlier later t n hr hs
    obtain ⟨⟨u, hu⟩, -⟩ := id hw
    rw [List.append_assoc, List.append_assoc] at hr
    obtain ⟨c', hrest, hoffset, hscan⟩ := scan_of_lexeme hr hgap hw hu
    rw [hscan] at hs
    cases earlier with
    | nil =>
      cases hs
      exact ⟨byteCount gap, rfl, gap, w, rest ++ after, [], List.append_assoc _ _ _, rfl, .spaces hgap, .nil, hw, hu⟩
    | cons x earlier =>
      obtain ⟨rfl, htokens⟩ := List.cons.inj hs
      obtain ⟨k, rfl, front, v, back, vs, hsplit, rfl, hfront, hspells, hv, ht⟩ := ih hrest htokens
      refine ⟨byteCount (gap ++ w ++ front), ?_, gap ++ w ++ front, v, back, w :: vs, ?_, rfl, ?_, .cons hu hspells, hv,
        ht⟩
      · rw [hoffset, byteCount_append (gap ++ w), Nat.add_assoc]
      · rw [List.append_assoc, hsplit]
        simp only [List.append_assoc]
      · rw [hsplit, List.append_assoc] at hw
        exact .lexeme hgap hw hfront

theorem pairwise_of_cut (h : Cut after before ws) (hforeign : ∀ x ∈ after.head?, IsForeign x) :
    ∀ {c : Cursor}, c.rest = before ++ after → c.scan.tokens.Pairwise (fun a b => a.2 < b.2) := by
  induction h with
  | spaces hgap =>
    intro c hr
    rw [tokens_of_gap hgap hforeign hr]
    exact .nil
  | @lexeme gap w rest ws hgap hw hcut ih =>
    intro c hr
    obtain ⟨⟨u, hu⟩, -⟩ := id hw
    rw [List.append_assoc, List.append_assoc] at hr
    obtain ⟨c', hrest, hoffset, hscan⟩ := scan_of_lexeme hr hgap hw hu
    rw [hscan]
    refine List.pairwise_cons.2 ⟨fun y hy => ?_, ih hrest⟩
    obtain ⟨earlier, later, hs⟩ := List.append_of_mem hy
    obtain ⟨k, hk, -⟩ := startsAt_of_cut hcut hforeign hrest hs
    have hpos := byteCount_pos hu.ne_nil
    rw [byteCount_append] at hoffset
    show c.offset + byteCount gap < y.2
    omega

end Cursor

/-! ## Credit -/

namespace Traced

/-- Only reductions are recorded, and the credit is enough for them and for what the result needs. -/
def Spends {α : Type} (x : Traced α) (need : α → Nat) (credit : Nat) : Prop :=
  (∀ e ∈ x.log, e.isReduction = true) ∧
    x.log.length + (match x.outcome with | .ok a => need a | .error _ => 0) ≤ credit

section
variable {α β : Type} {need : α → Nat} {credit : Nat}

theorem spends_pure {a : α} (h : need a ≤ credit) : (pure a : Traced α).Spends need credit :=
  ⟨List.forall_mem_nil _, (Nat.zero_add _).le.trans h⟩

theorem spends_fail {e : Fault} : (fail e : Traced α).Spends need credit :=
  ⟨List.forall_mem_nil _, Nat.zero_le _⟩

theorem Spends.length_le {x : Traced α} (h : x.Spends need credit) : x.log.length ≤ credit :=
  Nat.le_of_add_right_le h.2

theorem Spends.length_add_le {x : Traced α} {a : α} (h : x.Spends need credit) (hx : x.outcome = .ok a) :
    x.log.length + need a ≤ credit := by
  have hcredit := h.2
  rwa [hx] at hcredit

theorem Spends.bind {x : Traced α} {f : α → Traced β} {need' : β → Nat} (h : x.Spends need credit)
    (hf : ∀ a, (f a).Spends need' (need a)) : (x >>= f).Spends need' credit := by
  obtain ⟨log, e | a⟩ := x
  · exact h
  · obtain ⟨hlog, hcredit⟩ := h
    obtain ⟨hlog', hcredit'⟩ := hf a
    refine ⟨fun e he => (List.mem_append.1 he).elim (hlog e) (hlog' e), ?_⟩
    simp only [ok_bind, List.length_append] at hcredit hcredit' ⊢
    omega

theorem Spends.map {x : Traced α} {f : α → β} {need' : β → Nat} (h : x.Spends (fun a => need' (f a)) credit) :
    (f <$> x).Spends need' credit :=
  Spends.bind (f := fun a => pure (f a)) h (fun _ => spends_pure (Nat.le_refl _))

/-- Credit that is not touched is kept for the result. -/
theorem Spends.keep {x : Traced α} (h : x.Spends need credit) (n : Nat) :
    x.Spends (fun a => need a + n) (credit + n) := by
  refine ⟨h.1, ?_⟩
  cases hx : x.outcome with
  | ok a =>
    show x.log.length + (need a + n) ≤ credit + n
    rw [← Nat.add_assoc]
    exact Nat.add_le_add_right (h.length_add_le hx) n
  | error e => exact Nat.le_add_right_of_le h.length_le

theorem Spends.mono {x : Traced α} {credit' : Nat} (h : x.Spends need credit) (hle : credit ≤ credit') :
    x.Spends need credit' :=
  ⟨h.1, h.2.trans hle⟩

end
end Traced

namespace Machine

variable {limit : Nat} {m : Machine}

/-- One reduction costs one. -/
theorem reduce_spends (p : Pending) (vs : List Operand) (n : Nat) :
    (reduce limit p vs).Spends (fun _ => n) (n + 1) := by
  have hlog := log_reduce limit p vs
  refine ⟨fun e he => ?_, ?_⟩
  · rw [hlog] at he
    rw [List.mem_singleton.1 he]
    rfl
  · rw [hlog]
    cases (reduce limit p vs).outcome with
    | ok ws => exact (Nat.add_comm 1 n).le
    | error e => exact Nat.succ_le_succ (Nat.zero_le n)

theorem reduceBefore_spends (op : Operator) : ∀ (ps : List Pending) (vs : List Operand),
    (reduceBefore limit op ps vs).Spends (fun r => r.1.length) ps.length
  | [], _ => Traced.spends_pure (Nat.le_refl _)
  | p :: ps, vs => by
    rw [reduceBefore]
    split
    · exact (reduce_spends p vs ps.length).bind (reduceBefore_spends op ps)
    · exact Traced.spends_pure (Nat.le_refl _)

theorem reduceToParen_spends : ∀ (ps : List Pending) (vs : List Operand),
    (reduceToParen limit ps vs).Spends (fun r => r.1.length) ps.length
  | [], _ => Traced.spends_fail
  | .leftParen :: ps, _ => Traced.spends_pure (Nat.le_succ ps.length)
  | .unaryMinus :: ps, vs => (reduce_spends _ vs ps.length).bind (reduceToParen_spends ps)
  | .binary _ :: ps, vs => (reduce_spends _ vs ps.length).bind (reduceToParen_spends ps)
  | .call _ _ :: ps, vs => (reduce_spends _ vs ps.length).bind (reduceToParen_spends ps)

theorem reduceAll_spends : ∀ (ps : List Pending) (vs : List Operand),
    (reduceAll limit ps vs).Spends (fun _ => 0) ps.length
  | [], _ => Traced.spends_pure (Nat.le_refl _)
  | .leftParen :: _, _ => Traced.spends_fail
  | .unaryMinus :: ps, vs => (reduce_spends _ vs ps.length).bind (reduceAll_spends ps)
  | .binary _ :: ps, vs => (reduce_spends _ vs ps.length).bind (reduceAll_spends ps)
  | .call _ _ :: ps, vs => (reduce_spends _ vs ps.length).bind (reduceAll_spends ps)

theorem closeCall_spends (ps : List Pending) (vs : List Operand) :
    (closeCall limit ps vs).Spends (fun r => r.1.length) ps.length := by
  unfold closeCall
  split
  · rename_i ps
    exact (reduce_spends _ vs ps.length).bind (fun _ => Traced.spends_pure (Nat.le_refl _))
  · exact Traced.spends_pure (Nat.le_refl _)

theorem readOperand_spends (t : Token) (e : Expr) {need : Machine → Nat} {credit : Nat}
    (h : need ⟨m.pending, .leaf e :: m.values, .operator⟩ ≤ credit) : (m.readOperand t e).Spends need credit := by
  unfold readOperand
  split
  · exact Traced.spends_fail
  · exact Traced.spends_pure h

theorem readLeftParen_spends : m.readLeftParen.Spends (·.pending.length) (m.pending.length + 1) := by
  unfold readLeftParen
  split
  · exact Traced.spends_fail
  · exact Traced.spends_pure (Nat.le_refl _)

theorem readRightParen_spends : (m.readRightParen limit).Spends (·.pending.length) m.pending.length := by
  have hpure : ∀ r : List Pending × List Operand,
      (pure ⟨r.1, r.2, .operator⟩ : Traced Machine).Spends (·.pending.length) r.1.length :=
    fun _ => Traced.spends_pure (Nat.le_refl _)
  unfold readRightParen
  split
  · split
    · refine ((closeCall_spends _ _).bind hpure).mono ?_
      rw [List.length_tail]
      exact Nat.sub_le _ _
    · exact Traced.spends_fail
  · exact Traced.spends_fail
  · exact (reduceToParen_spends _ _).bind (fun r => (closeCall_spends r.1 r.2).bind hpure)

theorem readOperator_spends (op : Operator) :
    (m.readOperator limit op).Spends (·.pending.length) (m.pending.length + 1) := by
  unfold readOperator
  split
  · split
    · exact Traced.spends_pure (Nat.le_refl _)
    · exact Traced.spends_fail
  · exact Traced.spends_fail
  · exact ((reduceBefore_spends op _ _).keep 1).bind (fun _ => Traced.spends_pure (Nat.le_refl _))

/-- At the end all that is pending is reduced at most, and then the height of the tree is recorded. -/
theorem log_finish (limit : Nat) (m : Machine) : ∃ reductions tail, (m.finish limit).log = reductions ++ tail ∧
    (∀ e ∈ reductions, e.isReduction = true) ∧ reductions.length ≤ m.pending.length ∧
    ∀ e ∈ tail, ∃ height, e = .parsed height := by
  unfold finish
  split
  · exact ⟨[], [], rfl, List.forall_mem_nil _, Nat.zero_le _, List.forall_mem_nil _⟩
  · have hspends := @reduceAll_spends limit m.pending m.values
    have hall := hspends.1
    have hlength := hspends.length_le
    generalize reduceAll limit m.pending m.values = x at hall hlength ⊢
    obtain ⟨log, e | vs⟩ := x
    · exact ⟨log, [], (List.append_nil log).symm, hall, hlength, List.forall_mem_nil _⟩
    · refine ⟨log, _, rfl, hall, hlength, ?_⟩
      match vs with
      | [] => exact List.forall_mem_nil _
      | [root] => exact List.forall_mem_singleton.2 ⟨_, rfl⟩
      | _ :: _ :: _ => exact List.forall_mem_nil _

end Machine

namespace Reader

variable {limit : Nat} {r : Reader}

/-- What pays for the reductions to come.  A name that may open a call is worth one more than what is pending. -/
def credit : Reader → Nat
  | settled m => m.pending.length
  | named m _ => m.pending.length + 1

theorem length_pending_le_credit (r : Reader) : r.machine.pending.length ≤ r.credit := by
  cases r with
  | settled m => exact Nat.le_refl _
  | named m id => exact Nat.le_succ _

theorem settled_spends {x : Traced Machine} {n : Nat} (h : x.Spends (·.pending.length) n) :
    (settled <$> x).Spends credit n :=
  Traced.Spends.map (f := settled) h

/-- **A token adds one to the credit, and the reductions that it causes are paid from it.** -/
theorem feed_spends (r : Reader) (t : Token) : (r.feed limit t).Spends credit (r.credit + 1) := by
  have hle : r.machine.pending.length ≤ r.credit := r.length_pending_le_credit
  cases t with
  | number x =>
    rw [feed_number]
    exact settled_spends (Machine.readOperand_spends _ _ (Nat.le_succ_of_le hle))
  | name id =>
    rw [feed_name]
    have hread : (r.machine.readOperand (.name id) (.name id)).Spends (fun _ => r.machine.pending.length + 1) _ :=
      Machine.readOperand_spends _ _ (Nat.succ_le_succ hle)
    exact hread.bind (fun _ => Traced.spends_pure (Nat.le_refl _))
  | operator op =>
    rw [feed_operator]
    exact settled_spends ((Machine.readOperator_spends op).mono (Nat.succ_le_succ hle))
  | rightParen =>
    rw [feed_rightParen]
    exact settled_spends (Machine.readRightParen_spends.mono (Nat.le_succ_of_le hle))
  | leftParen =>
    cases r with
    | settled m => exact settled_spends Machine.readLeftParen_spends
    | named m id => exact Traced.spends_pure (Nat.le_refl (m.pending.length + 2))

theorem log_close (limit : Nat) (fault : Option Fault) (r : Reader) :
    ∃ reductions tail, (close limit fault r).log = reductions ++ tail ∧ (∀ e ∈ reductions, e.isReduction = true) ∧
      reductions.length ≤ r.credit ∧ ∀ e ∈ tail, ∃ height, e = .parsed height := by
  cases fault with
  | none =>
    obtain ⟨reductions, tail, hlog, hreductions, hlength, htail⟩ := r.machine.log_finish limit
    exact ⟨reductions, tail, hlog, hreductions, hlength.trans r.length_pending_le_credit, htail⟩
  | some e => exact ⟨[], [], rfl, List.forall_mem_nil _, Nat.zero_le _, List.forall_mem_nil _⟩

/-! ## A run to its end -/

/-- A reader uses up so many of the tokens, and this is what it comes to. -/
inductive Uses (limit : Nat) (fault : Option Fault) : Reader → List (Token × Nat) → Nat → Traced Expr → Prop
  | atEnd (r : Reader) : Uses limit fault r [] 0 (close limit fault r)
  | refused {r t n ts e} : (r.feed limit t).outcome = .error e →
      Uses limit fault r ((t, n) :: ts) 1 ⟨.token t n :: (r.feed limit t).log, .error e⟩
  | fed {r r' t n ts m x} : (r.feed limit t).outcome = .ok r' → Uses limit fault r' ts m x →
      Uses limit fault r ((t, n) :: ts) (m + 1) (Traced.after (.token t n :: (r.feed limit t).log) x)

theorem exists_uses (limit : Nat) (fault : Option Fault) : ∀ (ts : List (Token × Nat)) (r : Reader),
    ∃ m, Uses limit fault r ts m (readAll limit ⟨ts, fault⟩ r)
  | [], r => ⟨0, .atEnd r⟩
  | (t, n) :: ts, r => by
    rw [readAll_cons]
    cases hfeed : (r.feed limit t).outcome with
    | error e =>
      have hbind : r.feed limit t >>= readAll limit ⟨ts, fault⟩ = ⟨(r.feed limit t).log, .error e⟩ := by
        rw [← Traced.error_bind, ← hfeed]
      rw [hbind]
      exact ⟨1, .refused hfeed⟩
    | ok r' =>
      have hbind : r.feed limit t >>= readAll limit ⟨ts, fault⟩
          = Traced.after (r.feed limit t).log (readAll limit ⟨ts, fault⟩ r') := by
        rw [← Traced.ok_bind_eq_after, ← hfeed]
      obtain ⟨m, hm⟩ := exists_uses limit fault ts r'
      rw [hbind, Traced.after_after]
      exact ⟨m + 1, .fed hfeed hm⟩

/-- A token is on record behind the earlier ones, what it causes is recorded next, and the later ones follow. -/
def RecordsAt (limit : Nat) (r : Reader) (log : List Event) (earlier : List (Token × Nat)) (t : Token) (n : Nat)
    (later : List (Token × Nat)) : Prop :=
  ∃ r' before after, ((earlier.map Prod.fst).foldlM (feed limit) r).outcome = .ok r' ∧
    log = before ++ .token t n :: ((r'.feed limit t).log ++ after) ∧ before.filterMap Event.tokenAt? = earlier ∧
    (∀ e ∈ (r'.feed limit t).log, e.isReduction = true) ∧ after.filterMap Event.tokenAt? = later ∧
    ∀ u ∈ later.head?, after.head? = some (.token u.1 u.2)

theorem countP_take_le (log : List Event) (p : Event → Bool) (k : Nat) : (log.take k).countP p ≤ log.length :=
  List.countP_le_length.trans (List.length_take_le' k log)

namespace Uses

variable {limit m : Nat} {fault : Option Fault} {r : Reader} {ts : List (Token × Nat)} {x : Traced Expr}

theorem tokens (h : Uses limit fault r ts m x) : x.log.filterMap Event.tokenAt? = ts.take m := by
  induction h with
  | atEnd r =>
    obtain ⟨reductions, tail, hlog, hreductions, -, htail⟩ := r.log_close limit fault
    have hnone : tail.filterMap Event.tokenAt? = [] := List.filterMap_eq_nil_iff.2 (fun e he => by
      obtain ⟨height, rfl⟩ := htail e he
      rfl)
    rw [hlog, List.filterMap_append, Event.filterMap_tokenAt?_of_reductions hreductions, hnone]
    rfl
  | @refused r t n ts e _ =>
    show (t, n) :: (r.feed limit t).log.filterMap Event.tokenAt? = [(t, n)]
    rw [Event.filterMap_tokenAt?_of_reductions (r.feed_spends t).1]
  | @fed r r' t n ts m x _ _ ih =>
    show (t, n) :: ((r.feed limit t).log ++ x.log).filterMap Event.tokenAt? = (t, n) :: ts.take m
    rw [List.filterMap_append, Event.filterMap_tokenAt?_of_reductions (r.feed_spends t).1, ih]
    rfl

theorem ofParse (h : Uses limit fault r ts m x) : ∀ e ∈ x.log, e.OfParse := by
  induction h with
  | atEnd r =>
    obtain ⟨reductions, tail, hlog, hreductions, -, htail⟩ := r.log_close limit fault
    intro e he
    rw [hlog] at he
    rcases List.mem_append.1 he with he | he
    · exact Event.ofParse_of_isReduction (hreductions e he)
    · obtain ⟨height, rfl⟩ := htail e he
      trivial
  | @refused r t n ts e _ =>
    exact List.forall_mem_cons.2 ⟨trivial, fun e he => Event.ofParse_of_isReduction ((r.feed_spends t).1 e he)⟩
  | @fed r r' t n ts m x _ _ ih =>
    refine List.forall_mem_cons.2 ⟨trivial, fun e he => ?_⟩
    rcases List.mem_append.1 he with he | he
    · exact Event.ofParse_of_isReduction ((r.feed_spends t).1 e he)
    · exact ih e he

theorem head (h : Uses limit fault r ts m x) : ∀ u ∈ (ts.take m).head?, x.log.head? = some (.token u.1 u.2) := by
  intro u hu
  cases h <;> cases hu <;> rfl

/-- **Each token that is used up is on record in its turn, and what it causes before the next one.** -/
theorem recordsAt (h : Uses limit fault r ts m x) : ∀ {earlier later : List (Token × Nat)} {t : Token} {n : Nat},
    ts.take m = earlier ++ (t, n) :: later → RecordsAt limit r x.log earlier t n later := by
  induction h with
  | atEnd r =>
    intro earlier later t n hs
    cases earlier <;> cases hs
  | @refused r u k ts e hfeed =>
    intro earlier later t n hs
    match earlier, hs with
    | [], hs =>
      cases hs
      refine ⟨r, [], [], rfl, ?_, rfl, (r.feed_spends u).1, rfl, fun u hu => by cases hu⟩
      rw [List.append_nil]
      rfl
    | x :: earlier, hs =>
      obtain ⟨-, hs⟩ := List.cons.inj hs
      cases earlier <;> cases hs
  | @fed r r' u k ts m x hfeed hrest ih =>
    intro earlier later t n hs
    cases earlier with
    | nil =>
      obtain ⟨hu, rfl⟩ := List.cons.inj hs
      cases hu
      exact ⟨r, [], x.log, rfl, rfl, rfl, (r.feed_spends u).1, hrest.tokens, hrest.head⟩
    | cons y earlier =>
      obtain ⟨rfl, htokens⟩ := List.cons.inj hs
      obtain ⟨r'', before, after, hfold, hlog, hbefore, hreductions, hafter⟩ := ih htokens
      refine ⟨r'', .token u k :: (r.feed limit u).log ++ before, after, ?_, ?_, ?_, hreductions, hafter⟩
      · rw [List.map_cons, List.foldlM_cons, Traced.outcome_bind_of_ok hfeed, hfold]
      · rw [Traced.after, hlog, List.append_assoc]
      · show (u, k) :: ((r.feed limit u).log ++ before).filterMap Event.tokenAt? = _
        rw [List.filterMap_append, Event.filterMap_tokenAt?_of_reductions (r.feed_spends u).1, hbefore]
        rfl

/-- **At no time are there more reductions on record than tokens**, beyond what was to the credit at first. -/
theorem countP_le (h : Uses limit fault r ts m x) : ∀ k, (x.log.take k).countP Event.isReduction
    ≤ (x.log.take k).countP Event.isToken + r.credit := by
  induction h with
  | atEnd r =>
    intro k
    obtain ⟨reductions, tail, hlog, -, hlength, htail⟩ := r.log_close limit fault
    have htake := (List.take_sublist k (close limit fault r).log).countP_le (p := Event.isReduction)
    have hnone : tail.countP Event.isReduction = 0 := List.countP_eq_zero.2 (fun e he => by
      obtain ⟨height, rfl⟩ := htail e he
      exact Bool.false_ne_true)
    have hcount : reductions.countP Event.isReduction ≤ reductions.length := List.countP_le_length
    rw [hlog, List.countP_append, hnone] at htake
    rw [hlog]
    omega
  | @refused r t n ts e hfeed =>
    intro k
    have hspends : (r.feed limit t).Spends credit _ := r.feed_spends t
    have hcredit := hspends.length_le
    cases k with
    | zero => exact Nat.zero_le _
    | succ k =>
      have hcount := countP_take_le (r.feed limit t).log Event.isReduction k
      rw [List.take_succ_cons, List.countP_cons_of_neg Bool.false_ne_true, List.countP_cons_of_pos rfl]
      omega
  | @fed r r' t n ts m x hfeed _ ih =>
    intro k
    have hcredit := (r.feed_spends t).length_add_le hfeed
    cases k with
    | zero => exact Nat.zero_le _
    | succ k =>
      have hcount := countP_take_le (r.feed limit t).log Event.isReduction k
      have hrest := ih (k - (r.feed limit t).log.length)
      show ((.token t n :: ((r.feed limit t).log ++ x.log)).take (k + 1)).countP _
        ≤ ((.token t n :: ((r.feed limit t).log ++ x.log)).take (k + 1)).countP _ + _
      rw [List.take_succ_cons, List.countP_cons_of_neg Bool.false_ne_true, List.countP_cons_of_pos rfl,
        List.take_append, List.countP_append, List.countP_append]
      omega

theorem le_length (h : Uses limit fault r ts m x) : m ≤ ts.length := by
  induction h with
  | atEnd => exact Nat.le_refl 0
  | refused => exact Nat.succ_le_succ (Nat.zero_le _)
  | fed _ _ ih => exact Nat.succ_le_succ ih

/-- **The tokens are used up to the last one, or to the one that is refused**, and the outcome is what is made of it. -/
theorem ends (h : Uses limit fault r ts m x) :
    (∃ r', ((ts.map Prod.fst).foldlM (feed limit) r).outcome = .ok r' ∧ m = ts.length ∧
      x.outcome = (r'.close limit fault).outcome) ∨
    ∃ earlier t n later r' e, ts = earlier ++ (t, n) :: later ∧ m = earlier.length + 1 ∧
      ((earlier.map Prod.fst).foldlM (feed limit) r).outcome = .ok r' ∧ (r'.feed limit t).outcome = .error e ∧
      x.outcome = .error e := by
  induction h with
  | atEnd r => exact .inl ⟨r, rfl, rfl, rfl⟩
  | @refused r t n ts e hfeed => exact .inr ⟨[], t, n, ts, r, e, rfl, rfl, rfl, hfeed, rfl⟩
  | @fed r r' t n ts m x hfeed _ ih =>
    have hfold : ∀ us : List Token, ((t :: us).foldlM (feed limit) r).outcome = (us.foldlM (feed limit) r').outcome :=
      fun us => by rw [List.foldlM_cons, Traced.outcome_bind_of_ok hfeed]
    rcases ih with ⟨s, hs, rfl, hx⟩ | ⟨earlier, u, k, later, s, e, rfl, rfl, hs, hu, hx⟩
    · exact .inl ⟨s, (hfold _).trans hs, rfl, hx⟩
    · exact .inr ⟨(t, n) :: earlier, u, k, later, s, e, rfl, rfl, (hfold _).trans hs, hu, hx⟩

end Uses

end Reader

/-! ## Sources -/

/-- How a parse ends when so many tokens of a source have been used up: all of them, or those up to one with which no
expression goes on, or with which a tree gets too tall. -/
inductive Ended (limit : Nat) (s : Scan) : Nat → Except Fault Expr → Prop
  | success {e : Expr} : s.fault = none → Ended limit s s.tokens.length (.ok e)
  | unfinished {r : Reader} {e : Fault} : s.fault = none →
      (s.words.foldlM (Reader.feed limit) .start).outcome = .ok r → (r.machine.finish limit).outcome = .error e →
      RefusesEnd limit e → Ended limit s s.tokens.length (.error e)
  | unrecognized {symbol : Char} {offset : Nat} : s.fault = some (.unrecognizedSymbol symbol offset) →
      Ended limit s s.tokens.length (.error (.unrecognizedSymbol symbol offset))
  | refused {earlier t n later e} : s.tokens = earlier ++ (t, n) :: later → Viable (earlier.map Prod.fst) →
      ¬ Viable (earlier.map Prod.fst ++ [t]) → FaultAt (earlier.map Prod.fst) t e →
      Ended limit s (earlier.length + 1) (.error e)
  | tooDeep {earlier t n later} {r : Reader} : s.tokens = earlier ++ (t, n) :: later →
      ((earlier.map Prod.fst).foldlM (Reader.feed limit) .start).outcome = .ok r →
      (r.feed limit t).outcome = .error (.tooDeep limit) →
      Ended limit s (earlier.length + 1) (.error (.tooDeep limit))

theorem Reader.Uses.ended {limit m : Nat} {c : Cursor} {x : Traced Expr} (hl : 1 ≤ limit)
    (h : Uses limit c.scan.fault .start c.scan.tokens m x) : Ended limit c.scan m x.outcome := by
  rcases h.ends with ⟨r, hr, rfl, hx⟩ | ⟨earlier, t, n, later, r, e, hs, rfl, hr, he, hx⟩
  · rw [hx]
    cases hf : c.scan.fault with
    | some e =>
      obtain ⟨symbol, offset, rfl⟩ := Cursor.scan_fault hf
      exact .unrecognized hf
    | none =>
      have hreads : Reads limit c.scan.words r := (foldlM_feed_ends hl _).of_ok hr
      show Ended limit c.scan c.scan.tokens.length (r.machine.finish limit).outcome
      cases hfinish : (r.machine.finish limit).outcome with
      | ok e => exact .success hf
      | error e => exact .unfinished hf hr hfinish ((hreads.holds hl).finish.of_error hfinish)
  · rw [hx]
    by_cases hdeep : e = .tooDeep limit
    · subst hdeep
      exact .tooDeep hs hr he
    · obtain ⟨hv, hn, hfault⟩ := refuses_feed hl hr he hdeep
      exact .refused hs hv hn hfault

/-! ## Lines -/

/-- A token is printed behind the earlier ones, the reductions that it causes come next, and the later ones follow. -/
def PrintsAt (lines : List String) (earlier : List (Token × Nat)) (t : Token) (n : Nat) (later : List (Token × Nat)) :
    Prop :=
  ∃ before reductions after, lines = before ++ tokenLine t n :: (reductions ++ after) ∧
    before.filter isTokenLine = earlier.map (fun u => tokenLine u.1 u.2) ∧
    (∀ line ∈ reductions, isReduceLine line = true) ∧
    after.filter isTokenLine = later.map (fun u => tokenLine u.1 u.2) ∧
    ∀ u ∈ later.head?, after.head? = some (tokenLine u.1 u.2)

/-- The lines of a trace on which these tokens are shown. -/
structure Prints (lines : List String) (ts : List (Token × Nat)) : Prop where
  tokens : lines.filter isTokenLine = ts.map (fun u => tokenLine u.1 u.2)
  reductions : ∀ line ∈ lines, isReduceLine line = true → ∃ p values, line = reduceLine p values
  inTurn : ∀ earlier t n later, ts = earlier ++ (t, n) :: later → PrintsAt lines earlier t n later
  /-- At no time have more reductions been printed than tokens. -/
  countP_le : ∀ printed, printed <+: lines → printed.countP isReduceLine ≤ printed.countP isTokenLine

theorem Event.filter_isTokenLine (log : List Event) :
    (log.map line).filter isTokenLine = (log.filterMap tokenAt?).map (fun u => tokenLine u.1 u.2) := by
  rw [filter_map_line (fun e _ => e.isTokenLine_line), map_line_tokens]

theorem Event.filter_isReduceLine {log : List Event} (h : ∀ e ∈ log, e.OfParse) :
    (log.map line).filter isReduceLine = (log.filterMap reductionAt?).map (fun r => reduceLine r.1 r.2) := by
  rw [filter_map_line (fun e he => isReduceLine_line (h e he)), map_line_reductions]

/-- What is on record in its turn is printed in its turn. -/
theorem Reader.RecordsAt.printsAt {limit : Nat} {r : Reader} {log : List Event} {earlier later : List (Token × Nat)}
    {t : Token} {n : Nat} (h : RecordsAt limit r log earlier t n later) :
    PrintsAt (log.map Event.line) earlier t n later := by
  obtain ⟨r', before, after, -, hlog, hbefore, hreductions, hafter, hnext⟩ := h
  refine ⟨before.map Event.line, (r'.feed limit t).log.map Event.line, after.map Event.line, ?_, ?_, ?_, ?_, ?_⟩
  · rw [hlog, List.map_append, List.map_cons, List.map_append, Event.line_token]
  · rw [Event.filter_isTokenLine, hbefore]
  · refine List.forall_mem_map.2 (fun e he => ?_)
    have hreduction := hreductions e he
    rw [Event.isReduceLine_line (Event.ofParse_of_isReduction hreduction), hreduction]
  · rw [Event.filter_isTokenLine, hafter]
  · intro u hu
    rw [List.head?_map, hnext u hu]
    exact congrArg some (Event.line_token _ _)

/-- **The lines of a run show the tokens that it uses up.** -/
theorem Reader.Uses.prints {limit m : Nat} {fault : Option Fault} {ts : List (Token × Nat)} {x : Traced Expr}
    (h : Uses limit fault .start ts m x) : Prints (x.log.map Event.line) (ts.take m) where
  tokens := by rw [Event.filter_isTokenLine, h.tokens]
  reductions line hline hreduce := by
    have hmem : line ∈ (x.log.map Event.line).filter isReduceLine := List.mem_filter.2 ⟨hline, hreduce⟩
    rw [Event.filter_isReduceLine h.ofParse] at hmem
    obtain ⟨r, -, rfl⟩ := List.mem_map.1 hmem
    exact ⟨r.1, r.2, rfl⟩
  inTurn _ _ _ _ hs := (h.recordsAt hs).printsAt
  countP_le printed hprinted := by
    obtain ⟨log, hlog, rfl⟩ := List.prefix_map_iff.1 hprinted
    have hreduce : ∀ e ∈ log, isReduceLine e.line = e.isReduction :=
      fun e he => Event.isReduceLine_line (h.ofParse e (hlog.subset he))
    rw [Event.countP_map_line hreduce, Event.countP_map_line (fun e _ => e.isTokenLine_line),
      List.prefix_iff_eq_take.1 hlog]
    exact h.countP_le _

/-- **The tokens on record are the first ones of the source, each once and in order, with the places of their lexemes,
and the outcome tells how many.**  What a token causes is recorded before the next one, and at no time have there been
more reductions than tokens.  The lines that are printed tell the same. -/
theorem parse_log_tokens (maxDepth : Nat) (source : String) :
    let s : Scan := (Cursor.ofString source).scan
    let x : Traced Expr := Expr.parse maxDepth source
    let limit := max maxDepth 1
    (Cursor.ofString source).collect.1 = (match s.fault with | none => .ok s.words | some e => .error e) ∧
    (∀ earlier t n later, s.tokens = earlier ++ (t, n) :: later →
      StartsAt source.toList (earlier.map Prod.fst) t n) ∧
    s.tokens.Pairwise (fun a b => a.2 < b.2) ∧
    ∃ m ≤ s.tokens.length, x.log.filterMap Event.tokenAt? = s.tokens.take m ∧ Ended limit s m x.outcome ∧
      (∀ earlier t n later, s.tokens.take m = earlier ++ (t, n) :: later →
        Reader.RecordsAt limit .start x.log earlier t n later) ∧
      (∀ log, log <+: x.log → log.countP Event.isReduction ≤ log.countP Event.isToken) ∧
      (x.log.filter Event.isToken).map Event.line = (s.tokens.take m).map (fun u => tokenLine u.1 u.2) ∧
      (x.log.filter Event.isReduction).map Event.line =
        (x.log.filterMap Event.reductionAt?).map (fun r => reduceLine r.1 r.2) ∧
      Prints (x.log.map Event.line) (s.tokens.take m) := by
  intro s x limit
  have hl : 1 ≤ limit := Nat.le_max_right _ _
  obtain ⟨before, after, ws, hsplit, hcut, hforeign⟩ := exists_cut source.toList
  have hrest : (Cursor.ofString source).rest = before ++ after := hsplit
  obtain ⟨m, hm⟩ : ∃ m, Reader.Uses limit s.fault .start s.tokens m x := by
    rw [show x = _ from Expr.parse_eq_readAll maxDepth source]
    exact Reader.exists_uses limit s.fault s.tokens .start
  refine ⟨Cursor.collect_eq_scan _, fun earlier t n later hs => ?_, Cursor.pairwise_of_cut hcut hforeign hrest,
    m, hm.le_length, hm.tokens, hm.ended hl, fun _ _ _ _ => hm.recordsAt, fun log hlog => ?_, ?_,
    Event.map_line_reductions _, hm.prints⟩
  · obtain ⟨k, hk, hstarts⟩ := Cursor.startsAt_of_cut hcut hforeign hrest hs
    rw [hsplit, hk, show (Cursor.ofString source).offset = 0 from rfl, Nat.zero_add]
    exact hstarts
  · rw [List.prefix_iff_eq_take.1 hlog]
    exact hm.countP_le _
  · rw [Event.map_line_tokens, hm.tokens]

/-- The parenthesis is on record, and the product that it causes; the sign behind it is not. -/
theorem parse_log_tokens_surplus :
    StartsAt "a*b)+".toList [.name "a", .operator .times, .name "b"] .rightParen 3 ∧
    Reader.RecordsAt 512 .start (Expr.parse 512 "a*b)+").log [(.name "a", 0), (.operator .times, 1), (.name "b", 2)]
      .rightParen 3 [] ∧
    (Expr.parse 512 "a*b)+").log.countP Event.isReduction ≤ (Expr.parse 512 "a*b)+").log.countP Event.isToken ∧
    ((Expr.parse 512 "a*b)+").log.filter Event.isToken).map Event.line =
      ["TRACE token Id(\"a\") at 0", "TRACE token Op(Mul) at 1", "TRACE token Id(\"b\") at 2",
        "TRACE token RParen at 3"] ∧
    ((Expr.parse 512 "a*b)+").log.filter Event.isReduction).map Event.line =
      ["DEBUG reduce Binary(Mul) with 2 values"] ∧
    ((Expr.parse 512 "a*b)+").log.map Event.line).filter isTokenLine =
      ["TRACE token Id(\"a\") at 0", "TRACE token Op(Mul) at 1", "TRACE token Id(\"b\") at 2",
        "TRACE token RParen at 3"] := by
  have hs : (Cursor.ofString "a*b)+").scan = ⟨[(.name "a", 0), (.operator .times, 1), (.name "b", 2), (.rightParen, 3),
      (.operator .plus, 4)], none⟩ := by
    iterate 5 rw [Cursor.scan_of_get_ok (by decide) rfl]
    rw [Cursor.scan_of_atEnd rfl]
    rfl
  have hlog : (Expr.parse 512 "a*b)+").log = [.token (.name "a") 0, .token (.operator .times) 1, .token (.name "b") 2,
      .token .rightParen 3, .reduce (.binary .times) 2] := by
    rw [Expr.parse_eq_readAll, hs]
    rfl
  obtain ⟨-, hstarts, -, m, -, htokens, -, hrecords, hcount, hlines, hreductions, hprints⟩ :=
    parse_log_tokens 512 "a*b)+"
  rw [hlog] at htokens
  have hstart := hstarts [(.name "a", 0), (.operator .times, 1), (.name "b", 2)] .rightParen 3 [(.operator .plus, 4)]
  refine ⟨hstart (congrArg Scan.tokens hs), hrecords _ _ _ _ htokens.symm, hcount _ List.prefix_rfl, ?_, ?_, ?_⟩
  · rw [hlines, ← htokens]
    rfl
  · rw [hreductions, hlog]
    rfl
  · rw [hprints.tokens, ← htokens]
    rfl

end Calculator
