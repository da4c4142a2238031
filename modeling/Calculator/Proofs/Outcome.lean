import Calculator.Trace
/-!
# Proofs.Outcome — what a traced computation comes to

Three ways to speak about a `Traced` computation without running it.  `Ends` says what holds of its result, and which
faults it may end in otherwise; `Records` says what holds of every event on the way.  `CutTo` compares a computation
with the same one under a larger limit: they are alike, or the first ends because a tree is too deep, with what it
recorded until then.
-/
namespace Calculator
namespace Traced

@[simp] theorem log_pure {α : Type} (a : α) : (pure a : Traced α).log = [] := rfl

theorem outcome_bind {α β : Type} (x : Traced α) (f : α → Traced β) :
    (x >>= f).outcome = x.outcome.bind (fun a => (f a).outcome) := by
  obtain ⟨log, e | a⟩ := x <;> rfl

theorem outcome_bind_of_ok {α β : Type} {x : Traced α} {a : α} (h : x.outcome = .ok a) (f : α → Traced β) :
    (x >>= f).outcome = (f a).outcome := by
  rw [outcome_bind, h]; rfl

theorem outcome_bind_of_error {α β : Type} {x : Traced α} {e : Fault} (h : x.outcome = .error e) (f : α → Traced β) :
    (x >>= f).outcome = .error e := by
  rw [outcome_bind, h]; rfl

/-- What follows a computation that does not fail only has the earlier events put before its own. -/
theorem after_eq_bind {α : Type} (log : List Event) (x : Traced α) : after log x = ⟨log, .ok ()⟩ >>= fun _ => x := rfl

theorem ok_bind_eq_after {α β : Type} (log : List Event) (a : α) (f : α → Traced β) :
    (⟨log, .ok a⟩ : Traced α) >>= f = after log (f a) := rfl

theorem after_pure {α : Type} (log : List Event) (a : α) : after log (pure a) = ⟨log, .ok a⟩ := by
  rw [after, log_pure, List.append_nil]
  rfl

theorem after_mk {α : Type} (log log' : List Event) (r : Except Fault α) : after log ⟨log', r⟩ = ⟨log ++ log', r⟩ := rfl

theorem after_after {α : Type} (log log' : List Event) (x : Traced α) :
    after log (after log' x) = after (log ++ log') x := by
  simp only [after, List.append_assoc]

theorem after_bind {α β : Type} (log : List Event) (x : Traced α) (f : α → Traced β) :
    after log x >>= f = after log (x >>= f) := by
  rw [after_eq_bind, after_eq_bind, bind_assoc]

/-! ## How a computation ends -/

/-- The result has one property, or the fault has another. -/
def Ends {α : Type} (x : Traced α) (good : α → Prop) (bad : Fault → Prop) : Prop :=
  match x.outcome with
  | .ok a => good a
  | .error e => bad e

section
variable {α β : Type} {P P' : α → Prop} {Q : β → Prop} {E E' : Fault → Prop}

@[simp] theorem ends_pure {a : α} : (pure a : Traced α).Ends P E ↔ P a := Iff.rfl

theorem Ends.of_ok {x : Traced α} {a : α} (h : x.Ends P E) (hx : x.outcome = .ok a) : P a := by
  unfold Ends at h; rw [hx] at h; exact h

theorem Ends.of_error {x : Traced α} {e : Fault} (h : x.Ends P E) (hx : x.outcome = .error e) : E e := by
  unfold Ends at h; rw [hx] at h; exact h

theorem ends_iff {x : Traced α} :
    x.Ends P E ↔ (∀ a, x.outcome = .ok a → P a) ∧ ∀ e, x.outcome = .error e → E e := by
  refine ⟨fun h => ⟨fun a => h.of_ok, fun e => h.of_error⟩, fun ⟨h, h'⟩ => ?_⟩
  unfold Ends
  cases hx : x.outcome with
  | ok a => exact h a hx
  | error e => exact h' e hx

theorem Ends.mono {x : Traced α} (h : x.Ends P E) (hP : ∀ a, P a → P' a) (hE : ∀ e, E e → E' e) : x.Ends P' E' :=
  ends_iff.2 ⟨fun a ha => hP a (h.of_ok ha), fun e he => hE e (h.of_error he)⟩

theorem Ends.bind {x : Traced α} {f : α → Traced β} (h : x.Ends P E) (hf : ∀ a, P a → (f a).Ends Q E) :
    (x >>= f).Ends Q E := by
  cases hx : x.outcome with
  | ok a =>
    unfold Ends
    rw [outcome_bind_of_ok hx]
    exact hf a (h.of_ok hx)
  | error e =>
    unfold Ends
    rw [outcome_bind_of_error hx]
    exact h.of_error hx

theorem Ends.map {x : Traced α} {f : α → β} (h : x.Ends (fun a => Q (f a)) E) : (f <$> x).Ends Q E :=
  Ends.bind (f := fun a => pure (f a)) h (fun _ ha => ha)

theorem Ends.foldlM {σ : Type} {f : σ → β → Traced σ} {I : List β → σ → Prop} {E : Fault → Prop} :
    ∀ (l : List β), (∀ done b s, b ∈ l → I done s → (f s b).Ends (I (done ++ [b])) E) →
      ∀ done s, I done s → (l.foldlM f s).Ends (I (done ++ l)) E
  | [], _, done, s, hs => by simpa using hs
  | b :: l, h, done, s, hs => by
    rw [List.foldlM_cons]
    refine (h done b s (by simp) hs).bind (fun s' hs' => ?_)
    have := Ends.foldlM l (fun d x t hx => h d x t (by simp [hx])) (done ++ [b]) s' hs'
    simpa using this

end

/-! ## What is recorded -/

/-- Every event of the record has the property. -/
def Records {α : Type} (x : Traced α) (P : Event → Prop) : Prop := ∀ e ∈ x.log, P e

section
variable {α β : Type} {P : Event → Prop}

@[simp] theorem records_pure {a : α} : (pure a : Traced α).Records P := fun _ he => nomatch he
@[simp] theorem records_fail {e : Fault} : (fail e : Traced α).Records P := fun _ he => nomatch he

theorem Records.bind {x : Traced α} {f : α → Traced β} (h : x.Records P)
    (hf : ∀ a, x.outcome = .ok a → (f a).Records P) : (x >>= f).Records P := by
  obtain ⟨log, e | a⟩ := x
  · exact h
  · intro e he
    rcases List.mem_append.1 he with he | he
    · exact h e he
    · exact hf a rfl e he

end

/-- The computation with these events only on record. -/
def only {α : Type} (p : Event → Bool) (x : Traced α) : Traced α := ⟨x.log.filter p, x.outcome⟩

theorem only_bind {α β : Type} (p : Event → Bool) (x : Traced α) (f : α → Traced β) :
    (x >>= f).only p = x.only p >>= fun a => (f a).only p := by
  obtain ⟨log, e | a⟩ := x
  · rfl
  · simp only [only, ok_bind, List.filter_append]

theorem only_foldlM_congr {σ α β : Type} {p : Event → Bool} {f : σ → α → Traced σ} {g : σ → β → Traced σ} (q : α → β)
    (h : ∀ s a, (f s a).only p = (g s (q a)).only p) :
    ∀ (l : List α) (s : σ), (l.foldlM f s).only p = ((l.map q).foldlM g s).only p
  | [], _ => rfl
  | a :: l, s => by
    rw [List.foldlM_cons, List.map_cons, List.foldlM_cons, only_bind, only_bind, h]
    exact congrArg _ (funext (only_foldlM_congr q h l))

theorem only_eq_self {α : Type} {p : Event → Bool} {x : Traced α} (h : x.Records (fun e => p e = true)) :
    x.only p = x := by
  rw [only, List.filter_eq_self.2 h]

/-! ## The same computation under two limits -/

/-- The first computation is the second one, or it is cut short by its limit. -/
def CutTo {α : Type} (limit : Nat) (x y : Traced α) : Prop :=
  (x = y ∧ ∀ k, y.outcome ≠ .error (.tooDeep k)) ∨ (x.outcome = .error (.tooDeep limit) ∧ x.log <+: y.log)

section
variable {α β : Type} {limit : Nat}

theorem CutTo.refl {x : Traced α} (h : ∀ k, x.outcome ≠ .error (.tooDeep k)) : CutTo limit x x := .inl ⟨rfl, h⟩

theorem CutTo.pure (a : α) : CutTo limit (Pure.pure a : Traced α) (Pure.pure a) := CutTo.refl (fun _ h => by cases h)

theorem CutTo.fail {e : Fault} (h : ∀ k, e ≠ .tooDeep k) : CutTo limit (Traced.fail e : Traced α) (Traced.fail e) :=
  CutTo.refl (fun k hk => h k (by injection hk))

theorem CutTo.outcome_eq_or {x y : Traced α} (h : CutTo limit x y) :
    x.outcome = y.outcome ∨ x.outcome = .error (.tooDeep limit) :=
  h.imp (fun hxy => congrArg outcome hxy.1) (fun hx => hx.1)

theorem CutTo.log_prefix {x y : Traced α} (h : CutTo limit x y) : x.log <+: y.log := by
  rcases h with ⟨rfl, -⟩ | ⟨-, hlog⟩
  · exact List.prefix_rfl
  · exact hlog

theorem CutTo.eq_of_ne {x y : Traced α} (h : CutTo limit x y) (hx : ∀ k, x.outcome ≠ .error (.tooDeep k)) : x = y := by
  rcases h with ⟨hxy, -⟩ | ⟨hcut, -⟩
  · exact hxy
  · exact absurd hcut (hx limit)

theorem log_prefix_log_bind (x : Traced α) (f : α → Traced β) : x.log <+: (x >>= f).log := by
  obtain ⟨log, e | a⟩ := x
  · exact List.prefix_rfl
  · exact List.prefix_append _ _

theorem CutTo.bind {x y : Traced α} {f g : α → Traced β} (h : CutTo limit x y) (hf : ∀ a, CutTo limit (f a) (g a)) :
    CutTo limit (x >>= f) (y >>= g) := by
  rcases h with ⟨rfl, hx⟩ | ⟨hx, hlog⟩
  · obtain ⟨log, e | a⟩ := x
    · refine .inl ⟨rfl, fun k hk => hx k ?_⟩
      injection hk with hk
      rw [hk]
    · rcases hf a with ⟨hfg, hg⟩ | ⟨hfa, hlog⟩
      · refine .inl ⟨?_, hg⟩
        rw [ok_bind, ok_bind, hfg]
      · exact .inr ⟨hfa, (List.prefix_append_right_inj log).2 hlog⟩
  · refine .inr ⟨outcome_bind_of_error hx f, ?_⟩
    obtain ⟨log, e | a⟩ := x
    · exact hlog.trans (log_prefix_log_bind y g)
    · cases hx

theorem CutTo.foldlM {σ : Type} {f g : σ → β → Traced σ} (h : ∀ s b, CutTo limit (f s b) (g s b)) :
    ∀ (l : List β) (s : σ), CutTo limit (l.foldlM f s) (l.foldlM g s)
  | [], s => CutTo.pure s
  | b :: l, s => by
    rw [List.foldlM_cons, List.foldlM_cons]
    exact (h s b).bind (CutTo.foldlM h l)

end

end Traced
end Calculator
