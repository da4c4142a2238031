import Calculator.Proofs.Feedback
import Calculator.Proofs.PreOrder
/-!
# Proofs.Indentation — an outline determines its tree

Names are not marked in an outline, so a line `Plus` may be an operator or a name.  What tells them apart is the depth
of the next line: it is the first child, one level further in, if the node has children, and no deeper than the node if
it has none.  So the rows of trees side by side, with what is less deep after them, determine the trees
(`rowsOfAll_append_inj`).  And the text determines the rows, since a label neither begins with a space nor contains a
newline (`flatMap_line_inj`).

Only infinity has no text of its own: it is written as the name `inf` is.
-/
namespace Calculator

open Binary64

/-! ## Labels -/

/-- A letter or a digit, then letters, digits, points and spaces. -/
inductive IsLabel : List Char → Prop
  | intro {c cs} : c.isAlphanum = true → (∀ d ∈ cs, d.isAlphanum = true ∨ d = '.' ∨ d = ' ') → IsLabel (c :: cs)

section
variable {cs : List Char}

theorem IsName.isLabel (h : IsName cs) : IsLabel cs := by
  obtain ⟨hc, hcs⟩ := h
  exact .intro (isAlphanum_of_isAlpha hc) (fun d hd => .inl (hcs d hd))

theorem IsNumeral.mem {c : Char} (h : IsNumeral cs) (hc : c ∈ cs) : c.isDigit = true ∨ c = '.' := by
  cases h with
  | whole _ hds => exact .inl (hds c hc)
  | pointed _ hds hfs =>
    rcases List.mem_append.1 hc with hc | hc
    · exact .inl (hds c hc)
    · exact (List.mem_cons.1 hc).symm.imp_left (hfs c)

theorem IsNumeral.isLabel (h : IsNumeral cs) : IsLabel cs := by
  have hmem := fun c => h.mem (c := c)
  obtain ⟨c, ds, rfl, hc⟩ := h.exists_cons
  exact .intro (isAlphanum_of_isDigit hc)
    (fun d hd => (hmem d (List.mem_cons_of_mem _ hd)).imp isAlphanum_of_isDigit .inl)

theorem IsLabel.mem {c : Char} (h : IsLabel cs) (hc : c ∈ cs) : c.isAlphanum = true ∨ c = '.' ∨ c = ' ' := by
  obtain ⟨hd, hds⟩ := h
  rcases List.mem_cons.1 hc with rfl | hc
  · exact .inl hd
  · exact hds c hc

theorem IsLabel.newline_not_mem (h : IsLabel cs) : '\n' ∉ cs := by
  intro hmem
  rcases h.mem hmem with h | h | h <;> cases h

theorem IsLabel.exists_cons (h : IsLabel cs) : ∃ c ds, cs = c :: ds ∧ c ≠ ' ' := by
  obtain ⟨hd, -⟩ := h
  refine ⟨_, _, rfl, ?_⟩
  rintro rfl
  cases hd

theorem IsLabel.head?_isSpace (h : IsLabel cs) (rest : List Char) : ∀ c ∈ (cs ++ rest).head?, isSpace c = false := by
  obtain ⟨hd, -⟩ := h
  intro c hc
  cases hc
  exact isSpace_eq_false_of_isAlphanum hd

end

theorem isName_inf : IsName "inf".toList := (.intro rfl (by simp) : IsName ['i', 'n', 'f'])

theorem isName_negate : IsName "Negate".toList := (.intro rfl (by simp) : IsName ['N', 'e', 'g', 'a', 't', 'e'])

/-- What marks an operator in an outline might as well be a name. -/
theorem Operator.isName_nodeName : ∀ op : Operator, IsName op.nodeName.toList
  | .plus => (.intro rfl (by simp) : IsName ['P', 'l', 'u', 's'])
  | .minus => (.intro rfl (by simp) : IsName ['M', 'i', 'n', 'u', 's'])
  | .times => (.intro rfl (by simp) : IsName ['T', 'i', 'm', 'e', 's'])
  | .divide => (.intro rfl (by simp) : IsName ['D', 'i', 'v', 'i', 'd', 'e'])

theorem Operator.nodeName_inj {op op' : Operator} (h : op.nodeName = op'.nodeName) : op = op' := by
  cases op <;> cases op' <;> simp [nodeName] at h ⊢

theorem Binary64.text_of_unsigned {x : Float} (hs : isNegative x = false) (hn : x.isNaN = false) :
    (magnitude x < infinity ∧ text x = (shortest (magnitude x)).plain) ∨ (magnitude x = infinity ∧ text x = "inf") := by
  rcases Nat.lt_or_eq_of_le (magnitude_le_infinity hn) with hlt | heq
  · exact .inl ⟨hlt, by rw [text_of_lt_infinity hlt, hs]; rfl⟩
  · exact .inr ⟨heq, by rw [text_of_infinity heq, hs]; rfl⟩

namespace Expr

/-- The tree in which every infinite number is the name that it is written as. -/
def nameInfinity : Expr → Expr
  | .number x => if magnitude x = infinity then .name "inf" else .number x
  | .name id => .name id
  | .binary op l r => .binary op l.nameInfinity r.nameInfinity
  | .negate e => .negate e.nameInfinity
  | .call id args => .call id (args.map nameInfinity)

def children : Expr → List Expr
  | .number _ | .name _ => []
  | .binary _ l r => [l, r]
  | .negate e => [e]
  | .call _ args => args

theorem mem_children_of_child? {e c : Expr} {b : Branch} (h : e.child? b = some c) : c ∈ e.children := by
  cases e with
  | number | name => cases b <;> cases h
  | binary | negate => cases b <;> cases h <;> simp [children]
  | call id args =>
    cases b with
    | argument i => exact List.mem_of_getElem? h
    | _ => cases h

theorem label_call (id : String) (args : List Expr) :
    (call id args).label.toList = ['C', 'a', 'l', 'l', ' '] ++ id.toList := by
  rw [label, String.toList_append]
  rfl

namespace IsWritable

variable {e e' : Expr}

theorem of_mem_children (h : e.IsWritable) : ∀ c ∈ e.children, c.IsWritable := by
  cases h with
  | number | name | emptyCall => exact fun c hc => nomatch hc
  | binary hl hr => simpa [children] using ⟨hl, hr⟩
  | negate he => simpa [children] using he
  | call _ he => simpa [children] using he

theorem isLabel (h : e.IsWritable) : IsLabel e.label.toList := by
  have hcall : ∀ {id : String} {args : List Expr}, IsName id.toList → IsLabel (Expr.call id args).label.toList :=
    fun hid => by
      rw [label_call]
      exact .intro rfl (List.forall_mem_append.2 ⟨by simp, fun d hd => hid.isLabel.mem hd⟩)
  cases h with
  | @number x hs hn =>
    rw [label]
    rcases text_of_unsigned hs hn with ⟨-, htext⟩ | ⟨-, htext⟩
    · exact htext ▸ (shortest (magnitude x)).isNumeral_plain.isLabel
    · exact htext ▸ isName_inf.isLabel
  | name hid => exact hid.isLabel
  | @binary op => exact op.isName_nodeName.isLabel
  | negate => exact isName_negate.isLabel
  | emptyCall hid => exact hcall hid
  | call hid => exact hcall hid

/-- The label of a leaf is a lexeme of what it stands for. -/
theorem spells_label (h : e.IsWritable) (hleaf : e.children = []) (hcall : ∀ id args, e ≠ .call id args) :
    ∃ t, Spells e.label.toList t ∧ Derives .primary [t] e.nameInfinity := by
  cases h with
  | @number x hs hn =>
    rw [label, nameInfinity]
    rcases text_of_unsigned hs hn with ⟨hlt, htext⟩ | ⟨heq, htext⟩
    · rw [htext, if_neg (Nat.ne_of_lt hlt)]
      have hspells := spells_shortest (Nat.le_of_lt hlt)
      rw [ofMagnitude_magnitude hs] at hspells
      exact ⟨_, hspells, .number x⟩
    · rw [htext, if_pos heq]
      exact ⟨_, isName_inf.spells, .name "inf"⟩
  | @name id hid =>
    rw [nameInfinity]
    exact ⟨_, hid.spells, .name id⟩
  | binary | negate => cases hleaf
  | emptyCall | call => exact absurd rfl (hcall _ _)

/-- Only the label of a call has a space in it. -/
theorem space_mem_label_iff (h : e.IsWritable) : ' ' ∈ e.label.toList ↔ ∃ id args, e = .call id args := by
  constructor
  · intro hspace
    by_contra hcall
    have hcall := fun id args he => hcall ⟨id, args, he⟩
    have hname : ∀ {id : String}, IsName id.toList → ' ' ∉ id.toList := fun hid hmem => by
      cases hid.spells.isSpace ' ' hmem
    cases h with
    | number =>
      obtain ⟨t, ht, -⟩ := IsWritable.spells_label (.number ‹_› ‹_›) rfl hcall
      cases ht.isSpace ' ' hspace
    | name hid => exact hname hid hspace
    | @binary op => exact hname op.isName_nodeName hspace
    | negate => exact hname isName_negate hspace
    | emptyCall | call => exact absurd rfl (hcall _ _)
  · rintro ⟨id, args, rfl⟩
    rw [label_call]
    simp

/-- **The label of a node and what its children stand for tell what the node stands for.** -/
theorem nameInfinity_eq (h : e.IsWritable) (h' : e'.IsWritable) (hlabel : e.label = e'.label)
    (hchildren : e.children.map nameInfinity = e'.children.map nameInfinity) : e.nameInfinity = e'.nameInfinity := by
  by_cases hspace : ' ' ∈ e.label.toList
  · obtain ⟨id, args, rfl⟩ := h.space_mem_label_iff.1 hspace
    obtain ⟨id', args', rfl⟩ := h'.space_mem_label_iff.1 (hlabel ▸ hspace)
    have hid := congrArg String.toList hlabel
    rw [label_call, label_call, List.append_cancel_left_eq, String.toList_inj] at hid
    rw [nameInfinity, nameInfinity, hid]
    exact congrArg _ hchildren
  · have hcall := fun id args he => hspace (h.space_mem_label_iff.2 ⟨id, args, he⟩)
    have hcall' := fun id args he => (hlabel ▸ hspace) (h'.space_mem_label_iff.2 ⟨id, args, he⟩)
    by_cases hleaf : e.children = []
    · have hleaf' : e'.children = [] := by
        rw [hleaf] at hchildren
        exact List.map_eq_nil_iff.1 hchildren.symm
      obtain ⟨t, ht, hd⟩ := h.spells_label hleaf hcall
      obtain ⟨t', ht', hd'⟩ := h'.spells_label hleaf' hcall'
      rw [hlabel] at ht
      obtain rfl := ht.unique ht'
      exact hd.unique hd'
    · cases h with
      | number | name => exact absurd rfl hleaf
      | emptyCall | call => exact absurd rfl (hcall _ _)
      | @binary op l r =>
        cases h' with
        | @binary op' l' r' =>
          obtain rfl := Operator.nodeName_inj hlabel
          simpa [nameInfinity, children] using hchildren
        | emptyCall | call => exact absurd rfl (hcall' _ _)
        | _ => simp [children] at hchildren
      | @negate e =>
        cases h' with
        | @negate e' => simpa [nameInfinity, children] using hchildren
        | emptyCall | call => exact absurd rfl (hcall' _ _)
        | _ => simp [children] at hchildren

/-- A number is written as the name that it is replaced with. -/
theorem label_nameInfinity (h : e.IsWritable) : e.nameInfinity.label = e.label := by
  cases h with
  | @number x hs hn =>
    rw [nameInfinity]
    split
    · rename_i heq
      rw [label, label, text_of_infinity heq, hs]
      rfl
    · rfl
  | _ => simp only [nameInfinity, label]

theorem descendant (h : e.IsWritable) {way : List Branch} {x : Expr} (hx : e.descendant? way = some x) :
    x.IsWritable := by
  induction way generalizing e with
  | nil =>
    cases hx
    exact h
  | cons b way ih =>
    obtain ⟨c, hc, hx⟩ := Option.bind_eq_some_iff.1 hx
    exact ih (h.of_mem_children c (mem_children_of_child? hc)) hx

end IsWritable

/-! ## Rows determine trees -/

/-- The first of the rows, if there is one, is not as deep. -/
def Shallower (depth : Nat) (rows : List OutlineRow) : Prop := ∀ row ∈ rows.head?, row.depth < depth

theorem rows_eq_cons (depth : Nat) (e : Expr) :
    e.rows depth = ⟨depth, e.label⟩ :: rowsOfAll (depth + 1) e.children := by
  cases e <;> simp [rows, rowsOfAll, children]

theorem rowsOfAll_append_cons (depth : Nat) (e : Expr) (es : List Expr) (rest : List OutlineRow) :
    rowsOfAll depth (e :: es) ++ rest
      = ⟨depth, e.label⟩ :: (rowsOfAll (depth + 1) e.children ++ (rowsOfAll depth es ++ rest)) := by
  rw [rowsOfAll, rows_eq_cons, List.cons_append, List.cons_append, List.append_assoc]

/-- Rows of trees side by side go on no deeper than their roots. -/
theorem Shallower.rowsOfAll_append {depth : Nat} {rest : List OutlineRow} (h : Shallower depth rest) (es : List Expr) :
    Shallower (depth + 1) (rowsOfAll depth es ++ rest) := by
  intro row hrow
  cases es with
  | nil => exact Nat.lt_succ_of_lt (h row hrow)
  | cons e es =>
    rw [rowsOfAll_append_cons] at hrow
    cases hrow
    exact Nat.lt_succ_self depth

/-- **Rows of trees side by side determine them**, and where they end: where it goes on less deep. -/
theorem rowsOfAll_append_inj {depth : Nat} {es es' : List Expr} {rest rest' : List OutlineRow}
    (hes : ∀ e ∈ es, e.IsWritable) (hes' : ∀ e ∈ es', e.IsWritable) (hrest : Shallower depth rest)
    (hrest' : Shallower depth rest') (h : rowsOfAll depth es ++ rest = rowsOfAll depth es' ++ rest') :
    es.map nameInfinity = es'.map nameInfinity ∧ rest = rest' := by
  induction hn : (rowsOfAll depth es ++ rest).length using Nat.strongRecOn generalizing depth es es' rest rest' with
  | ind n ih =>
    cases es with
    | nil =>
      cases es' with
      | nil => exact ⟨rfl, h⟩
      | cons e' es' =>
        rw [rowsOfAll_append_cons] at h
        exact absurd (hrest _ (congrArg List.head? h)) (Nat.lt_irrefl depth)
    | cons e es =>
      cases es' with
      | nil =>
        rw [rowsOfAll_append_cons] at h
        exact absurd (hrest' _ (congrArg List.head? h.symm)) (Nat.lt_irrefl depth)
      | cons e' es' =>
        rw [rowsOfAll_append_cons] at h hn
        rw [rowsOfAll_append_cons] at h
        obtain ⟨hrow, h⟩ := List.cons.inj h
        obtain ⟨he, hes⟩ := List.forall_mem_cons.1 hes
        obtain ⟨he', hes'⟩ := List.forall_mem_cons.1 hes'
        rw [List.length_cons, List.length_append] at hn
        -- the children are one level further in than what comes after them
        obtain ⟨hchildren, h⟩ := ih _ (by rw [List.length_append]; omega) he.of_mem_children he'.of_mem_children
          (hrest.rowsOfAll_append es) (hrest'.rowsOfAll_append es') h rfl
        obtain ⟨htrees, h⟩ := ih _ (by omega) hes hes' hrest hrest' h rfl
        rw [List.map_cons, List.map_cons, htrees, he.nameInfinity_eq he' (congrArg OutlineRow.label hrow) hchildren]
        exact ⟨rfl, h⟩

theorem rows_inj {e e' : Expr} (h : e.IsWritable) (h' : e'.IsWritable) (hrows : e.rows 0 = e'.rows 0) :
    e.nameInfinity = e'.nameInfinity := by
  have hnil : Shallower 0 [] := fun _ hrow => nomatch hrow
  have htrees := (rowsOfAll_append_inj (List.forall_mem_singleton.2 h) (List.forall_mem_singleton.2 h') hnil hnil
    (by simpa [rowsOfAll] using hrows)).1
  simpa using htrees

theorem IsWritable.rows_nameInfinity {e : Expr} (h : e.IsWritable) :
    ∀ depth, e.nameInfinity.rows depth = e.rows depth := by
  induction h with
  | @number x hs hn =>
    intro depth
    have hlabel := (IsWritable.number hs hn).label_nameInfinity
    have hleaf : (Expr.number x).nameInfinity.children = [] := by
      rw [nameInfinity]
      split <;> rfl
    rw [rows_eq_cons, rows_eq_cons, hlabel, hleaf]
    rfl
  | name | emptyCall => simp [nameInfinity]
  | binary _ _ ihl ihr => simp [nameInfinity, rows, label, ihl, ihr]
  | negate _ ih => simp [nameInfinity, rows, label, ih]
  | call _ _ ih => simp [nameInfinity, rows, rowsOfAll, label, ih]

theorem child?_nameInfinity (e : Expr) (b : Branch) : e.nameInfinity.child? b = (e.child? b).map nameInfinity := by
  cases e with
  | number x =>
    rw [nameInfinity]
    split <;> rfl
  | call id args => cases b <;> simp [nameInfinity, child?]
  | _ => cases b <;> simp [nameInfinity, child?]

theorem descendant?_nameInfinity (e : Expr) (way : List Branch) :
    e.nameInfinity.descendant? way = (e.descendant? way).map nameInfinity := by
  induction way generalizing e with
  | nil => rfl
  | cons b way ih =>
    rw [descendant?, descendant?, child?_nameInfinity]
    cases e.child? b with
    | none => rfl
    | some c => exact ih c

theorem exists_descendant? {e e' x : Expr} {way : List Branch} (h : e.nameInfinity = e'.nameInfinity)
    (hx : e.descendant? way = some x) : ∃ y, e'.descendant? way = some y ∧ y.nameInfinity = x.nameInfinity := by
  have hd := descendant?_nameInfinity e' way
  rw [← h, descendant?_nameInfinity, hx] at hd
  exact Option.map_eq_some_iff.1 hd.symm

theorem nameInfinity_eq_name {e : Expr} {id : String} (h : e.nameInfinity = .name id) :
    e = .name id ∨ id = "inf" ∧ ∃ x, magnitude x = infinity ∧ e = .number x := by
  cases e with
  | number x =>
    rw [nameInfinity] at h
    split at h
    · rename_i hx
      exact .inr ⟨(name.inj h).symm, x, hx, rfl⟩
    · cases h
  | name => exact .inl (by simpa [nameInfinity] using h)
  | _ => simp [nameInfinity] at h

theorem nameInfinity_eq_call {e : Expr} {id : String} {args : List Expr} (h : e.nameInfinity = .call id args) :
    ∃ args', e = .call id args' := by
  cases e with
  | number x =>
    rw [nameInfinity] at h
    split at h <;> cases h
  | call id' args' =>
    simp only [nameInfinity, call.injEq] at h
    exact ⟨args', by rw [h.1]⟩
  | _ => simp [nameInfinity] at h

end Expr

/-! ## The text determines its rows -/

theorem OutlineRow.toList_line (row : OutlineRow) :
    row.line.toList = List.replicate (indent * row.depth) ' ' ++ (row.label.toList ++ ['\n']) := by
  rw [line, String.toList_append, String.toList_append, String.toList_ofList, List.append_assoc]
  rfl

/-- What comes before the first of some character, and what comes after it. -/
theorem append_cons_inj {x : Char} {cs cs' rest rest' : List Char} (h : x ∉ cs) (h' : x ∉ cs')
    (heq : cs ++ x :: rest = cs' ++ x :: rest') : cs = cs' ∧ rest = rest' := by
  have hstop : (x != x) = false := bne_self_eq_false x
  have htake : ∀ {ds : List Char}, x ∉ ds → ds.takeWhile (· != x) = ds := fun hx =>
    List.takeWhile_eq_self_iff.2 (fun d hd => bne_iff_ne.2 (fun hdx => hx (hdx ▸ hd)))
  have hcs := congrArg (List.takeWhile (· != x)) heq
  rw [takeWhile_append_cons (p := (· != x)) hstop, takeWhile_append_cons (p := (· != x)) hstop, htake h,
    htake h'] at hcs
  rw [hcs] at heq
  exact ⟨hcs, (List.cons.inj (List.append_cancel_left heq)).2⟩

theorem OutlineRow.line_append_inj {row row' : OutlineRow} (h : IsLabel row.label.toList)
    (h' : IsLabel row'.label.toList) {rest rest' : List Char}
    (hline : row.line.toList ++ rest = row'.line.toList ++ rest') : row = row' ∧ rest = rest' := by
  have hgap : ∀ n : Nat, ∀ c ∈ List.replicate n ' ', c = ' ' := fun n c hc => List.eq_of_mem_replicate hc
  simp only [toList_line, List.append_assoc, List.singleton_append] at hline
  obtain ⟨hdrop, htake⟩ := dropWhile_gap (hgap (indent * row.depth)) (h.head?_isSpace ('\n' :: rest))
  rw [hline] at hdrop htake
  obtain ⟨hdrop', htake'⟩ := dropWhile_gap (hgap (indent * row'.depth)) (h'.head?_isSpace ('\n' :: rest'))
  have hdepth := congrArg List.length (htake.symm.trans htake')
  rw [List.length_replicate, List.length_replicate] at hdepth
  obtain ⟨hlabel, hrest⟩ := append_cons_inj h.newline_not_mem h'.newline_not_mem (hdrop.symm.trans hdrop')
  refine ⟨?_, hrest⟩
  obtain ⟨depth, label⟩ := row
  obtain ⟨depth', label'⟩ := row'
  rw [OutlineRow.mk.injEq, ← String.toList_inj]
  exact ⟨Nat.eq_of_mul_eq_mul_left (by decide) hdepth, hlabel⟩

/-- **Rows can be told from their lines.** -/
theorem flatMap_line_inj : ∀ {rows rows' : List OutlineRow}, (∀ row ∈ rows, IsLabel row.label.toList) →
    (∀ row ∈ rows', IsLabel row.label.toList) →
    rows.flatMap (fun row => row.line.toList) = rows'.flatMap (fun row => row.line.toList) → rows = rows'
  | [], [], _, _, _ => rfl
  | [], row :: rows, _, _, h => by simp [OutlineRow.toList_line] at h
  | row :: rows, [], _, _, h => by simp [OutlineRow.toList_line] at h
  | row :: rows, row' :: rows', hl, hl', h => by
    rw [List.forall_mem_cons] at hl hl'
    rw [List.flatMap_cons, List.flatMap_cons] at h
    obtain ⟨hrow, hrows⟩ := OutlineRow.line_append_inj hl.1 hl'.1 h
    rw [hrow, flatMap_line_inj hl.2 hl'.2 hrows]

namespace Expr

theorem toList_outline (e : Expr) : e.outline.toList = (e.rows 0).flatMap (fun row => row.line.toList) := by
  rw [outline, String.toList_join, List.flatMap_map]

theorem IsWritable.isLabel_of_mem_rows {e : Expr} (h : e.IsWritable) {depth : Nat} :
    ∀ row ∈ e.rows depth, IsLabel row.label.toList := by
  intro row hrow
  rw [rows_eq_map_preorder] at hrow
  obtain ⟨n, hn, rfl⟩ := List.mem_map.1 hrow
  exact (h.descendant (mem_preorder.1 hn)).isLabel

theorem IsWritable.outline_eq_outline_iff {e e' : Expr} (h : e.IsWritable) (h' : e'.IsWritable) :
    e.outline = e'.outline ↔ e.nameInfinity = e'.nameInfinity := by
  rw [← String.toList_inj, toList_outline, toList_outline]
  constructor
  · intro heq
    exact rows_inj h h' (flatMap_line_inj h.isLabel_of_mem_rows h'.isLabel_of_mem_rows heq)
  · intro heq
    rw [← h.rows_nameInfinity, heq, h'.rows_nameInfinity]

/-- Some source is read as the tree. -/
def IsRead (e : Expr) : Prop := ∃ maxDepth source, (Expr.parse maxDepth source).outcome = .ok e

theorem IsRead.isWritable {e : Expr} (h : e.IsRead) : e.IsWritable := by
  obtain ⟨maxDepth, source, h⟩ := h
  exact (isWritable_of_parse h).1

theorem IsWritable.isRead {e : Expr} (h : e.IsWritable) : e.IsRead :=
  ⟨e.height, _, h.parse_rendering (Nat.le_max_left _ _)⟩

end Expr

/-- **An outline determines its tree, but for infinite numbers, which read as the name `inf`.**  Where one tree has a
name or a call, every tree with the same outline has that name or call, never an operator.  The outline has one line for
each node, in pre-order, with four spaces for each level above the node; no label begins with a space or has a newline
in it. -/
theorem outline_determines :
    (∀ e e' : Expr, e.IsRead → e'.IsRead →
      (e.outline = e'.outline ↔ e.nameInfinity = e'.nameInfinity) ∧
      (e.outline = e'.outline → ∀ way id,
        (e.descendant? way = some (.name id) → e'.descendant? way = some (.name id) ∨
          id = "inf" ∧ ∃ x, magnitude x = infinity ∧ e'.descendant? way = some (.number x)) ∧
        ∀ args, e.descendant? way = some (.call id args) → ∃ args', e'.descendant? way = some (.call id args'))) ∧
    ∀ e : Expr, e.IsRead →
      e.outline.toList = e.preorder.flatMap (fun n =>
        List.replicate (4 * n.way.length) ' ' ++ (n.expr.label.toList ++ ['\n'])) ∧
      (∀ n ∈ e.preorder, '\n' ∉ n.expr.label.toList ∧ ∃ c cs, n.expr.label.toList = c :: cs ∧ c ≠ ' ') ∧
      (∀ n, n ∈ e.preorder ↔ e.descendant? n.way = some n.expr) ∧ (e.preorder.map Node.way).Nodup ∧
      InPreOrder e.preorder := by
  refine ⟨fun e e' h h' => ?_, fun e h => ⟨?_, fun n hn => ?_, fun n => Expr.mem_preorder, e.nodup_preorder,
    e.inPreOrder⟩⟩
  · have hiff := h.isWritable.outline_eq_outline_iff h'.isWritable
    refine ⟨hiff, fun heq way id => ⟨fun hname => ?_, fun args hcall => ?_⟩⟩
    · obtain ⟨y, hy, hyname⟩ := Expr.exists_descendant? (hiff.1 heq) hname
      rw [Expr.nameInfinity] at hyname
      rcases Expr.nameInfinity_eq_name hyname with rfl | ⟨hid, x, hx, rfl⟩
      · exact .inl hy
      · exact .inr ⟨hid, x, hx, hy⟩
    · obtain ⟨y, hy, hycall⟩ := Expr.exists_descendant? (hiff.1 heq) hcall
      rw [Expr.nameInfinity] at hycall
      obtain ⟨args', rfl⟩ := Expr.nameInfinity_eq_call hycall
      exact ⟨args', hy⟩
  · rw [Expr.toList_outline, Expr.rows_eq_map_preorder, List.flatMap_map]
    refine List.flatMap_congr (fun n _ => ?_)
    rw [OutlineRow.toList_line, Node.row, Nat.zero_add]
    rfl
  · have hlabel := (h.isWritable.descendant (Expr.mem_preorder.1 hn)).isLabel
    exact ⟨hlabel.newline_not_mem, hlabel.exists_cons⟩

/-- Infinity and the name `inf` have one outline. -/
theorem outline_determines_infinity :
    let x := ofMagnitude infinity
    Expr.IsRead (.number x) ∧ Expr.IsRead (.name "inf") ∧ (Expr.number x).outline = (Expr.name "inf").outline ∧
      '\n' ∉ (Expr.name "inf").label.toList := by
  intro x
  have hx : magnitude x = infinity := magnitude_ofMagnitude (Nat.le_refl _)
  have hnumber : Expr.IsRead (.number x) := Expr.IsWritable.isRead
    (.number (isNegative_ofMagnitude (Nat.le_refl _)) (isNaN_ofMagnitude (Nat.le_refl _)))
  have hname : Expr.IsRead (.name "inf") := Expr.IsWritable.isRead (.name isName_inf)
  refine ⟨hnumber, hname, (outline_determines.1 _ _ hnumber hname).1.2 ?_,
    ((outline_determines.2 _ hname).2.1 ⟨[], .name "inf"⟩ ((outline_determines.2 _ hname).2.2.1 _ |>.2 rfl)).1⟩
  rw [Expr.nameInfinity, if_pos hx, Expr.nameInfinity]

end Calculator
