import Calculator.Proofs.Acceptance
import Calculator.Proofs.TraceLines
import Mathlib.Data.List.Pairwise
/-!
# Proofs.PostOrder — the reductions are the nodes of the tree in post-order

A node of a tree is known by the way down to it.  `Expr.postorder` lists the nodes of a tree from the left, each after
all that is below it: every node once (`mem_postorder`), in the order of their ways (`inPostOrder`).

What a successful parse records besides its tokens can be told from the tree alone.  Each inner node is reduced once, in
this order.  The values that lie below its operands by then are the left operands of the binary operators that have it
on their right, so there are as many as its way turns right (`Node.base`).  The lines that are printed follow from the
nodes in the same way (`Node.line?`).
-/
namespace Calculator

/-! ## Ways -/

/-- How a node hangs below its parent. -/
inductive Branch where
  | left | right | operand
  | argument (index : Nat)
deriving DecidableEq, Repr

/-- The place among the children of one parent. -/
def Branch.index : Branch → Nat
  | left | operand => 0
  | right => 1
  | argument i => i

/-- One way comes before another in post-order: it goes on where the other ends, or is further left where they part. -/
inductive Precedes : List Branch → List Branch → Prop
  | onward (b way) : Precedes (b :: way) []
  | leftOf {b c} (way way') : b.index < c.index → Precedes (b :: way) (c :: way')
  | cons (b) {way way'} : Precedes way way' → Precedes (b :: way) (b :: way')

theorem Precedes.irrefl : ∀ {way : List Branch}, ¬ Precedes way way
  | _ :: _, .leftOf _ _ h => Nat.lt_irrefl _ h
  | _ :: _, .cons _ h => h.irrefl

/-! ## Nodes -/

/-- A node of a tree, with the way down to it. -/
structure Node where
  way : List Branch
  expr : Expr

namespace Node

/-- The same node in the tree of a parent. -/
def under (b : Branch) (n : Node) : Node := ⟨b :: n.way, n.expr⟩

/-- How many binary operators have the node on their right. -/
def base (n : Node) : Nat := n.way.count .right

/-- What is recorded when the node is built from its children.  A leaf has none. -/
def reduction? (n : Node) : Option Event :=
  match n.expr with
  | .number _ | .name _ => none
  | .binary op _ _ => some (.reduce (.binary op) (n.base + 2))
  | .negate _ => some (.reduce .unaryMinus (n.base + 1))
  | .call id args => some (.reduce (.call id n.base) (n.base + args.length))

/-- The line that is printed when the node is built from its children. -/
def line? (n : Node) : Option String :=
  match n.expr with
  | .number _ | .name _ => none
  | .binary op _ _ => some (reduceLine (.binary op) (n.base + 2))
  | .negate _ => some (reduceLine .unaryMinus (n.base + 1))
  | .call id args => some (reduceLine (.call id n.base) (n.base + args.length))

theorem map_line_reduction? (n : Node) : n.reduction?.map Event.line = n.line? := by
  obtain ⟨way, e⟩ := n
  cases e with
  | number | name => rfl
  | binary op => exact congrArg some (Event.line_reduce (.binary op) _)
  | negate => exact congrArg some (Event.line_reduce .unaryMinus _)
  | call id => exact congrArg some (Event.line_reduce (.call id _) _)

theorem mem_map_under {b : Branch} {l : List Node} {n : Node} :
    n ∈ l.map (under b) ↔ ∃ way, n.way = b :: way ∧ ⟨way, n.expr⟩ ∈ l := by
  rw [List.mem_map]
  constructor
  · rintro ⟨m, hm, rfl⟩
    exact ⟨m.way, rfl, hm⟩
  · rintro ⟨way, hway, hm⟩
    refine ⟨_, hm, ?_⟩
    rw [under, ← hway]

theorem exists_cons_of_mem_map_under {b : Branch} {l : List Node} {n : Node} (h : n ∈ l.map (under b)) :
    ∃ c way, n.way = c :: way := by
  obtain ⟨way, hway, -⟩ := mem_map_under.1 h
  exact ⟨b, way, hway⟩

end Node

/-- Every node of the list comes before those after it. -/
def InPostOrder (l : List Node) : Prop := l.Pairwise (fun m n => Precedes m.way n.way)

namespace InPostOrder

variable {l : List Node}

theorem map_under (h : InPostOrder l) (b : Branch) : InPostOrder (l.map (Node.under b)) :=
  List.pairwise_map.2 (h.imp (Precedes.cons b))

/-- A root comes after what lies below it. -/
theorem append_root (h : InPostOrder l) (hl : ∀ n ∈ l, ∃ b way, n.way = b :: way) (e : Expr) :
    InPostOrder (l ++ [⟨[], e⟩]) := by
  refine List.pairwise_append.2 ⟨h, List.pairwise_singleton _ _, fun m hm n hn => ?_⟩
  obtain ⟨b, way, hway⟩ := hl m hm
  rw [List.mem_singleton.1 hn, hway]
  exact .onward b way

theorem nodup (h : InPostOrder l) : (l.map Node.way).Nodup := by
  refine List.pairwise_map.2 (h.imp (fun h heq => ?_))
  rw [heq] at h
  exact h.irrefl

end InPostOrder

namespace Expr

def child? : Expr → Branch → Option Expr
  | .binary _ l _, .left => some l
  | .binary _ _ r, .right => some r
  | .negate e, .operand => some e
  | .call _ args, .argument i => args[i]?
  | _, _ => none

/-- The node to which a way leads. -/
def descendant? (e : Expr) : List Branch → Option Expr
  | [] => some e
  | b :: way => (e.child? b).bind (·.descendant? way)

mutual

/-- The nodes from the left, each after those below it. -/
def postorder : Expr → List Node
  | e@(.number _) | e@(.name _) => [⟨[], e⟩]
  | e@(.binary _ l r) => l.postorder.map (Node.under .left) ++ r.postorder.map (Node.under .right) ++ [⟨[], e⟩]
  | e@(.negate x) => x.postorder.map (Node.under .operand) ++ [⟨[], e⟩]
  | e@(.call _ args) => postorderFrom 0 args ++ [⟨[], e⟩]

/-- The nodes of arguments, the first of which has this index. -/
def postorderFrom (index : Nat) : List Expr → List Node
  | [] => []
  | e :: es => e.postorder.map (Node.under (.argument index)) ++ postorderFrom (index + 1) es

end

mutual

/-- **The nodes are those to which a way leads.** -/
theorem mem_postorder : ∀ {e : Expr} {n : Node}, n ∈ e.postorder ↔ e.descendant? n.way = some n.expr
  | .number x, ⟨way, y⟩ => by cases way <;> simp [postorder, descendant?, child?, eq_comm]
  | .name id, ⟨way, y⟩ => by cases way <;> simp [postorder, descendant?, child?, eq_comm]
  | .binary op l r, ⟨way, y⟩ => by
    rw [postorder, List.mem_append, List.mem_append, Node.mem_map_under, Node.mem_map_under]
    simp only [mem_postorder (e := l), mem_postorder (e := r)]
    rcases way with _ | ⟨b, way⟩
    · simp [descendant?, eq_comm]
    · cases b <;> simp [descendant?, child?]
  | .negate e, ⟨way, y⟩ => by
    rw [postorder, List.mem_append, Node.mem_map_under]
    simp only [mem_postorder (e := e)]
    rcases way with _ | ⟨b, way⟩
    · simp [descendant?, eq_comm]
    · cases b <;> simp [descendant?, child?]
  | .call id args, ⟨way, y⟩ => by
    rw [postorder, List.mem_append, mem_postorderFrom]
    simp only [Nat.zero_add]
    rcases way with _ | ⟨b, way⟩
    · simpa [descendant?] using eq_comm
    · cases b <;> simp [descendant?, child?, and_assoc]

theorem mem_postorderFrom : ∀ {es : List Expr} {index : Nat} {n : Node}, n ∈ postorderFrom index es ↔
    ∃ i way, n.way = .argument (index + i) :: way ∧ es[i]?.bind (·.descendant? way) = some n.expr
  | [], _, _ => by simp [postorderFrom]
  | e :: es, index, n => by
    rw [postorderFrom, List.mem_append, Node.mem_map_under, mem_postorderFrom]
    simp only [mem_postorder (e := e)]
    constructor
    · rintro (⟨way, hway, hn⟩ | ⟨i, way, hway, hn⟩)
      · exact ⟨0, way, hway, hn⟩
      · exact ⟨i + 1, way, by rw [hway, Nat.add_assoc, Nat.add_comm 1], hn⟩
    · rintro ⟨_ | i, way, hway, hn⟩
      · exact .inl ⟨way, hway, hn⟩
      · exact .inr ⟨i, way, by rw [hway, Nat.add_assoc, Nat.add_comm 1], hn⟩

end

mutual

/-- **The nodes are in post-order.** -/
theorem inPostOrder : ∀ e : Expr, InPostOrder e.postorder
  | .number _ => List.pairwise_singleton _ _
  | .name _ => List.pairwise_singleton _ _
  | .binary op l r => by
    have hparts : InPostOrder (l.postorder.map (Node.under .left) ++ r.postorder.map (Node.under .right)) := by
      refine List.pairwise_append.2 ⟨(inPostOrder l).map_under _, (inPostOrder r).map_under _, fun m hm n hn => ?_⟩
      obtain ⟨way, hm, -⟩ := Node.mem_map_under.1 hm
      obtain ⟨way', hn, -⟩ := Node.mem_map_under.1 hn
      rw [hm, hn]
      exact .leftOf _ _ Nat.zero_lt_one
    refine hparts.append_root (fun m hm => ?_) _
    rcases List.mem_append.1 hm with hm | hm
    · exact Node.exists_cons_of_mem_map_under hm
    · exact Node.exists_cons_of_mem_map_under hm
  | .negate e => ((inPostOrder e).map_under _).append_root (fun _ => Node.exists_cons_of_mem_map_under) _
  | .call id args => by
    refine (inPostOrder_postorderFrom 0 args).append_root (fun m hm => ?_) _
    obtain ⟨i, way, hway, -⟩ := mem_postorderFrom.1 hm
    exact ⟨_, way, hway⟩

theorem inPostOrder_postorderFrom : ∀ (index : Nat) (es : List Expr), InPostOrder (postorderFrom index es)
  | _, [] => .nil
  | index, e :: es => by
    refine List.pairwise_append.2 ⟨(inPostOrder e).map_under _, inPostOrder_postorderFrom (index + 1) es,
      fun m hm n hn => ?_⟩
    obtain ⟨way, hm, -⟩ := Node.mem_map_under.1 hm
    obtain ⟨i, way', hn, -⟩ := mem_postorderFrom.1 hn
    have hindex : index < index + 1 + i := by omega
    rw [hm, hn]
    exact .leftOf _ _ hindex

end

end Expr

/-! ## The record -/

/-- The same node in a tree to which a way leads. -/
def Node.within (way : List Branch) (n : Node) : Node := ⟨way ++ n.way, n.expr⟩

/-- The reductions of the nodes of a tree to which a way leads. -/
def Expr.reductionsWithin (way : List Branch) (e : Expr) : List Event :=
  (e.postorder.map (Node.within way)).filterMap Node.reduction?

theorem Node.filterMap_under (way : List Branch) (b : Branch) (e : Expr) :
    ((e.postorder.map (Node.under b)).map (Node.within way)).filterMap Node.reduction?
      = e.reductionsWithin (way ++ [b]) := by
  have hunder : Node.within way ∘ Node.under b = Node.within (way ++ [b]) := by
    funext n
    rw [Function.comp, within, within, under, List.append_assoc]
    rfl
  rw [Expr.reductionsWithin, List.map_map, hunder]

namespace Expr

variable (way : List Branch)

theorem reductionsWithin_binary (op : Operator) (l r : Expr) :
    (binary op l r).reductionsWithin way = l.reductionsWithin (way ++ [.left]) ++ r.reductionsWithin (way ++ [.right])
      ++ [.reduce (.binary op) (way.count .right + 2)] := by
  rw [reductionsWithin, postorder, List.map_append, List.map_append, List.filterMap_append, List.filterMap_append,
    Node.filterMap_under, Node.filterMap_under]
  simp [Node.within, Node.reduction?, Node.base]

theorem reductionsWithin_negate (e : Expr) :
    (negate e).reductionsWithin way
      = e.reductionsWithin (way ++ [.operand]) ++ [.reduce .unaryMinus (way.count .right + 1)] := by
  rw [reductionsWithin, postorder, List.map_append, List.filterMap_append, Node.filterMap_under]
  simp [Node.within, Node.reduction?, Node.base]

theorem reductionsWithin_emptyCall (id : String) :
    (call id []).reductionsWithin way = [.reduce (.call id (way.count .right)) (way.count .right)] := by
  simp [reductionsWithin, postorder, postorderFrom, Node.within, Node.reduction?, Node.base]

theorem reductionsWithin_call (id : String) (e : Expr) :
    (call id [e]).reductionsWithin way = e.reductionsWithin (way ++ [.argument 0])
      ++ [.reduce (.call id (way.count .right)) (way.count .right + 1)] := by
  rw [reductionsWithin, postorder, postorderFrom, postorderFrom, List.append_nil, List.map_append,
    List.filterMap_append, Node.filterMap_under]
  simp [Node.within, Node.reduction?, Node.base]

end Expr

theorem count_right_append {b : Branch} (h : b ≠ .right) (way : List Branch) :
    (way ++ [b]).count .right = way.count .right := by
  rw [List.count_append, List.count_singleton, if_neg (by simpa using h), Nat.add_zero]

/-- **The reductions that build the tree of a phrase are those of its nodes**, when its way has a turn to the right for
each value below. -/
theorem Derives.reductions_eq {c : Category} {ts : List Token} {e : Expr} (h : Derives c ts e) :
    ∀ way : List Branch, e.reductions (way.count .right) = e.reductionsWithin way := by
  have hbinary : ∀ {op l r}, (∀ way : List Branch, l.reductions (way.count .right) = l.reductionsWithin way) →
      (∀ way : List Branch, r.reductions (way.count .right) = r.reductionsWithin way) → ∀ way : List Branch,
        (Expr.binary op l r).reductions (way.count .right) = (Expr.binary op l r).reductionsWithin way := by
    intro op l r hl hr way
    have hright : (way ++ [Branch.right]).count .right = way.count .right + 1 := by
      rw [List.count_append, List.count_singleton_self]
    rw [Expr.reductions, Expr.reductionsWithin_binary, ← hl, ← hr, count_right_append (by decide), hright]
  induction h with
  | ofTerm _ ih | ofFactor _ ih | ofPrimary _ ih | parentheses _ ih => exact ih
  | addition _ _ _ ihl ihr | multiplication _ _ _ ihl ihr => exact hbinary ihl ihr
  | negation _ ih =>
    intro way
    rw [Expr.reductions, Expr.reductionsWithin_negate, ← ih, count_right_append (by decide)]
  | number x => exact fun _ => rfl
  | name id => exact fun _ => rfl
  | emptyCall id =>
    intro way
    rw [Expr.reductions, Expr.reductionsWithin_emptyCall]
  | call id _ ih =>
    intro way
    rw [Expr.reductions, Expr.reductionsWithin_call, ← ih, count_right_append (by decide)]

theorem Node.isToken_of_reduction? {n : Node} {event : Event} (h : n.reduction? = some event) :
    event.isToken = false := by
  unfold reduction? at h
  split at h <;> cases h <;> rfl

theorem Derives.only_parse {source : String} {maxDepth : Nat} {ts : List Token} {e : Expr}
    (hts : (Cursor.ofString source).collect.1 = .ok ts) (h : Derives .sum ts e) (hh : e.height ≤ max maxDepth 1) :
    (Expr.parse maxDepth source).only (fun event => !event.isToken)
      = ⟨e.postorder.filterMap Node.reduction? ++ [.parsed e.height], .ok e⟩ := by
  obtain ⟨hs, rfl⟩ := Cursor.collect_eq_ok_iff.1 hts
  have hread : (Cursor.ofString source).scan.words.foldlM (Reader.feed (max maxDepth 1)) Reader.start
      >>= Reader.close (max maxDepth 1) none = ⟨e.reductions 0 ++ [.parsed e.height], .ok e⟩ :=
    Reader.foldlM_feed_finish h hh
  have hreductions : e.reductions 0 = e.postorder.filterMap Node.reduction? := by
    have hroot : Node.within [] = id := rfl
    have hall := h.reductions_eq []
    rwa [Expr.reductionsWithin, hroot, List.map_id] at hall
  rw [Expr.parse_eq_readAll, Reader.only_readAll (fun _ _ => rfl), hs, hread, hreductions]
  refine Traced.only_eq_self (fun event hevent => ?_)
  rcases List.mem_append.1 hevent with hevent | hevent
  · obtain ⟨n, -, hn⟩ := List.mem_filterMap.1 hevent
    rw [Node.isToken_of_reduction? hn]
    rfl
  · rw [List.mem_singleton.1 hevent]
    rfl

/-- **Besides its tokens a parse that succeeds records one reduction for each inner node of its tree, in post-order, and
at last the height of the tree.**  A node is reduced above as many values as binary operators have it on their right.
What is printed besides the lines of the tokens is the lines of these events. -/
theorem parse_log_postorder (maxDepth : Nat) (source : String) (e : Expr)
    (h : (Expr.parse maxDepth source).outcome = .ok e) :
    let log := (Expr.parse maxDepth source).log
    let printed := e.postorder.filterMap Node.line? ++ ["DEBUG parsed tree of height " ++ toString e.height]
    log.filter (fun event => !event.isToken) = e.postorder.filterMap Node.reduction? ++ [.parsed e.height] ∧
    (log.filter (fun event => !event.isToken)).map Event.line = printed ∧
    (log.map Event.line).filter (fun line => !isTokenLine line) = printed ∧
    (∀ n, n ∈ e.postorder ↔ e.descendant? n.way = some n.expr) ∧
    InPostOrder e.postorder ∧ (e.postorder.map Node.way).Nodup := by
  intro log printed
  obtain ⟨ts, hts, hd, hh⟩ := Expr.derives_of_parse h
  have hlog : log.filter (fun event => !event.isToken) = e.postorder.filterMap Node.reduction? ++ [.parsed e.height] :=
    congrArg Traced.log (hd.only_parse hts hh)
  have hprinted : (log.filter (fun event => !event.isToken)).map Event.line = printed := by
    rw [hlog, List.map_append, List.map_filterMap]
    simp only [Node.map_line_reduction?]
    rfl
  have hlines : (log.map Event.line).filter (fun line => !isTokenLine line) = printed := by
    rw [Event.filter_map_line (fun event _ => congrArg not event.isTokenLine_line), hprinted]
  exact ⟨hlog, hprinted, hlines, fun _ => Expr.mem_postorder, e.inPostOrder, e.inPostOrder.nodup⟩

theorem parse_log_postorder_difference :
    (Expr.parse 2 "a-f()").outcome = .ok (.binary .minus (.name "a") (.call "f" [])) ∧
    (Expr.parse 2 "a-f()").log.filter (fun event => !event.isToken)
      = [.reduce (.call "f" 1) 1, .reduce (.binary .minus) 2, .parsed 2] ∧
    ((Expr.parse 2 "a-f()").log.map Event.line).filter (fun line => !isTokenLine line)
      = ["DEBUG reduce FunctionName \x7b id: \"f\", base: 1 \x7d with 1 values",
        "DEBUG reduce Binary(Minus) with 2 values", "DEBUG parsed tree of height 2"] := by
  have hd : Derives .sum [.name "a", .operator .minus, .name "f", .leftParen, .rightParen]
      (.binary .minus (.name "a") (.call "f" [])) :=
    .addition (.inr rfl) (.ofTerm (.ofFactor (.ofPrimary (.name "a")))) (.ofFactor (.ofPrimary (.emptyCall "f")))
  have hts : (Cursor.ofString "a-f()").collect.1
      = .ok [.name "a", .operator .minus, .name "f", .leftParen, .rightParen] := by
    rw [Cursor.collect_eq_ok_iff]
    iterate 5 rw [Cursor.scan_of_get_ok (by decide) rfl]
    rw [Cursor.scan_of_atEnd rfl]
    exact ⟨rfl, rfl⟩
  have h : (Expr.parse 2 "a-f()").outcome = .ok _ := Expr.parse_of_derives hts hd (by decide)
  obtain ⟨hlog, -, hlines, -⟩ := parse_log_postorder 2 "a-f()" _ h
  exact ⟨h, hlog, hlines.trans (by decide)⟩

end Calculator
