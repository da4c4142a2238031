import Calculator.Expr.Outline
import Calculator.Proofs.PostOrder
/-!
# Proofs.PreOrder — the rows of an outline are the nodes of the tree in pre-order

`Expr.preorder` lists the nodes of a tree from the left, each before all that is below it.  They are the nodes of the
post-order in another order (`preorder_perm`), so every node is there once; and one comes before another if it is above
it or further left (`inPreOrder`).  Each has its row, as deep as its way is long (`rows_eq_map_preorder`).
-/
namespace Calculator

/-- One way comes before another in pre-order: the other goes on where it ends, or is further right where they part. -/
def Leads (way way' : List Branch) : Prop :=
  (way <+: way' ∧ way ≠ way') ∨ (Precedes way way' ∧ ¬ way' <+: way)

section
variable {b c : Branch} {way way' : List Branch}

theorem leads_inward : Leads [] (b :: way) := .inl ⟨List.nil_prefix, fun h => nomatch h⟩

theorem leads_leftOf (h : b.index < c.index) : Leads (b :: way) (c :: way') := by
  refine .inr ⟨.leftOf way way' h, fun habove => ?_⟩
  obtain ⟨rfl, -⟩ := List.cons_prefix_cons.1 habove
  exact Nat.lt_irrefl _ h

theorem Leads.cons (h : Leads way way') (b : Branch) : Leads (b :: way) (b :: way') := by
  rcases h with ⟨habove, hne⟩ | ⟨hprecedes, habove⟩
  · exact .inl ⟨List.cons_prefix_cons.2 ⟨rfl, habove⟩, fun h => hne (List.cons.inj h).2⟩
  · exact .inr ⟨.cons b hprecedes, fun h => habove (List.cons_prefix_cons.1 h).2⟩

end

/-- Every node of the list comes before those after it. -/
def InPreOrder (l : List Node) : Prop := l.Pairwise (fun m n => Leads m.way n.way)

namespace InPreOrder

variable {l : List Node}

theorem map_under (h : InPreOrder l) (b : Branch) : InPreOrder (l.map (Node.under b)) :=
  List.pairwise_map.2 (h.imp (fun h => h.cons b))

/-- A root comes before what lies below it. -/
theorem cons_root (h : InPreOrder l) (hl : ∀ n ∈ l, ∃ b way, n.way = b :: way) (e : Expr) :
    InPreOrder (⟨[], e⟩ :: l) := by
  refine List.pairwise_cons.2 ⟨fun n hn => ?_, h⟩
  obtain ⟨b, way, hway⟩ := hl n hn
  rw [hway]
  exact leads_inward

end InPreOrder

namespace Expr

mutual

/-- The nodes from the left, each before those below it. -/
def preorder : Expr → List Node
  | e@(.number _) | e@(.name _) => [⟨[], e⟩]
  | e@(.binary _ l r) => ⟨[], e⟩ :: (l.preorder.map (Node.under .left) ++ r.preorder.map (Node.under .right))
  | e@(.negate x) => ⟨[], e⟩ :: x.preorder.map (Node.under .operand)
  | e@(.call _ args) => ⟨[], e⟩ :: preorderFrom 0 args

/-- The nodes of arguments, the first of which has this index. -/
def preorderFrom (index : Nat) : List Expr → List Node
  | [] => []
  | e :: es => e.preorder.map (Node.under (.argument index)) ++ preorderFrom (index + 1) es

end

mutual

/-- **The nodes are those of the post-order.** -/
theorem preorder_perm : ∀ e : Expr, e.preorder.Perm e.postorder
  | .number _ => .rfl
  | .name _ => .rfl
  | .binary _ l r =>
    (((preorder_perm l).map _).append ((preorder_perm r).map _)).cons _ |>.trans (List.perm_append_singleton _ _).symm
  | .negate e => ((preorder_perm e).map _).cons _ |>.trans (List.perm_append_singleton _ _).symm
  | .call _ args => (preorderFrom_perm 0 args).cons _ |>.trans (List.perm_append_singleton _ _).symm

theorem preorderFrom_perm : ∀ (index : Nat) (es : List Expr), (preorderFrom index es).Perm (postorderFrom index es)
  | _, [] => .rfl
  | index, e :: es => ((preorder_perm e).map _).append (preorderFrom_perm (index + 1) es)

end

theorem mem_preorder {e : Expr} {n : Node} : n ∈ e.preorder ↔ e.descendant? n.way = some n.expr :=
  (preorder_perm e).mem_iff.trans mem_postorder

theorem nodup_preorder (e : Expr) : (e.preorder.map Node.way).Nodup :=
  ((preorder_perm e).map _).nodup_iff.2 e.inPostOrder.nodup

theorem mem_preorderFrom {es : List Expr} {index : Nat} {n : Node} (h : n ∈ preorderFrom index es) :
    ∃ i way, n.way = .argument (index + i) :: way := by
  obtain ⟨i, way, hway, -⟩ := mem_postorderFrom.1 ((preorderFrom_perm index es).mem_iff.1 h)
  exact ⟨i, way, hway⟩

mutual

/-- **The nodes are in pre-order.** -/
theorem inPreOrder : ∀ e : Expr, InPreOrder e.preorder
  | .number _ => List.pairwise_singleton _ _
  | .name _ => List.pairwise_singleton _ _
  | .binary op l r => by
    have hparts : InPreOrder (l.preorder.map (Node.under .left) ++ r.preorder.map (Node.under .right)) := by
      refine List.pairwise_append.2 ⟨(inPreOrder l).map_under _, (inPreOrder r).map_under _, fun m hm n hn => ?_⟩
      obtain ⟨way, hm, -⟩ := Node.mem_map_under.1 hm
      obtain ⟨way', hn, -⟩ := Node.mem_map_under.1 hn
      rw [hm, hn]
      exact leads_leftOf Nat.zero_lt_one
    refine hparts.cons_root (fun m hm => ?_) _
    rcases List.mem_append.1 hm with hm | hm
    · exact Node.exists_cons_of_mem_map_under hm
    · exact Node.exists_cons_of_mem_map_under hm
  | .negate e => ((inPreOrder e).map_under _).cons_root (fun _ => Node.exists_cons_of_mem_map_under) _
  | .call id args => by
    refine (inPreOrder_preorderFrom 0 args).cons_root (fun m hm => ?_) _
    obtain ⟨i, way, hway⟩ := mem_preorderFrom hm
    exact ⟨_, way, hway⟩

theorem inPreOrder_preorderFrom : ∀ (index : Nat) (es : List Expr), InPreOrder (preorderFrom index es)
  | _, [] => .nil
  | index, e :: es => by
    refine List.pairwise_append.2 ⟨(inPreOrder e).map_under _, inPreOrder_preorderFrom (index + 1) es,
      fun m hm n hn => ?_⟩
    obtain ⟨way, hm, -⟩ := Node.mem_map_under.1 hm
    obtain ⟨i, way', hn⟩ := mem_preorderFrom hn
    have hindex : index < index + 1 + i := by omega
    rw [hm, hn]
    exact leads_leftOf hindex

end

end Expr

/-! ## Rows -/

/-- The row of a node in the outline of a tree whose root lies at a depth. -/
def Node.row (depth : Nat) (n : Node) : OutlineRow := ⟨depth + n.way.length, n.expr.label⟩

theorem Node.map_row_map_under (depth : Nat) (b : Branch) (l : List Node) :
    (l.map (under b)).map (row depth) = l.map (row (depth + 1)) := by
  rw [List.map_map]
  refine List.map_congr_left (fun n _ => ?_)
  simp only [Function.comp_apply, row, under, List.length_cons, Nat.add_assoc, Nat.add_comm 1]

namespace Expr

mutual

/-- **The rows are those of the nodes in pre-order.** -/
theorem rows_eq_map_preorder : ∀ (depth : Nat) (e : Expr), rows depth e = e.preorder.map (Node.row depth)
  | _, .number _ => rfl
  | _, .name _ => rfl
  | depth, .binary op l r => by
    rw [rows, preorder, List.map_cons, List.map_append, Node.map_row_map_under, Node.map_row_map_under,
      rows_eq_map_preorder, rows_eq_map_preorder]
    rfl
  | depth, .negate e => by
    rw [rows, preorder, List.map_cons, Node.map_row_map_under, rows_eq_map_preorder]
    rfl
  | depth, .call id args => by
    rw [rows, preorder, List.map_cons, rowsOfAll_eq_map_preorderFrom depth 0]
    rfl

theorem rowsOfAll_eq_map_preorderFrom : ∀ (depth index : Nat) (es : List Expr),
    rowsOfAll (depth + 1) es = (preorderFrom index es).map (Node.row depth)
  | _, _, [] => rfl
  | depth, index, e :: es => by
    rw [rowsOfAll, preorderFrom, List.map_append, Node.map_row_map_under, rows_eq_map_preorder,
      rowsOfAll_eq_map_preorderFrom depth (index + 1) es]

end

end Expr
end Calculator
