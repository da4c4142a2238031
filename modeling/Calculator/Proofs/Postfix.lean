import Calculator.Expr.Value
import Calculator.Proofs.Bits
import Calculator.Proofs.PostOrder
/-!
# Proofs.Postfix — evaluating a tree on a stack

A tree is evaluated by its nodes from the left, each after those below it, on a stack of values: a leaf puts its number
on top, an operation replaces its operands by its result.  What has no value stops the machine, and so it does before
the arguments of a call are looked at.

The machine ends with the value of the tree alone on the stack if there is one (`Expr.run_code_of_ok`).  Otherwise it
stops at the first node that fails by itself (`Expr.stopsAt_of_error`), and never for want of values.
-/
namespace Calculator

/-! ## The machine -/

/-- What is done for one node of a tree. -/
inductive Instruction where
  | push (x : Float)
  | operate (op : Operator)
  | negate
  | name (id : String)
  | call (id : String)
deriving Repr

/-- Why the machine stops before its end. -/
inductive Halt where
  | fault (e : Fault)
  | underflow
deriving Repr

namespace Instruction

/-- The values after an instruction, the last one first. -/
def execute : Instruction → List Float → Except Halt (List Float)
  | push x, values => .ok (x :: values)
  | operate .plus, y :: x :: values => .ok ((x + y) :: values)
  | operate .minus, y :: x :: values => .ok ((x - y) :: values)
  | operate .times, y :: x :: values => .ok ((x * y) :: values)
  | operate .divide, y :: x :: values =>
    -- the words of a zero without and with a sign
    if y.toBits = 0 ∨ y.toBits = 0x8000000000000000 then .error (.fault .divisionByZero) else .ok ((x / y) :: values)
  | negate, x :: values => .ok ((-x) :: values)
  | name id, _ => .error (.fault (.unsupported ("identifier `" ++ id ++ "`")))
  | call id, _ => .error (.fault (.unsupported ("call to `" ++ id ++ "`")))
  | operate _, _ => .error .underflow
  | negate, _ => .error .underflow

def run (code : List Instruction) (values : List Float) : Except Halt (List Float) :=
  code.foldlM (fun values i => i.execute values) values

section
variable {code code' : List Instruction} {i : Instruction} {values values' : List Float} {h : Halt}

theorem run_append_of_ok (hcode : run code values = .ok values') : run (code ++ code') values = run code' values' := by
  rw [run, List.foldlM_append]
  exact congrArg (· >>= run code') hcode

theorem run_cons_of_error (hi : i.execute values = .error h) : run (i :: code) values = .error h := by
  rw [run, List.foldlM_cons, hi]
  rfl

theorem run_singleton : run [i] values = i.execute values := by
  rw [run, List.foldlM_cons]
  exact bind_pure _

end

theorem execute_operate_of_ok {op : Operator} {x y v : Float} (h : op.apply x y = .ok v) (values : List Float) :
    (operate op).execute (y :: x :: values) = .ok (v :: values) := by
  cases op with
  | plus | minus | times =>
    cases h
    rfl
  | divide =>
    rw [Operator.apply] at h
    split at h
    · cases h
    · rename_i hy
      cases h
      exact if_neg (mt Binary64.beq_zero_iff.2 hy)

end Instruction

/-- Only a division by zero is refused. -/
theorem Operator.apply_eq_error {op : Operator} {x y : Float} {f : Fault} (h : op.apply x y = .error f) :
    op = .divide ∧ f = .divisionByZero ∧ (y.toBits = 0 ∨ y.toBits = 0x8000000000000000) := by
  cases op with
  | plus | minus | times => cases h
  | divide =>
    rw [apply] at h
    split at h
    · rename_i hy
      cases h
      exact ⟨rfl, rfl, Binary64.beq_zero_iff.1 hy⟩
    · cases h

/-! ## The code of a tree -/

def Branch.isArgument : Branch → Bool
  | argument _ => true
  | _ => false

/-- Nothing below a call is looked at. -/
def Node.isVisited (n : Node) : Bool := n.way.all (!·.isArgument)

theorem Node.filter_isVisited_map_under {b : Branch} (h : b.isArgument = false) (l : List Node) :
    (l.map (under b)).filter isVisited = (l.filter isVisited).map (under b) := by
  have hunder : isVisited ∘ under b = isVisited := by
    funext n
    show (!b.isArgument && n.isVisited) = n.isVisited
    rw [h]
    rfl
  rw [List.filter_map, hunder]

namespace Expr

def instruction : Expr → Instruction
  | number x => .push x
  | name id => .name id
  | binary op _ _ => .operate op
  | negate _ => .negate
  | call id _ => .call id

/-- The instructions of a tree, those of a node after those of its operands. -/
def code : Expr → List Instruction
  | number x => [.push x]
  | name id => [.name id]
  | binary op l r => l.code ++ r.code ++ [.operate op]
  | negate e => e.code ++ [.negate]
  | call id _ => [.call id]

end Expr

def Node.instruction (n : Node) : Instruction := n.expr.instruction

theorem Node.map_instruction_map_under (b : Branch) (l : List Node) :
    (l.map (under b)).map instruction = l.map instruction :=
  List.map_map

namespace Expr

/-- The nodes that are looked at, in post-order. -/
def visited (e : Expr) : List Node := e.postorder.filter Node.isVisited

theorem mem_visited {e : Expr} {n : Node} :
    n ∈ e.visited ↔ e.descendant? n.way = some n.expr ∧ ∀ i, .argument i ∉ n.way := by
  rw [visited, List.mem_filter, mem_postorder, Node.isVisited, List.all_eq_true]
  refine and_congr_right (fun _ => ⟨fun h i hi => ?_, fun h b hb => ?_⟩)
  · cases h _ hi
  · cases b with
    | argument i => exact absurd hb (h i)
    | left | right | operand => rfl

theorem inPostOrder_visited (e : Expr) : InPostOrder e.visited := e.inPostOrder.filter _

theorem visited_binary (op : Operator) (l r : Expr) : (binary op l r).visited
    = l.visited.map (Node.under .left) ++ r.visited.map (Node.under .right) ++ [⟨[], binary op l r⟩] := by
  rw [visited, postorder, List.filter_append, List.filter_append, Node.filter_isVisited_map_under rfl,
    Node.filter_isVisited_map_under rfl]
  rfl

theorem visited_negate (e : Expr) : (negate e).visited = e.visited.map (Node.under .operand) ++ [⟨[], negate e⟩] := by
  rw [visited, postorder, List.filter_append, Node.filter_isVisited_map_under rfl]
  rfl

theorem visited_call (id : String) (args : List Expr) : (call id args).visited = [⟨[], call id args⟩] := by
  have hargs : (postorderFrom 0 args).filter Node.isVisited = [] := by
    refine List.filter_eq_nil_iff.2 (fun n hn => ?_)
    obtain ⟨i, way, hway, -⟩ := mem_postorderFrom.1 hn
    rw [Node.isVisited, hway]
    exact Bool.false_ne_true
  rw [visited, postorder, List.filter_append, hargs]
  rfl

/-- **The code of a tree is one instruction for each node that is looked at, in post-order.** -/
theorem code_eq_map_visited (e : Expr) : e.code = e.visited.map Node.instruction := by
  induction e using code.induct with
  | case1 x => rfl
  | case2 id => rfl
  | case3 op l r ihl ihr =>
    rw [code, visited_binary, List.map_append, List.map_append, Node.map_instruction_map_under,
      Node.map_instruction_map_under, ihl, ihr]
    rfl
  | case4 e ih =>
    rw [code, visited_negate, List.map_append, Node.map_instruction_map_under, ih]
    rfl
  | case5 id args =>
    rw [visited_call]
    rfl

/-! ## What the machine ends with -/

/-- **A tree with a value leaves it on the stack, above what was there.** -/
theorem run_code_of_ok : ∀ {e : Expr} {v : Float} (values : List Float), e.eval = .ok v →
    Instruction.run e.code values = .ok (v :: values)
  | number x, _, _, h => by
    cases h
    rfl
  | binary op l r, v, values, h => by
    rw [eval] at h
    cases hl : l.eval with
    | error f =>
      rw [hl] at h
      cases h
    | ok x =>
      rw [hl] at h
      cases hr : r.eval with
      | error f =>
        rw [hr] at h
        cases h
      | ok y =>
        rw [hr] at h
        rw [code, List.append_assoc, Instruction.run_append_of_ok (run_code_of_ok values hl),
          Instruction.run_append_of_ok (run_code_of_ok _ hr), Instruction.run_singleton]
        exact Instruction.execute_operate_of_ok h values
  | negate e, v, values, h => by
    rw [eval] at h
    cases he : e.eval with
    | error f =>
      rw [he] at h
      cases h
    | ok x =>
      rw [he] at h
      cases h
      rw [code, Instruction.run_append_of_ok (run_code_of_ok values he), Instruction.run_singleton]
      rfl

/-- The node itself has no value, though all that is needed from below it is there. -/
inductive Fails : Expr → Fault → Prop
  | name (id : String) : Fails (.name id) (.unsupported ("identifier `" ++ id ++ "`"))
  | call (id : String) (args : List Expr) : Fails (.call id args) (.unsupported ("call to `" ++ id ++ "`"))
  | divide {l r : Expr} {x y : Float} : l.eval = .ok x → r.eval = .ok y →
      y.toBits = 0 ∨ y.toBits = 0x8000000000000000 → Fails (.binary .divide l r) .divisionByZero

/-- The machine runs until it comes to a node that fails by itself. -/
def StopsAt (e : Expr) (values : List Float) (f : Fault) : Prop :=
  ∃ before n after values', e.visited = before ++ n :: after ∧
    Instruction.run (before.map Node.instruction) values = .ok values' ∧
    n.instruction.execute values' = .error (.fault f) ∧ n.expr.Fails f

namespace StopsAt

variable {e e' : Expr} {values values' : List Float} {f : Fault} {b : Branch} {nodes' : List Node} (nodes : List Node)

theorem below (h : e'.StopsAt values' f) (hvisited : e.visited = nodes ++ e'.visited.map (Node.under b) ++ nodes')
    (hrun : Instruction.run (nodes.map Node.instruction) values = .ok values') : e.StopsAt values f := by
  obtain ⟨before, n, after, values'', hsplit, hbefore, hn, hfails⟩ := h
  refine ⟨nodes ++ before.map (Node.under b), n.under b, after.map (Node.under b) ++ nodes', values'', ?_, ?_, hn,
    hfails⟩
  · rw [hvisited, hsplit, List.map_append, List.map_cons, List.append_assoc, List.append_assoc, List.append_assoc]
    rfl
  · rw [List.map_append, Instruction.run_append_of_ok hrun, Node.map_instruction_map_under]
    exact hbefore

theorem root (hvisited : e.visited = nodes ++ [⟨[], e⟩])
    (hrun : Instruction.run (nodes.map Node.instruction) values = .ok values')
    (he : e.instruction.execute values' = .error (.fault f)) (hfails : e.Fails f) : e.StopsAt values f :=
  ⟨nodes, ⟨[], e⟩, [], values', hvisited, hrun, he, hfails⟩

theorem run_code (h : e.StopsAt values f) : Instruction.run e.code values = .error (.fault f) := by
  obtain ⟨before, n, after, values', hsplit, hrun, hn, -⟩ := h
  rw [code_eq_map_visited, hsplit, List.map_append, Instruction.run_append_of_ok hrun, List.map_cons]
  exact Instruction.run_cons_of_error hn

end StopsAt

/-- **A tree without a value stops the machine** with its fault, at a node that fails by itself. -/
theorem stopsAt_of_error : ∀ {e : Expr} {f : Fault} (values : List Float), e.eval = .error f → e.StopsAt values f
  | name id, _, values, h => by
    cases h
    exact .root [] rfl rfl rfl (.name id)
  | call id args, _, values, h => by
    cases h
    exact .root [] (visited_call id args) rfl rfl (.call id args)
  | negate e, f, values, h => by
    rw [eval] at h
    cases he : e.eval with
    | error g =>
      rw [he] at h
      cases h
      exact (stopsAt_of_error values he).below [] (visited_negate e) rfl
    | ok x =>
      rw [he] at h
      cases h
  | binary op l r, f, values, h => by
    rw [eval] at h
    cases hl : l.eval with
    | error g =>
      rw [hl] at h
      cases h
      exact (stopsAt_of_error values hl).below [] ((visited_binary op l r).trans (List.append_assoc _ _ _)) rfl
    | ok x =>
      have hleft := run_code_of_ok values hl
      rw [code_eq_map_visited, ← Node.map_instruction_map_under .left] at hleft
      rw [hl] at h
      cases hr : r.eval with
      | error g =>
        rw [hr] at h
        cases h
        exact (stopsAt_of_error _ hr).below _ (visited_binary op l r) hleft
      | ok y =>
        have hright := run_code_of_ok (x :: values) hr
        rw [code_eq_map_visited, ← Node.map_instruction_map_under .right] at hright
        rw [hr] at h
        obtain ⟨rfl, rfl, hy⟩ := Operator.apply_eq_error h
        have hstop : (Instruction.operate .divide).execute (y :: x :: values) = .error (.fault .divisionByZero) :=
          if_pos hy
        refine .root _ (visited_binary .divide l r) ?_ hstop (.divide hl hr hy)
        rw [List.map_append, Instruction.run_append_of_ok hleft]
        exact hright

end Expr

/-- **The value of a tree is what the stack machine leaves, and its fault the one at which the machine stops.**  The
code has one instruction for each node that is not below a call, in post-order.  The fault is that of the first node
that fails by itself: a name, a call, or a division of two values by a zero of either sign. -/
theorem eval_eq_run (e : Expr) :
    e.code = e.visited.map Node.instruction ∧ InPostOrder e.visited ∧
    (∀ n, n ∈ e.visited ↔ e.descendant? n.way = some n.expr ∧ ∀ i, .argument i ∉ n.way) ∧
    (∀ v, e.eval = .ok v ↔ Instruction.run e.code [] = .ok [v]) ∧
    ∀ f, (e.eval = .error f ↔ Instruction.run e.code [] = .error (.fault f)) ∧
      (e.eval = .error f ↔ e.StopsAt [] f) := by
  have hok : ∀ v, e.eval = .ok v → Instruction.run e.code [] = .ok [v] := fun v => e.run_code_of_ok []
  have herror : ∀ f, e.eval = .error f → e.StopsAt [] f := fun f => e.stopsAt_of_error []
  refine ⟨e.code_eq_map_visited, e.inPostOrder_visited, fun _ => Expr.mem_visited,
    fun v => ⟨hok v, fun hrun => ?_⟩, fun f => ?_⟩
  · cases he : e.eval with
    | ok w =>
      rw [hok w he] at hrun
      cases hrun
      rfl
    | error f =>
      rw [(herror f he).run_code] at hrun
      cases hrun
  · have hvalue : Instruction.run e.code [] = .error (.fault f) → e.eval = .error f := by
      intro hrun
      cases he : e.eval with
      | ok w =>
        rw [hok w he] at hrun
        cases hrun
      | error g =>
        rw [(herror g he).run_code] at hrun
        cases hrun
        rfl
    exact ⟨⟨fun he => (herror f he).run_code, hvalue⟩, herror f, fun h => hvalue h.run_code⟩

end Calculator
