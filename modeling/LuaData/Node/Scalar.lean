import LuaData.Node.Form
import LuaData.Node.Reference
import LuaData.Walk.Builder

/-
  Reading the nodes that stand for a constant. Nothing is emitted on the way. A negation counts
  as one level of nesting.
-/

namespace LuaData

namespace Node

/-! ## Failures -/

/-- The failure of a node, with its tag and its line. -/
def fault (table : List Value) (problem : NodeProblem) (v : Value) : Failure :=
  .node problem (Document.deref table v).tagText? (v.line? table)

/-- The failure of a node of no use here; what is no node at all is shown instead. -/
def misfit (table : List Value) (problem : NodeProblem) (v : Value) : Failure :=
  match (Document.deref table v).tagText? with
  | some _ => fault table problem v
  | none => fault table (.notNode (abridged 60 (v.shownIn table))) v

/-! ## Constants -/

/-- The constant that a node stands for. -/
def scalar (table : List Value) (limit : Value) (reach level : Nat) (v : Value) :
    Except Failure Value :=
  match _hu : follow table reach v with
  | .error e => .error e
  | .ok u =>
    match _h : scalarForm u with
    | .nil => .ok .nil
    | .constant c => .ok (Document.unfold table [] c)
    | .negation operand => do
      limit.checkLevel (level + 1)
      let c ← scalar table limit (reach - negationCost) (level + 1) operand
      match c.properNumber? with
      | some n => .ok (.number n.negate)
      | none => .error (fault table .badOperand v)
    | .operator op => .error (fault table (.badOperator (op.shownIn table)) v)
    | .other => .error (misfit table .notLiteral v)
termination_by (reach, v.weight, 0)
decreasing_by
  exact lex_of_reach (by decide) fun h0 => by
    rw [← eq_of_follow _hu h0]; exact weight_operand_lt _h

/-- How a scalar is read, without the proof that this ends. -/
theorem scalar_eq (table : List Value) (limit : Value) (reach level : Nat) (v : Value) :
    scalar table limit reach level v = (do
      match scalarForm (← follow table reach v) with
      | .nil => .ok .nil
      | .constant c => .ok (Document.unfold table [] c)
      | .negation operand => do
        limit.checkLevel (level + 1)
        let c ← scalar table limit (reach - negationCost) (level + 1) operand
        match c.properNumber? with
        | some n => .ok (.number n.negate)
        | none => .error (fault table .badOperand v)
      | .operator op => .error (fault table (.badOperator (op.shownIn table)) v)
      | .other => .error (misfit table .notLiteral v)) := by
  rw [scalar]
  split
  · rename_i hu; rw [hu]; rfl
  · rename_i u hu
    rw [hu]
    simp only [bind, Except.bind]
    split <;> rename_i h <;> rw [h]

end Node

end LuaData
