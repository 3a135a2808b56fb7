import LuaData.Node.Tag

/-
  What a node is to a reader, in each of the three places where nodes stand. A node that lacks
  an entry which its kind needs has no form. The parts of a form are as they stand in the node,
  references included, and lighter than the node.
-/

namespace LuaData

namespace Node

/-- A node that stands for a constant. -/
inductive ScalarForm where
  | nil
  | constant (c : Value)
  | negation (operand : Value)
  | operator (op : Value)
  | other

def scalarForm (v : Value) : ScalarForm :=
  match v.tag? with
  | some .nilLiteral => .nil
  | some .booleanLiteral | some .numericLiteral | some .stringLiteral =>
    match v.get? "value" with
    | some c => .constant c
    | none => .other
  | some .identifier =>
    match v.get? "name" with
    | some c => if c.text?.isSome then .constant c else .other
    | none => .other
  | some .unaryExpression =>
    match v.get? "operator", v.get? "argument" with
    | some op, some operand => if op.text? = some "-" then .negation operand else .operator op
    | some op, none => .operator op
    | none, _ => .other
  | _ => .other

/-- A node inside of a table constructor. -/
inductive FieldForm where
  | keyed (key value : Value)
  | positional (value : Value)
  | other

def fieldForm (v : Value) : FieldForm :=
  match v.tag? with
  | some .tableKey | some .tableKeyString =>
    match v.get? "key", v.get? "value" with
    | some k, some w => .keyed k w
    | _, _ => .other
  | some .tableValue =>
    match v.get? "value" with
    | some w => .positional w
    | none => .other
  | _ => .other

/-- A node that stands for a value. -/
inductive Form where
  | scalar
  | table (fields : Value)
  | statement (exprs : Value)
  | chunk (body : Option Value)
  | field
  /-- The entry for the type is there but cannot be compared. -/
  | unreadable
  | other

def form (table : List Value) (v : Value) : Form :=
  if (v.get? "type").any fun t => !(Document.unfold table [] t).isHashable then .unreadable
  else
    match v.tag? with
    | some .nilLiteral | some .booleanLiteral | some .numericLiteral | some .stringLiteral
    | some .identifier | some .unaryExpression => .scalar
    | some .tableConstructor =>
      match v.get? "fields" with
      | some fields => .table fields
      | none => .other
    | some .localStatement =>
      match v.get? "init" with
      | some exprs => .statement exprs
      | none => .other
    | some .returnStatement =>
      match v.get? "arguments" with
      | some exprs => .statement exprs
      | none => .other
    | some .chunk => .chunk (v.get? "body")
    | some .tableKey | some .tableKeyString | some .tableValue => .field
    | none => .other

/-! ## Weights -/

theorem weight_operand_lt {v w : Value} (h : scalarForm v = .negation w) :
    w.weight < v.weight := by
  unfold scalarForm at h
  split at h
  · cases h
  · split at h <;> cases h
  · split at h <;> cases h
  · split at h <;> cases h
  · split at h
    · split at h <;> cases h
    · cases h
  · split at h
    · rename_i hw
      split at h
      · cases h; exact Value.weight_get?_lt hw
      · cases h
    · cases h
    · cases h
  · cases h

theorem weight_keyed_lt {v k w : Value} (h : fieldForm v = .keyed k w) :
    w.weight < v.weight := by
  unfold fieldForm at h
  split at h
  · split at h
    · rename_i hw; cases h; exact Value.weight_get?_lt hw
    · cases h
  · split at h
    · rename_i hw; cases h; exact Value.weight_get?_lt hw
    · cases h
  · split at h <;> cases h
  · cases h

theorem weight_positional_lt {v w : Value} (h : fieldForm v = .positional w) :
    w.weight < v.weight := by
  unfold fieldForm at h
  split at h
  · split at h <;> cases h
  · split at h <;> cases h
  · split at h
    · rename_i hw; cases h; exact Value.weight_get?_lt hw
    · cases h
  · cases h

theorem weight_part_lt {table : List Value} {v w : Value}
    (h : form table v = .table w ∨ form table v = .statement w ∨ form table v = .chunk (some w)) :
    w.weight < v.weight := by
  unfold form at h
  split at h
  · simp at h
  · split at h
    all_goals try simp at h
    · split at h
      · rename_i hw; simp at h; subst h; exact Value.weight_get?_lt hw
      · simp at h
    · split at h
      · rename_i hw; simp at h; subst h; exact Value.weight_get?_lt hw
      · simp at h
    · split at h
      · rename_i hw; simp at h; subst h; exact Value.weight_get?_lt hw
      · simp at h
    · exact Value.weight_get?_lt h

end Node

end LuaData
