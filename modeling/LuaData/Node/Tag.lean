import LuaData.Value.Document
import LuaData.Value.Key

/-
  Nodes of Lua syntax trees. A node is a map with its kind under the name `type`; the kinds that
  can occur in the tree of a literal are the tags.
-/

namespace LuaData

inductive Tag where
  | nilLiteral
  | booleanLiteral
  | numericLiteral
  | stringLiteral
  | identifier
  | unaryExpression
  | tableConstructor
  | tableKey
  | tableKeyString
  | tableValue
  | localStatement
  | returnStatement
  | chunk
  deriving DecidableEq

namespace Tag

def text : Tag → String
  | .nilLiteral => "NilLiteral"
  | .booleanLiteral => "BooleanLiteral"
  | .numericLiteral => "NumericLiteral"
  | .stringLiteral => "StringLiteral"
  | .identifier => "Identifier"
  | .unaryExpression => "UnaryExpression"
  | .tableConstructor => "TableConstructorExpression"
  | .tableKey => "TableKey"
  | .tableKeyString => "TableKeyString"
  | .tableValue => "TableValue"
  | .localStatement => "LocalStatement"
  | .returnStatement => "ReturnStatement"
  | .chunk => "Chunk"

def all : List Tag :=
  [.nilLiteral, .booleanLiteral, .numericLiteral, .stringLiteral, .identifier, .unaryExpression,
   .tableConstructor, .tableKey, .tableKeyString, .tableValue, .localStatement,
   .returnStatement, .chunk]

def ofText? (s : String) : Option Tag :=
  all.find? fun t => t.text = s

theorem ofText?_text (t : Tag) : ofText? t.text = some t := by
  cases t <;> decide +kernel

/-- Whether nodes of this kind stand for a single constant. -/
def isScalar : Tag → Bool
  | .nilLiteral | .booleanLiteral | .numericLiteral | .stringLiteral | .identifier
  | .unaryExpression => true
  | _ => false

end Tag

namespace Value

/-- The type tag of a node, known or not; what has none is no node. -/
def tagText? (v : Value) : Option String :=
  (v.get? "type").bind text?

def tag? (v : Value) : Option Tag :=
  v.tagText?.bind Tag.ofText?

/-- The line that a node starts on, if it carries its place. -/
def line? (table : List Value) (v : Value) : Option Value := do
  let loc ← (Document.deref table v).get? "loc"
  let start ← (Document.deref table loc).get? "start"
  let line ← (Document.deref table start).get? "line"
  match line.base with
  | .bool _ | .number (.int _) => some line
  | _ => none

end Value

end LuaData
