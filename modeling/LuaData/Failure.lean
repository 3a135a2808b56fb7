import LuaData.Value.Show

/-
  The ways in which writing, reading and building can fail, and the notes about what was passed
  over on the way. Both are causes; `Failure.message` and `Note.message` are the only wording.
-/

namespace LuaData

/-- What is wrong with a node of a syntax tree. -/
inductive NodeProblem where
  | notNode (shown : String)
  | notLiteral
  | notReducible
  | notField
  | fieldOutsideTable
  | emptyChunk
  | badKey
  | badOperand
  | badOperator (shown : String)
  deriving DecidableEq

/-- What is wrong with a value that is to be written. -/
inductive ValueProblem where
  | notData
  | misplacedProperty
  | recursive
  | propertyKey
  | tableKey
  deriving DecidableEq

/-- What is wrong with a value that is to become a literal node. -/
inductive LiteralProblem where
  | truthValue
  | notFinite
  | tooLarge
  | notNumber
  | notText
  | bytes
  | propertyOutsideList
  deriving DecidableEq

inductive Failure where
  /-- A node that cannot be read, with its type tag and the line it starts on. -/
  | node (problem : NodeProblem) (tag : Option String) (line : Option Value)
  /-- A value that cannot be written, with the name of its type. -/
  | value (problem : ValueProblem) (typeName : String)
  | tooDeep (limit : Value)
  | literal (problem : LiteralProblem)
  | unknownOption (shown : String)
  | negativeSpaces (n : Int)
  | notOptions
  | emptyIndent
  | brokenLine
  | limitNotNumber
  | tagNotHashable
  | noElements
  | noFirst
  | endless

namespace NodeProblem

/-- The text for a node with the tag `tag`. -/
def message (tag : String) : NodeProblem → String
  | .notNode shown => "Expected a node, got: " ++ shown
  | .notLiteral => "Not a literal: " ++ tag
  | .notReducible => "Don't know how to reduce: " ++ tag
  | .notField => "Not a table field: " ++ tag
  | .fieldOutsideTable => tag ++ " outside of a table constructor"
  | .emptyChunk => "Empty chunk"
  | .badKey => "Table keys should be strings or numbers"
  | .badOperand => "Only numbers can be negated"
  | .badOperator shown => "Unsupported unary operator: " ++ shown

end NodeProblem

/-- The text for a value of the type `typeName`. -/
def ValueProblem.message (typeName : String) : ValueProblem → String
  | .notData => "Object of type " ++ typeName ++ " cannot be converted to a lua literal"
  | .misplacedProperty => "PropertyEntry can only be used as an element of a list"
  | .recursive => "Recursive value found"
  | .propertyKey => "Property keys should be strings or numbers, not " ++ typeName
  | .tableKey => "Table keys should be strings, not " ++ typeName

def LiteralProblem.message : LiteralProblem → String
  | .truthValue => "A truth value is no number"
  | .notFinite => "The number is not finite"
  | .tooLarge => "The number is too large"
  | .notNumber => "Not a number"
  | .notText => "Not a text"
  | .bytes => "Bytes are no text"
  | .propertyOutsideList => "A property outside of a list"

namespace Failure

/-- A message about a place in a source text. -/
def located (line : Option Value) (message : String) : String :=
  match line with
  | some n => "line " ++ n.plain ++ ": " ++ message
  | none => message

def depthMessage (limit : Value) : String :=
  "Maximum nesting depth exceeded (" ++ limit.plain ++ ")"

def message : Failure → String
  | .node problem tag line => located line (problem.message (tag.getD ""))
  | .value problem typeName => problem.message typeName
  | .tooDeep limit => depthMessage limit
  | .literal problem => problem.message
  | .unknownOption shown => "Unknown format option: " ++ shown
  | .negativeSpaces n => "spaces should be non negative: " ++ toString n
  | .notOptions => "Not a set of options"
  | .emptyIndent => "Use a compact printer to print without indentation"
  | .brokenLine => "A compact document has no line breaks"
  | .limitNotNumber => "The nesting limit is no number"
  | .tagNotHashable => "The type of a node cannot be compared"
  | .noElements => "Not a list of nodes"
  | .noFirst => "No first element"
  | .endless => "The value encloses itself"

end Failure

/-- What was passed over without failing. -/
inductive Note where
  | ignoredOption (name shown : String)
  | keysNotNames
  | skippedNil (count : Nat)
  deriving DecidableEq

def Note.message : Note → String
  | .ignoredOption name shown => "Ignoring " ++ name ++ "=" ++ shown
  | .keysNotNames => "Table has keys that aren't names, reading it as a list"
  | .skippedNil count => "Skipped " ++ toString count ++ " nil field(s)"

end LuaData
