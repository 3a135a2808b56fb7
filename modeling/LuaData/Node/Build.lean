import LuaData.Node.Tag
import LuaData.Text.Quoted
import LuaData.Failure

/-
  Building the nodes of a syntax tree, with the entries in the order in which a parser gives
  them. `Node.expression` is the tree of the literal of a value.
-/

namespace LuaData

namespace Node

def node (tag : Tag) (entries : List (String × Value)) : Value :=
  .map ((.text "type", .text tag.text) :: entries.map fun e => (.text e.1, e.2))

def nil : Value :=
  node .nilLiteral [("value", .nil), ("raw", .text "nil")]

def boolean (v : Value) : Value :=
  node .booleanLiteral [("value", v), ("raw", .text (if v.truthy then "true" else "false"))]

/-- The operator `-` before an operand. -/
def neg (argument : Value) : Value :=
  node .unaryExpression [("operator", .text "-"), ("argument", argument)]

def numeral (v : Value) : Value :=
  node .numericLiteral [("value", v), ("raw", .text v.shown)]

/-- The node of a number. A negative one, also the negative zero, is the operator `-` before
the number without its sign. -/
def number (v : Value) : Except Failure Value :=
  match v.base with
  | .bool _ => .error (.literal .truthValue)
  | .number n =>
    match n, n.toDouble with
    | .int _, .finite .. | .float _, .finite .. =>
      .ok (if n.isNegative then neg (numeral (.number n.negate)) else numeral v)
    | .int _, _ => .error (.literal .tooLarge)
    | .float _, _ => .error (.literal .notFinite)
  | _ => .error (.literal .notNumber)

def string (v : Value) : Except Failure Value :=
  match v.text? with
  | some s =>
    .ok (node .stringLiteral [("value", v), ("raw", .text (quote .single s))])
  | none =>
    if v.base.typeName = "bytes" ∨ v.base.typeName = "bytearray" then .error (.literal .bytes)
    else .error (.literal .notText)

def identifier (name : Value) : Value :=
  node .identifier [("name", name)]

/-- The node of a leaf. -/
def literal (v : Value) : Except Failure Value :=
  match v.base with
  | .nil => .ok nil
  | .bool _ => .ok (boolean v)
  | .text _ => string v
  | _ => number v

/-- The field `[key] = value`. -/
def keyedField (k value : Value) : Value :=
  node .tableKey [("key", k), ("value", value)]

/-- The field `name = value`. -/
def namedField (name value : Value) : Value :=
  node .tableKeyString [("key", identifier name), ("value", value)]

/-- A field without a key. -/
def positionalField (value : Value) : Value :=
  node .tableValue [("value", value)]

def tableConstructor (fields : List Value) : Value :=
  node .tableConstructor [("fields", .list fields)]

def returnStatement (arguments : List Value) : Value :=
  node .returnStatement [("arguments", .list arguments)]

/-- The declaration of local names, which are the elements of `names`. -/
def localStatement? (names : Value) (init : List Value) : Except Failure Value :=
  match names.elements? with
  | some names =>
    .ok (node .localStatement
      [("variables", .list (names.map identifier)), ("init", .list init)])
  | none => .error .noElements

def chunk (body : List Value) : Value :=
  node .chunk [("body", .list body), ("comments", .list [])]

/-! ## Expressions -/

mutual

/-- The node of the literal of a value. -/
def expression : Value → Except Failure Value
  | .list items | .tuple items => do return tableConstructor (← fieldsOf items)
  | .map entries => do return tableConstructor (← entryFieldsOf entries)
  | .derived name v =>
    match v.base with
    | .list _ | .tuple _ | .map _ | .property .. => expression v
    | _ => literal (.derived name v)
  | .property .. => .error (.literal .propertyOutsideList)
  | .shared .. => .error .endless
  | v => literal v
termination_by v => 2 * sizeOf v

def fieldsOf : List Value → Except Failure (List Value)
  | [] => .ok []
  | v :: rest => do
    let f ← fieldOf v
    let fs ← fieldsOf rest
    return f :: fs
termination_by items => 2 * sizeOf items

/-- The field of an item of a list; a property brings its own key. -/
def fieldOf : Value → Except Failure Value
  | .property k v => do
    let k ← literal k
    let v ← expression v
    return keyedField k v
  | .derived name v =>
    match v.base with
    | .property .. => fieldOf v
    | _ => do return positionalField (← expression (.derived name v))
  | v => do return positionalField (← expression v)
termination_by v => 2 * sizeOf v + 1

def entryFieldsOf : List (Value × Value) → Except Failure (List Value)
  | [] => .ok []
  | (k, v) :: rest => do
    let f ← entryFieldOf k v
    let fs ← entryFieldsOf rest
    return f :: fs
termination_by entries => 2 * sizeOf entries

/-- The field of an entry of a map, named by its key where that has the shape of a name. -/
def entryFieldOf (k v : Value) : Except Failure Value :=
  if k.isNamed then do return namedField k (← expression v)
  else do
    let k ← string k
    let v ← expression v
    return keyedField k v
termination_by 2 * sizeOf v + 1

end

end Node

end LuaData
