import LuaData.Number.Basic
import LuaData.Text.Name

/-
  The data that is written and read: leaves, lists, tuples, maps with their entries in order,
  and properties, which are table fields whose key cannot be written as a bare name.
  Values that are no data take part as well, because they have to be told apart: objects of
  another kind, values of a type derived from one of these, and references to a value that is
  shared or that encloses the reference.
-/

namespace LuaData

/-- The kinds of value that a reference can lead to. -/
inductive SharedKind where
  | list
  | tuple
  | map
  | property
  deriving DecidableEq

inductive Value where
  | nil
  | bool (b : Bool)
  | number (n : Number)
  | text (s : String)
  | list (items : List Value)
  | tuple (items : List Value)
  | map (entries : List (Value × Value))
  | property (key value : Value)
  /-- An object of which only the name of its type and its shown form are known. -/
  | foreign (typeName shown : String)
  /-- A value of the type `typeName`, which is derived from the type of `base`. -/
  | derived (typeName : String) (base : Value)
  /-- A reference to the shared value number `id`. -/
  | shared (kind : SharedKind) (id : Nat)

namespace Value

def int (n : Int) : Value := .number (.int n)

/-- The value without the derived types around it. -/
def base : Value → Value
  | .derived _ v => v.base
  | v => v

def typeName : Value → String
  | .nil => "NoneType"
  | .bool _ => "bool"
  | .number (.int _) => "int"
  | .number (.float _) => "float"
  | .text _ => "str"
  | .list _ => "list"
  | .tuple _ => "tuple"
  | .map _ => "dict"
  | .property .. => "PropertyEntry"
  | .foreign name _ => name
  | .derived name _ => name
  | .shared .list _ => "list"
  | .shared .tuple _ => "tuple"
  | .shared .map _ => "dict"
  | .shared .property _ => "PropertyEntry"

/-! ## Kinds

A leaf or a container is one of its exact type: a derived value is neither. -/

def isLeaf : Value → Bool
  | .nil | .bool _ | .number _ | .text _ => true
  | _ => false

def isContainer : Value → Bool
  | .list _ | .tuple _ | .map _ => true
  | .shared kind _ => kind ≠ .property
  | _ => false

/-- The text of a string, also of a derived one. -/
def text? (v : Value) : Option String :=
  match v.base with
  | .text s => some s
  | _ => none

/-- Whether a value is a text with the shape of a name. -/
def isNamed (v : Value) : Bool :=
  v.text?.any isName

/-- The number that a value counts as; truth values count as one and zero. -/
def number? (v : Value) : Option Number :=
  match v.base with
  | .number n => some n
  | .bool b => some (.int (if b then 1 else 0))
  | _ => none

/-- The number that a value is; a truth value is none. -/
def properNumber? (v : Value) : Option Number :=
  match v.base with
  | .number n => some n
  | _ => none

/-- Whether a value counts as true: all but nil, false, zero and what is empty. -/
def truthy (v : Value) : Bool :=
  match v.base with
  | .nil => false
  | .bool b => b
  | .number n => !n.isZero
  | .text s => s ≠ ""
  | .list items | .tuple items => !items.isEmpty
  | .map entries => !entries.isEmpty
  | _ => true

/-! ## Size -/

mutual

/-- The number of values in a value, itself included. -/
def weight : Value → Nat
  | .list items => 1 + weightAll items
  | .tuple items => 1 + weightAll items
  | .map entries => 1 + weightEntries entries
  | .property k v => 1 + k.weight + v.weight
  | .derived _ v => 1 + v.weight
  | _ => 1

def weightAll : List Value → Nat
  | [] => 0
  | v :: rest => v.weight + weightAll rest

def weightEntries : List (Value × Value) → Nat
  | [] => 0
  | (k, v) :: rest => k.weight + v.weight + weightEntries rest

end

theorem weight_pos (v : Value) : 0 < v.weight := by
  cases v <;> simp only [weight] <;> omega

theorem weight_base_le (v : Value) : v.base.weight ≤ v.weight := by
  fun_induction base v with
  | case1 _ v ih => simp only [weight]; omega
  | case2 v _ => exact Nat.le_refl _

theorem weight_le_of_mem {v : Value} {items : List Value} (h : v ∈ items) :
    v.weight ≤ weightAll items := by
  induction items with
  | nil => cases h
  | cons w rest ih =>
    simp only [weightAll]
    rcases List.mem_cons.1 h with rfl | h
    · omega
    · have := ih h; omega

theorem weight_le_of_mem_entries {k v : Value} {entries : List (Value × Value)}
    (h : (k, v) ∈ entries) : k.weight + v.weight ≤ weightEntries entries := by
  induction entries with
  | nil => cases h
  | cons e rest ih =>
    obtain ⟨l, w⟩ := e
    simp only [weightEntries]
    rcases List.mem_cons.1 h with h | h
    · obtain ⟨rfl, rfl⟩ := Prod.mk.inj h; omega
    · have := ih h; omega

end Value

end LuaData
