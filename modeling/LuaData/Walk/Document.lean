import LuaData.Value.Document
import LuaData.Walk.Builder

/-
  The walk over a document. A list may hold properties directly, the keys of a map are texts,
  and all other parts are leaves or containers of their exact type. A container that encloses
  itself is refused before its depth is looked at. Keys are checked before their values.
-/

namespace LuaData

namespace Walk

variable {α β : Type}

/-- Whether a value can be the key of a property: a text or a number, no truth value. -/
def isPropertyKey : Value → Bool
  | .text _ | .number _ => true
  | _ => false

def isMapKey : Value → Bool
  | .text _ => true
  | _ => false

/-- The value of a property. -/
def held : Value → Value
  | .property _ v => v
  | v => v

/-- Refuses a value. -/
def refuse {ρ : Type} (problem : ValueProblem) (v : Value) : Run (Event α) ρ :=
  .fail (.value problem v.typeName)

theorem sizeOf_take_le {γ : Type} [SizeOf γ] (n : Nat) (items : List γ) :
    sizeOf (items.take n) ≤ sizeOf items := by
  induction items generalizing n with
  | nil => simp
  | cons x rest ih =>
    cases n with
    | zero => simp; omega
    | succ n => simp only [List.take_succ_cons, List.cons.sizeOf_spec]; have := ih n; omega

theorem sizeOf_drawn_le {γ : Type} [SizeOf γ] (b : Builder α β) (items : List γ) :
    sizeOf (b.drawn items) ≤ sizeOf items := by
  unfold Builder.drawn
  split
  · exact sizeOf_take_le _ items
  · exact Nat.le_refl _

mutual

/-- Visits one value, `path` being the shared values and `depth` the number of all containers
around it. -/
def visit (b : Builder α β) (table : List Value) (limit : Value) (path : List Nat) (depth : Nat) :
    Value → Run (Event α) α
  | .list items | .tuple items => do
    .ofExcept (limit.checkDepth depth)
    .step (.startSequence items.length)
    let results ← visitItems b table limit path (depth + 1) (b.drawn items)
    .step (.endSequence (b.sequence results))
    return b.sequence results
  | .map entries => do
    .ofExcept (limit.checkDepth depth)
    .step (.startMapping entries.length)
    let results ← visitEntries b table limit path (depth + 1) (b.drawn entries)
    .step .endMapping
    return b.mapping results
  | .shared .property i => refuse .misplacedProperty (.shared .property i)
  | .shared kind i =>
    if hi : i ∈ path then refuse .recursive (.shared kind i)
    else if hlt : i < table.length then visit b table limit (i :: path) depth table[i]
    else refuse .notData (.shared kind i)
  | .property k v => refuse .misplacedProperty (.property k v)
  | .foreign name form => refuse .notData (.foreign name form)
  | .derived name v => refuse .notData (.derived name v)
  | leaf => do
    .step (.constant leaf)
    return b.constant leaf
termination_by v => (Document.offPath table path, 2 * sizeOf v)
decreasing_by
  · apply Prod.Lex.right
    have := sizeOf_drawn_le b items
    simp only [Value.list.sizeOf_spec]; omega
  · apply Prod.Lex.right
    have := sizeOf_drawn_le b items
    simp only [Value.tuple.sizeOf_spec]; omega
  · apply Prod.Lex.right
    have := sizeOf_drawn_le b entries
    simp only [Value.map.sizeOf_spec]; omega
  · exact Prod.Lex.left _ _ (Document.offPath_cons_lt hi hlt)

/-- Visits the items of a list or tuple. -/
def visitItems (b : Builder α β) (table : List Value) (limit : Value) (path : List Nat)
    (depth : Nat) : List Value → Run (Event α) (List α)
  | [] => return []
  | v :: rest => do
    let result ← visitItem b table limit path depth v
    let results ← visitItems b table limit path depth rest
    return result :: results
termination_by items => (Document.offPath table path, 2 * sizeOf items)

/-- Visits one item of a list or tuple, which may be a property. -/
def visitItem (b : Builder α β) (table : List Value) (limit : Value) (path : List Nat)
    (depth : Nat) : Value → Run (Event α) α
  | .property k v => do
    if !isPropertyKey k then refuse .propertyKey (Document.deref table k)
    let result ← visit b table limit path depth v
    .step (.property k result)
    return b.property k result
  | .shared .property i =>
    -- A property is no container: one that encloses itself does so through the value it holds.
    if hi : i ∈ path then refuse .recursive (held (Document.deref table (.shared .property i)))
    else if hlt : i < table.length then visitItem b table limit (i :: path) depth table[i]
    else refuse .notData (.shared .property i)
  | v => visit b table limit path depth v
termination_by v => (Document.offPath table path, 2 * sizeOf v + 1)
decreasing_by
  · apply Prod.Lex.right
    simp only [Value.property.sizeOf_spec]; omega
  · exact Prod.Lex.left _ _ (Document.offPath_cons_lt hi hlt)
  · exact Prod.Lex.right _ (Nat.lt_succ_self _)

/-- Visits the entries of a map. -/
def visitEntries (b : Builder α β) (table : List Value) (limit : Value) (path : List Nat)
    (depth : Nat) : List (Value × Value) → Run (Event α) (List (Value × α))
  | [] => return []
  | (k, v) :: rest => do
    if !isMapKey k then refuse .tableKey (Document.deref table k)
    let result ← visit b table limit path depth v
    .step (.item k result)
    let results ← visitEntries b table limit path depth rest
    return (k, result) :: results
termination_by entries => (Document.offPath table path, 2 * sizeOf entries)

end

end Walk

/-- Walks over a document and hands its parts to a builder. -/
def Document.walk {α β : Type} (d : Document) (b : Builder α β) (limit : Value) :
    Run (Event α) β := do
  let result ← Walk.visit b d.table limit [] 0 d.root
  .step (.root result)
  .ofExcept (b.finish result)

/-- A copy of a document with nothing shared, made while checking that it can be written. -/
def Document.copy (d : Document) : Except Failure Value :=
  (d.walk .values defaultLimit).outcome

end LuaData
