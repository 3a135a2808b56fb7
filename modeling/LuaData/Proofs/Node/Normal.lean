import LuaData.Proofs.Document.Acceptance
import LuaData.Proofs.Node.Shape

/-
  What data comes back as when its expression is read. Texts inside of tables are escaped, nil
  is not in a table, and a table whose fields all have names comes back as a map; nothing tells
  an empty map from an empty list, or a map with other keys from a list of properties
  (`Value.normal`).
-/

namespace LuaData

namespace Value

/-- The key and the value of a property. -/
def keyed? : Value → Option (Value × Value)
  | .property k v => some (k, v)
  | _ => none

/-- Whether a value is a property whose key has the shape of a name. -/
def isNamedProperty : Value → Bool
  | .property k _ => k.isNamed
  | _ => false

mutual

/-- What data inside of a table comes back as. -/
def normal : Value → Value
  | .text s => .text (escapeText s)
  | .list items =>
    if !items.isEmpty && items.all isNamedProperty then
      .map (mergeEntries ((normalAll items).filterMap keyed?))
    else .list (normalAll items)
  | .tuple items =>
    if !items.isEmpty && items.all isNamedProperty then
      .map (mergeEntries ((normalAll items).filterMap keyed?))
    else .list (normalAll items)
  | .map entries =>
    if entries.isEmpty then .list []
    else if entries.all fun e => e.1.isNamed then .map (normalEntries entries)
    else .list ((normalEntries entries).map fun e => .property e.1 e.2)
  | .property k v => .property k v.normal
  | v => v

/-- The items that come back: all but nil. -/
def normalAll : List Value → List Value
  | [] => []
  | .nil :: rest => normalAll rest
  | v :: rest => v.normal :: normalAll rest

def normalEntries : List (Value × Value) → List (Value × Value)
  | [] => []
  | (k, v) :: rest => (k, v.normal) :: normalEntries rest

end

/-- What data comes back as: a leaf is no table, and nothing is escaped in it. -/
def normalForm (v : Value) : Value :=
  if v.isLeaf then v else v.normal

/-- Whether a value is no number, or one that is not too large for a binary64 one. -/
def isFinite : Value → Bool
  | .number n => n.toDouble.isFinite
  | _ => true

theorem normal_leaf {v : Value} (h : v.isLeaf) : v.normal = v.escaped := by
  cases v <;> first | rfl | (rw [normal]; done) | cases h

theorem normalForm_leaf {v : Value} (h : v.isLeaf) : v.normalForm = v := if_pos h

theorem normal_sequence {mk : List Value → Value} (hm : IsSequence mk) (items : List Value) :
    (mk items).normal =
      if !items.isEmpty && items.all isNamedProperty then
        .map (mergeEntries ((normalAll items).filterMap keyed?))
      else .list (normalAll items) := by
  cases hm <;> rw [normal]

theorem normalEntries_eq_map (entries : List (Value × Value)) :
    normalEntries entries = entries.map fun e => (e.1, e.2.normal) := by
  induction entries with
  | nil => rw [normalEntries]; rfl
  | cons e rest ih => obtain ⟨k, v⟩ := e; rw [normalEntries, ih]; rfl

theorem normalAll_cons {v : Value} (h : v ≠ .nil) (rest : List Value) :
    normalAll (v :: rest) = v.normal :: normalAll rest := by
  cases v <;> first | exact absurd rfl h | rw [normalAll]; done | (rw [normalAll]; exact nofun)

theorem normalAll_properties (entries : List (Value × Value)) :
    normalAll (entries.map fun e => .property e.1 e.2) =
      entries.map fun e => .property e.1 e.2.normal := by
  induction entries with
  | nil => rw [List.map_nil, normalAll, List.map_nil]
  | cons e rest ih =>
    rw [List.map_cons, normalAll_cons (fun h => by cases h), ih, normal, List.map_cons]

/-- A map nests as the list of its entries as properties does. -/
theorem nesting_properties (entries : List (Value × Value)) :
    (Value.list (entries.map fun e => .property e.1 e.2)).nesting =
      (Value.map entries).nesting := by
  rw [nesting_map, nesting_sequence .list, List.map_map]
  exact congrArg (1 + largest ·) (List.map_congr_left fun e _ => nesting_property e.1 e.2)

/-- A map with each key once comes back as the list of its entries as properties does. -/
theorem normal_map {entries : List (Value × Value)} (h : distinctKeys (entries.map Prod.fst)) :
    (Value.map entries).normal =
      (Value.list (entries.map fun e => .property e.1 e.2)).normal := by
  have hall : (entries.map fun e => Value.property e.1 e.2).all isNamedProperty =
      entries.all fun e => e.1.isNamed := by
    rw [List.all_map]; rfl
  rw [normal, normal, List.isEmpty_map, hall, normalAll_properties, normalEntries_eq_map]
  cases entries with
  | nil => rfl
  | cons e rest =>
    rw [List.isEmpty_cons, if_neg Bool.false_ne_true, Bool.not_false, Bool.true_and]
    split
    · rw [List.filterMap_map]
      have hentries : (e :: rest).filterMap
          (keyed? ∘ fun e : Value × Value => Value.property e.1 e.2.normal) =
          (e :: rest).map fun e => (e.1, e.2.normal) :=
        congrFun (List.filterMap_eq_map (f := fun e : Value × Value => (e.1, e.2.normal))) _
      rw [hentries, mergeEntries_of_distinct (by rwa [List.map_map])]
    · rw [List.map_map]
      rfl

end Value

end LuaData
