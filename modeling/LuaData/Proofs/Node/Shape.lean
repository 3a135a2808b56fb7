import LuaData.Node.Build
import LuaData.Proofs.Node.Exact

/-
  What the nodes that are built are to a reader: their tags, their forms, and the constants that
  the nodes of leaves stand for.
-/

namespace LuaData

open Relation (ReflTransGen)
open Document (Part deref)

namespace Node

/-! ## Entries -/

theorem get?_node_type (tag : Tag) (entries : List (String × Value)) :
    (node tag entries).get? "type" = some (.text tag.text) := by
  simp only [node, Value.get?, Value.base, lookupKey, Value.sameKey_text, beq_self_eq_true,
    if_true]

theorem get?_node (tag : Tag) (entries : List (String × Value)) {name : String}
    (h : name ≠ "type") : (node tag entries).get? name = entries.lookup name := by
  have hne : ("type" == name) = false := beq_eq_false_iff_ne.2 (Ne.symm h)
  have rest : ∀ entries : List (String × Value),
      lookupKey (.text name) (entries.map fun e => (Value.text e.1, e.2)) =
        entries.lookup name := by
    intro entries
    induction entries with
    | nil => rfl
    | cons e rest ih =>
      obtain ⟨key, v⟩ := e
      rw [List.map_cons, lookupKey, Value.sameKey_text, ih, List.lookup]
      by_cases hk : key = name
      · subst hk; simp only [beq_self_eq_true, if_true]
      · simp only [beq_eq_false_iff_ne.2 hk, beq_eq_false_iff_ne.2 (Ne.symm hk),
          Bool.false_eq_true, if_false]
  rw [← rest]
  simp only [node, Value.get?, Value.base, lookupKey, Value.sameKey_text, hne,
    Bool.false_eq_true, if_false]

@[simp] theorem tagText?_node (tag : Tag) (entries : List (String × Value)) :
    (node tag entries).tagText? = some tag.text := by
  rw [Value.tagText?, get?_node_type]
  rfl

@[simp] theorem tag?_node (tag : Tag) (entries : List (String × Value)) :
    (node tag entries).tag? = some tag := by
  rw [Value.tag?, tagText?_node]
  exact Tag.ofText?_text tag

/-! ## Forms -/

theorem form_node (table : List Value) (tag : Tag) (entries : List (String × Value)) :
    form table (node tag entries) =
      match tag with
      | .nilLiteral | .booleanLiteral | .numericLiteral | .stringLiteral | .identifier
      | .unaryExpression => .scalar
      | .tableConstructor =>
        match (node tag entries).get? "fields" with
        | some fields => .table fields
        | none => .other
      | .localStatement =>
        match (node tag entries).get? "init" with
        | some exprs => .statement exprs
        | none => .other
      | .returnStatement =>
        match (node tag entries).get? "arguments" with
        | some exprs => .statement exprs
        | none => .other
      | .chunk => .chunk ((node tag entries).get? "body")
      | .tableKey | .tableKeyString | .tableValue => .field := by
  have hash : (((node tag entries).get? "type").any fun t =>
      !(Document.unfold table [] t).isHashable) = false := by
    rw [get?_node_type, Option.any_some, Document.unfold]
    all_goals first | rfl | exact nofun
  rw [form, hash, tag?_node]
  cases tag <;> rfl

@[simp] theorem form_tableConstructor (table nodes : List Value) :
    form table (tableConstructor nodes) = .table (.list nodes) := by
  rw [tableConstructor, form_node, get?_node _ _ (by decide)]
  rfl

@[simp] theorem form_returnStatement (table nodes : List Value) :
    form table (returnStatement nodes) = .statement (.list nodes) := by
  rw [returnStatement, form_node]
  simp only
  rw [get?_node _ _ (by decide)]
  rfl

@[simp] theorem form_chunk (table body : List Value) :
    form table (chunk body) = .chunk (some (.list body)) := by
  rw [chunk, form_node]
  simp only
  rw [get?_node _ _ (by decide)]
  rfl

theorem form_of_isScalar {table : List Value} {tag : Tag} (h : tag.isScalar)
    (entries : List (String × Value)) : form table (node tag entries) = .scalar := by
  rw [form_node]
  cases tag <;> first | rfl | cases h

@[simp] theorem scalarForm_nil : scalarForm nil = .nil := by
  rw [nil, scalarForm, tag?_node]

@[simp] theorem scalarForm_boolean (v : Value) : scalarForm (boolean v) = .constant v := by
  rw [boolean, scalarForm, tag?_node, get?_node _ _ (by decide)]
  rfl

@[simp] theorem scalarForm_numeral (v : Value) : scalarForm (numeral v) = .constant v := by
  rw [numeral, scalarForm, tag?_node, get?_node _ _ (by decide)]
  rfl

@[simp] theorem scalarForm_identifier (s : String) :
    scalarForm (identifier (.text s)) = .constant (.text s) := by
  rw [identifier, scalarForm, tag?_node]
  simp only
  rw [get?_node _ _ (by decide)]
  rfl

@[simp] theorem scalarForm_neg (v : Value) : scalarForm (neg v) = .negation v := by
  rw [neg, scalarForm, tag?_node]
  simp only
  rw [get?_node _ _ (by decide), get?_node _ _ (by decide)]
  rfl

theorem scalarForm_string (v : Value) (raw : Value) :
    scalarForm (node .stringLiteral [("value", v), ("raw", raw)]) = .constant v := by
  rw [scalarForm, tag?_node, get?_node _ _ (by decide)]
  rfl

@[simp] theorem fieldForm_keyedField (k v : Value) : fieldForm (keyedField k v) = .keyed k v := by
  rw [keyedField, fieldForm, tag?_node, get?_node _ _ (by decide), get?_node _ _ (by decide)]
  rfl

@[simp] theorem fieldForm_namedField (name v : Value) :
    fieldForm (namedField name v) = .keyed (identifier name) v := by
  rw [namedField, fieldForm, tag?_node, get?_node _ _ (by decide), get?_node _ _ (by decide)]
  rfl

@[simp] theorem fieldForm_positionalField (v : Value) :
    fieldForm (positionalField v) = .positional v := by
  rw [positionalField, fieldForm, tag?_node]
  simp only
  rw [get?_node _ _ (by decide)]
  rfl

/-! ## Visits -/

theorem scalar_of_form {limit : Value} {reach level : Nat} {v c : Value}
    (h : scalarForm v = .constant c) : scalar [] limit reach level v = .ok c := by
  rw [scalar_eq, follow_nil, ok_bind, h]
  exact congrArg Except.ok (Document.unfold_nil [] c)

/-- A chunk that returns one expression is visited as that expression. -/
theorem visit_returned {α β : Type} (b : Builder α β) (limit : Value) (reach level : Nat)
    (e : Value) : visit b [] limit reach level (chunk [returnStatement [e]]) =
      visit b [] limit (reach - chunkCost - singleCost) level e := by
  have hfirst : firstStatement? [] reach (.list [returnStatement [e]]) =
      .ok (some (returnStatement [e])) := rfl
  have hone : expressions [] (reach - chunkCost) (.list [e]) = .ok (.one e) := rfl
  rw [visit_eq, follow_nil, Run.ofExcept_ok_bind, form_chunk]
  simp only [hfirst, Run.ofExcept_ok_bind]
  rw [visit_eq, follow_nil, Run.ofExcept_ok_bind, form_returnStatement]
  simp only [hone, Run.ofExcept_ok_bind]

/-! ## Exact nodes -/

/-- What is true of a node, of all texts and of all that is inside of its entries is true of all
that is inside of the node. -/
theorem forall_reaches_node {table : List Value} {tag : Tag} {entries : List (String × Value)}
    {P : Value → Prop} (self : P (node tag entries)) (text : ∀ s, P (.text s))
    (he : ∀ e ∈ entries, ∀ w, ReflTransGen (Part table) e.2 w → P w) :
    ∀ w, ReflTransGen (Part table) (node tag entries) w → P w := by
  have htext : ∀ s w, ReflTransGen (Part table) (.text s) w → P w := fun s w hw => by
    rcases hw.cases_head with rfl | ⟨x, hx, -⟩
    · exact text s
    · cases hx
  intro w hw
  rcases hw.cases_head with rfl | ⟨x, hx, hxw⟩
  · exact self
  · obtain ⟨e, hmem, hx⟩ := List.mem_flatMap.1 hx
    rcases List.mem_cons.1 hmem with rfl | hmem
    · simp only [List.mem_cons, List.not_mem_nil, or_false] at hx
      rcases hx with rfl | rfl <;> exact htext _ w hxw
    · obtain ⟨f, hf, rfl⟩ := List.mem_map.1 hmem
      simp only [List.mem_cons, List.not_mem_nil, or_false] at hx
      rcases hx with rfl | rfl
      · exact htext _ w hxw
      · exact he f hf w hxw

/-- A node is exact if its own constant is a leaf and its entries are exact. -/
theorem exact_node {table : List Value} {tag : Tag} {entries : List (String × Value)}
    (h : ∀ c, scalarForm (node tag entries) = .constant c → c.isLeaf)
    (he : ∀ e ∈ entries, Exact table e.2) : Exact table (node tag entries) :=
  fun w c hw => forall_reaches_node
    (P := fun w => ∀ c, scalarForm (deref table w) = .constant c → c.isLeaf) h
    (fun s c hc => by cases hc) (fun e hmem w hw c => he e hmem w c hw) w hw c

/-- A node that stands for no constant and for no negation. -/
theorem scalarForm_of_not_isScalar {tag : Tag} (ht : tag.isScalar = false)
    {entries : List (String × Value)} : scalarForm (node tag entries) = .other := by
  rw [scalarForm, tag?_node]
  cases tag <;> first | rfl | cases ht

/-- A node that stands for no constant is exact if its entries are. -/
theorem exact_node_of_not_isScalar {table : List Value} {tag : Tag} (ht : tag.isScalar = false)
    {entries : List (String × Value)} (he : ∀ e ∈ entries, Exact table e.2) :
    Exact table (node tag entries) :=
  exact_node (fun c hc => by rw [scalarForm_of_not_isScalar ht] at hc; cases hc) he

theorem exact_list {table nodes : List Value} (h : ∀ v ∈ nodes, Exact table v) :
    Exact table (.list nodes) :=
  exact_of_parts nofun h

end Node

end LuaData
