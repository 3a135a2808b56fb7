import LuaData.Proofs.Node.Exact

/-
  The trees of literals, as a grammar. `Scalar`, `Reducible` and `ReducibleField` say which nodes
  stand for a constant, for a value and for a field of a table, at a level of nesting and under a
  limit on it; they do not mention a walk. What a constant is does not depend on the level.
  References are looked up wherever a node or a list is asked for. `Shaped` are the trees that
  the grammar can be asked of: those whose entries are of the right kinds.
-/

namespace LuaData

open Relation (ReflTransGen TransGen)
open Document (Part deref)

namespace Node

variable {table : List Value} {n : Int} {level : Nat} {v w c : Value}

/-! ## Nodes and their entries -/

/-- A node of a kind. -/
def Is (table : List Value) (tag : Tag) (v : Value) : Prop := (deref table v).tag? = some tag

/-- A node with an entry. -/
def Has (table : List Value) (v : Value) (name : String) (w : Value) : Prop :=
  (deref table v).get? name = some w

/-- A list, which may be of a type derived from lists. -/
def Lists (table : List Value) (v : Value) (items : List Value) : Prop :=
  (deref table v).base = .list items

theorem exists_lists_iff {items : List Value} (h : Lists table v items)
    {P : List Value → Prop} : (∃ items, Lists table v items ∧ P items) ↔ P items := by
  constructor
  · rintro ⟨items', h', hP⟩
    cases Eq.trans h.symm h'
    exact hP
  · exact fun hP => ⟨items, h, hP⟩

theorem Has.part {name : String} (h : Has table v name w) : Part table v w :=
  Value.mem_parts_of_get? h

theorem Lists.part {items : List Value} (h : Lists table v items) (hw : w ∈ items) :
    Part table v w := by
  have hbase : (deref table v).base = .list items := h
  have hparts : w ∈ (deref table v).parts := by
    rw [Value.parts, hbase]
    exact hw
  exact hparts

theorem Lists.elements? {items : List Value} (h : Lists table v items) :
    (deref table v).elements? = some items := by
  have hbase : (deref table v).base = .list items := h
  rw [Value.elements?, hbase]

/-! ## The grammar -/

/-- The nodes that stand for a constant at a level, with that constant. -/
inductive Scalar (table : List Value) (n : Int) : Nat → Value → Value → Prop
  | nil {level : Nat} {v : Value} (kind : Is table .nilLiteral v) : Scalar table n level v .nil
  | literal {level : Nat} {v c : Value} {tag : Tag} (kind : Is table tag v)
      (is : tag = .booleanLiteral ∨ tag = .numericLiteral ∨ tag = .stringLiteral)
      (value : Has table v "value" c) : Scalar table n level v (Document.unfold table [] c)
  | identifier {level : Nat} {v c : Value} (kind : Is table .identifier v)
      (name : Has table v "name" c) (text : c.text?.isSome) :
      Scalar table n level v (Document.unfold table [] c)
  | negation {level : Nat} {v op w c : Value} {m : Number} (kind : Is table .unaryExpression v)
      (operator : Has table v "operator" op) (minus : op.text? = some "-")
      (argument : Has table v "argument" w) (deep : ((level + 1 : Nat) : Int) ≤ n)
      (operand : Scalar table n (level + 1) w c) (number : c.properNumber? = some m) :
      Scalar table n level v (.number m.negate)

mutual

/-- The nodes that stand for a value at a level. -/
inductive Reducible (table : List Value) (n : Int) : Nat → Value → Prop
  | scalar {level : Nat} {v c : Value} (h : Scalar table n level v c) : Reducible table n level v
  | table {level : Nat} {v fields : Value} {items : List Value}
      (kind : Is table .tableConstructor v) (entry : Has table v "fields" fields)
      (list : Lists table fields items) (deep : ((level + 1 : Nat) : Int) ≤ n)
      (each : ∀ f ∈ items, ReducibleField table n (level + 1) f) : Reducible table n level v
  | statement {level : Nat} {v exprs : Value} {items : List Value}
      (entry : Is table .localStatement v ∧ Has table v "init" exprs ∨
        Is table .returnStatement v ∧ Has table v "arguments" exprs)
      (list : Lists table exprs items)
      (each : ∀ e ∈ items, Reducible table n level e) : Reducible table n level v
  | chunk {level : Nat} {v body first : Value} {rest : List Value}
      (kind : Is table .chunk v) (entry : Has table v "body" body)
      (list : Lists table body (first :: rest)) (h : Reducible table n level first) :
      Reducible table n level v

/-- The nodes that stand for a field of a table at a level. -/
inductive ReducibleField (table : List Value) (n : Int) : Nat → Value → Prop
  | keyed {level : Nat} {v k w c : Value}
      (kind : Is table .tableKey v ∨ Is table .tableKeyString v) (key : Has table v "key" k)
      (value : Has table v "value" w) (constant : Scalar table n level k c) (isKey : isKey c)
      (h : Reducible table n level w) : ReducibleField table n level v
  | positional {level : Nat} {v w : Value} (kind : Is table .tableValue v)
      (value : Has table v "value" w) (h : Reducible table n level w) :
      ReducibleField table n level v

end

/-! ## Forms -/

theorem scalarForm_eq_nil : scalarForm v = .nil ↔ v.tag? = some .nilLiteral := by
  refine ⟨fun h => ?_, fun h => by rw [scalarForm, h]⟩
  unfold scalarForm at h
  split at h
  · assumption
  all_goals (repeat' split at h) <;> cases h

theorem scalarForm_eq_constant : scalarForm v = .constant c ↔
    (∃ tag, v.tag? = some tag ∧
      (tag = .booleanLiteral ∨ tag = .numericLiteral ∨ tag = .stringLiteral) ∧
      v.get? "value" = some c) ∨
    v.tag? = some .identifier ∧ v.get? "name" = some c ∧ c.text?.isSome := by
  constructor
  · intro h
    unfold scalarForm at h
    split at h
    case h_2 ht | h_3 ht | h_4 ht =>
      split at h
      · cases h; exact Or.inl ⟨_, ht, by simp, by assumption⟩
      · cases h
    case h_5 ht =>
      split at h
      · split at h
        · cases h; exact Or.inr ⟨ht, by assumption, by assumption⟩
        · cases h
      · cases h
    all_goals (repeat' split at h) <;> cases h
  · rintro (⟨tag, ht, rfl | rfl | rfl, hc⟩ | ⟨ht, hc, hs⟩)
    · simp only [scalarForm, ht, hc]
    · simp only [scalarForm, ht, hc]
    · simp only [scalarForm, ht, hc]
    · simp only [scalarForm, ht, hc, hs, if_true]

theorem scalarForm_eq_negation : scalarForm v = .negation w ↔
    v.tag? = some .unaryExpression ∧ (∃ op, v.get? "operator" = some op ∧ op.text? = some "-") ∧
      v.get? "argument" = some w := by
  constructor
  · intro h
    unfold scalarForm at h
    split at h
    case h_6 ht =>
      split at h
      · split at h
        · cases h; exact ⟨ht, ⟨_, by assumption, by assumption⟩, by assumption⟩
        · cases h
      · cases h
      · cases h
    all_goals (repeat' split at h) <;> cases h
  · rintro ⟨ht, ⟨op, hop, hminus⟩, hw⟩
    simp only [scalarForm, ht, hop, hw, hminus, if_true]

theorem fieldForm_eq_keyed {k : Value} : fieldForm v = .keyed k w ↔
    (v.tag? = some .tableKey ∨ v.tag? = some .tableKeyString) ∧ v.get? "key" = some k ∧
      v.get? "value" = some w := by
  constructor
  · intro h
    unfold fieldForm at h
    split at h
    case h_1 ht =>
      split at h
      · cases h; exact ⟨Or.inl ht, by assumption, by assumption⟩
      · cases h
    case h_2 ht =>
      split at h
      · cases h; exact ⟨Or.inr ht, by assumption, by assumption⟩
      · cases h
    all_goals (repeat' split at h) <;> cases h
  · rintro ⟨ht | ht, hk, hw⟩ <;> simp only [fieldForm, ht, hk, hw]

theorem fieldForm_eq_positional : fieldForm v = .positional w ↔
    v.tag? = some .tableValue ∧ v.get? "value" = some w := by
  constructor
  · intro h
    unfold fieldForm at h
    split at h
    case h_3 ht =>
      split at h
      · cases h; exact ⟨ht, by assumption⟩
      · cases h
    all_goals (repeat' split at h) <;> cases h
  · rintro ⟨ht, hw⟩
    simp only [fieldForm, ht, hw]

/-- A text can be compared, also one of a derived type. -/
theorem isHashable_unfold {t : Value} {s : String} (h : t.text? = some s) :
    (Document.unfold table [] t).isHashable := by
  rw [Value.text?] at h
  fun_induction Value.base t with
  | case1 name t ih =>
    rw [Document.unfold]
    exact ih h
  | case2 t _ =>
    cases t <;> first | cases h; done | rw [Document.unfold_leaf rfl]; rfl

theorem readable_of_tag? {tag : Tag} (h : v.tag? = some tag) :
    ((v.get? "type").any fun t => !(Document.unfold table [] t).isHashable) = false := by
  obtain ⟨s, hs, -⟩ := Option.bind_eq_some_iff.1 h
  obtain ⟨t, ht, hs⟩ := Option.bind_eq_some_iff.1 hs
  rw [ht, Option.any_some, isHashable_unfold hs]
  rfl

theorem form_eq_scalar :
    form table v = .scalar ↔ ∃ tag, v.tag? = some tag ∧ tag.isScalar := by
  constructor
  · intro h
    unfold form at h
    split at h
    · cases h
    · split at h
      case h_1 ht | h_2 ht | h_3 ht | h_4 ht | h_5 ht | h_6 ht => exact ⟨_, ht, rfl⟩
      all_goals (repeat' split at h) <;> cases h
  · rintro ⟨tag, ht, hs⟩
    rw [form, readable_of_tag? ht, ht]
    cases tag <;> first | rfl | cases hs

theorem form_eq_table {fields : Value} : form table v = .table fields ↔
    v.tag? = some .tableConstructor ∧ v.get? "fields" = some fields := by
  constructor
  · intro h
    unfold form at h
    split at h
    · cases h
    · split at h
      case h_7 ht =>
        split at h
        · cases h; exact ⟨ht, by assumption⟩
        · cases h
      all_goals (repeat' split at h) <;> cases h
  · rintro ⟨ht, hf⟩
    simp only [form, readable_of_tag? ht, ht, hf]
    rfl

theorem form_eq_statement {exprs : Value} : form table v = .statement exprs ↔
    v.tag? = some .localStatement ∧ v.get? "init" = some exprs ∨
      v.tag? = some .returnStatement ∧ v.get? "arguments" = some exprs := by
  constructor
  · intro h
    unfold form at h
    split at h
    · cases h
    · split at h
      case h_8 ht =>
        split at h
        · cases h; exact Or.inl ⟨ht, by assumption⟩
        · cases h
      case h_9 ht =>
        split at h
        · cases h; exact Or.inr ⟨ht, by assumption⟩
        · cases h
      all_goals (repeat' split at h) <;> cases h
  · rintro (⟨ht, he⟩ | ⟨ht, he⟩) <;> simp only [form, readable_of_tag? ht, ht, he] <;> rfl

theorem form_eq_chunk {body : Option Value} : form table v = .chunk body ↔
    v.tag? = some .chunk ∧ v.get? "body" = body := by
  constructor
  · intro h
    unfold form at h
    split at h
    · cases h
    · split at h
      case h_10 ht => cases h; exact ⟨ht, rfl⟩
      all_goals (repeat' split at h) <;> cases h
  · rintro ⟨ht, hb⟩
    simp only [form, readable_of_tag? ht, ht, hb]
    rfl

/-! ## The grammar by forms -/

/-- The grammar of constants, by the form of the node. -/
theorem scalar_iff : Scalar table n level v c ↔
    match scalarForm (deref table v) with
    | .nil => c = .nil
    | .constant d => c = Document.unfold table [] d
    | .negation w => ((level + 1 : Nat) : Int) ≤ n ∧
        ∃ d m, Scalar table n (level + 1) w d ∧ d.properNumber? = some m ∧ c = .number m.negate
    | .operator _ | .other => False := by
  constructor
  · intro h
    cases h with
    | nil kind => rw [scalarForm_eq_nil.2 kind]
    | literal kind is value => rw [scalarForm_eq_constant.2 (Or.inl ⟨_, kind, is, value⟩)]
    | identifier kind name text =>
      rw [scalarForm_eq_constant.2 (Or.inr ⟨kind, name, text⟩)]
    | negation kind operator minus argument deep operand number =>
      rw [scalarForm_eq_negation.2 ⟨kind, ⟨_, operator, minus⟩, argument⟩]
      exact ⟨deep, _, _, operand, number, rfl⟩
  · cases hform : scalarForm (deref table v) with
    | nil =>
      rintro rfl
      exact .nil (scalarForm_eq_nil.1 hform)
    | constant d =>
      rintro rfl
      rcases scalarForm_eq_constant.1 hform with ⟨tag, kind, is, value⟩ | ⟨kind, name, text⟩
      · exact .literal kind is value
      · exact .identifier kind name text
    | negation w =>
      rintro ⟨deep, d, m, operand, number, rfl⟩
      obtain ⟨kind, ⟨op, operator, minus⟩, argument⟩ := scalarForm_eq_negation.1 hform
      exact .negation kind operator minus argument deep operand number
    | _ => exact False.elim

/-- The grammar of fields, by the form of the node. -/
theorem reducibleField_iff : ReducibleField table n level v ↔
    match fieldForm (deref table v) with
    | .keyed k w => (∃ c, Scalar table n level k c ∧ isKey c) ∧ Reducible table n level w
    | .positional w => Reducible table n level w
    | .other => False := by
  constructor
  · intro h
    cases h with
    | keyed kind key value constant isKey h =>
      rw [fieldForm_eq_keyed.2 ⟨kind, key, value⟩]
      exact ⟨⟨_, constant, isKey⟩, h⟩
    | positional kind value h =>
      rw [fieldForm_eq_positional.2 ⟨kind, value⟩]
      exact h
  · cases hform : fieldForm (deref table v) with
    | keyed k w =>
      rintro ⟨⟨c, constant, isKey⟩, h⟩
      obtain ⟨kind, key, value⟩ := fieldForm_eq_keyed.1 hform
      exact .keyed kind key value constant isKey h
    | positional w =>
      intro h
      obtain ⟨kind, value⟩ := fieldForm_eq_positional.1 hform
      exact .positional kind value h
    | other => exact False.elim

/-- The grammar of values, by the form of the node. -/
theorem reducible_iff : Reducible table n level v ↔
    match form table (deref table v) with
    | .scalar => ∃ c, Scalar table n level v c
    | .table fields => ((level + 1 : Nat) : Int) ≤ n ∧
        ∃ items, Lists table fields items ∧ ∀ f ∈ items, ReducibleField table n (level + 1) f
    | .statement exprs =>
        ∃ items, Lists table exprs items ∧ ∀ e ∈ items, Reducible table n level e
    | .chunk (some body) =>
        ∃ items, Lists table body items ∧ ∃ first ∈ items.head?, Reducible table n level first
    | .chunk none | .field | .unreadable | .other => False := by
  constructor
  · intro h
    cases h with
    | @scalar _ _ c h =>
      have hform : form table (deref table v) = .scalar := by
        refine form_eq_scalar.2 ?_
        cases h with
        | nil kind => exact ⟨_, kind, rfl⟩
        | literal kind is _ => rcases is with rfl | rfl | rfl <;> exact ⟨_, kind, rfl⟩
        | identifier kind => exact ⟨_, kind, rfl⟩
        | negation kind => exact ⟨_, kind, rfl⟩
      rw [hform]
      exact ⟨c, h⟩
    | table kind entry list deep each =>
      rw [form_eq_table.2 ⟨kind, entry⟩]
      exact ⟨deep, _, list, each⟩
    | statement entry list each =>
      rw [form_eq_statement.2 entry]
      exact ⟨_, list, each⟩
    | chunk kind entry list h =>
      rw [form_eq_chunk.2 ⟨kind, entry⟩]
      exact ⟨_, list, _, rfl, h⟩
  · cases hform : form table (deref table v) with
    | scalar => exact fun ⟨c, h⟩ => .scalar h
    | table fields =>
      rintro ⟨deep, items, list, each⟩
      obtain ⟨kind, entry⟩ := form_eq_table.1 hform
      exact .table kind entry list deep each
    | statement exprs =>
      rintro ⟨items, list, each⟩
      exact .statement (form_eq_statement.1 hform) list each
    | chunk body =>
      obtain ⟨kind, entry⟩ := form_eq_chunk.1 hform
      cases body with
      | none => exact False.elim
      | some body =>
        rintro ⟨items, list, first, hfirst, h⟩
        obtain ⟨rest, rfl⟩ := List.head?_eq_some_iff.1 hfirst
        exact .chunk kind entry list h
    | _ => exact False.elim

/-! ## Constants do not depend on the limit -/

/-- A node stands for one constant, at whatever level and under whatever limit. -/
theorem Scalar.unique {m : Int} {level' : Nat} {d : Value} (h : Scalar table n level v c)
    (h' : Scalar table m level' v d) : c = d := by
  induction h generalizing level' d with
  | nil kind =>
    rw [scalar_iff, scalarForm_eq_nil.2 kind] at h'
    exact h'.symm
  | literal kind is value =>
    rw [scalar_iff, scalarForm_eq_constant.2 (Or.inl ⟨_, kind, is, value⟩)] at h'
    exact h'.symm
  | identifier kind name text =>
    rw [scalar_iff, scalarForm_eq_constant.2 (Or.inr ⟨kind, name, text⟩)] at h'
    exact h'.symm
  | negation kind operator minus argument _ _ number ih =>
    rw [scalar_iff, scalarForm_eq_negation.2 ⟨kind, ⟨_, operator, minus⟩, argument⟩] at h'
    obtain ⟨-, e, k, operand', number', rfl⟩ := h'
    rw [← ih operand', number, Option.some.injEq] at number'
    rw [number']

/-! ## Trees -/

/-- The entries that nodes hold other nodes in, however many there are. -/
def listNames : List String := ["fields", "init", "arguments", "body"]

/-- That the types of nodes are texts, and that there are lists where nodes hold others in one. -/
def Shaped (table : List Value) (root : Value) : Prop :=
  ∀ v, ReflTransGen (Part table) root v →
    (∀ t, Has table v "type" t → t.text?.isSome) ∧
    ∀ name ∈ listNames, ∀ w, Has table v name w → ∃ items, Lists table w items

theorem Shaped.below (h : Shaped table v) (hvw : TransGen (Part table) v w) : Shaped table w :=
  fun x hx => h x (hvw.to_reflTransGen.trans hx)

theorem Shaped.lists (h : Shaped table v) {name : String}
    (hname : name ∈ listNames) (hw : Has table v name w) :
    ∃ items, Lists table w items ∧ ∀ x ∈ items, TransGen (Part table) v x := by
  obtain ⟨items, hi⟩ := (h v .refl).2 name hname w hw
  exact ⟨items, hi, fun x hx => .tail (.single hw.part) (hi.part hx)⟩

theorem Shaped.form_ne_unreadable (h : Shaped table v) :
    form table (deref table v) ≠ .unreadable := by
  unfold form
  split
  · rename_i hany
    obtain ⟨t, ht, hn⟩ := (Option.any_eq_true _ _).1 hany
    obtain ⟨s, hs⟩ := Option.isSome_iff_exists.1 ((h v .refl).1 t ht)
    rw [isHashable_unfold hs] at hn
    cases hn
  · (repeat' split) <;> exact nofun

end Node

end LuaData
