import LuaData.Proofs.Node.Normal

/-
  Reading the expression of data back. The node of a leaf stands for that leaf, the node of a
  field has the key of the field, and so a table comes back as the normal form of what it was
  made of. A limit above the nesting of the data is enough: a negative number takes one level
  more than the tables around it.
-/

namespace LuaData

open Document (deref)
open Value (IsSequence)
open Walk (isPropertyKey isMapKey)

namespace Node

variable {n : Int} {reach level : Nat}

/-! ## Leaves -/

theorem negate_negate_number (m : Number) : m.negate.negate = m := by
  cases m with
  | int m => rw [Number.negate, Number.negate, Int.neg_neg]
  | float x => rw [Number.negate, Number.negate, Double.negate_negate]

/-- The node of a finite number. -/
theorem number_ok {m : Number} (h : m.toDouble.isFinite) :
    number (.number m) =
      .ok (if m.isNegative then neg (numeral (.number m.negate)) else numeral (.number m)) := by
  rw [number]
  simp only [Value.base]
  cases m with
  | int m =>
    cases hd : (Number.int m).toDouble with
    | finite s r => rfl
    | _ => rw [hd] at h; cases h
  | float x =>
    cases x with
    | finite s r => rfl
    | _ => cases h

/-- The node of a leaf is one for a constant, which is that leaf. -/
structure Stands (n : Int) (c e : Value) : Prop where
  constant : ∀ reach level : Nat, (level : Int) < n →
    scalar [] (.int n) reach level e = .ok c
  form : form [] e = .scalar
  scalar : e.tag?.any Tag.isScalar
  absent : e.tagText? = some Tag.nilLiteral.text ↔ c = .nil

/-- The node of a finite leaf stands for it. -/
theorem literal_stands {c : Value} (hl : c.isLeaf) (hf : c.isFinite) :
    ∃ e, literal c = .ok e ∧ Stands n c e := by
  cases c with
  | nil =>
    refine ⟨nil, rfl, fun reach level _ => ?_, form_of_isScalar rfl _, ?_, ?_⟩
    · rw [scalar_eq, follow_nil, ok_bind, scalarForm_nil]
    · rw [nil, tag?_node]; rfl
    · rw [nil, tagText?_node]; exact iff_of_true rfl rfl
  | bool b =>
    refine ⟨boolean (.bool b), rfl, fun reach level _ => scalar_of_form (scalarForm_boolean _),
      form_of_isScalar rfl _, ?_, ?_⟩
    · rw [boolean, tag?_node]; rfl
    · rw [boolean, tagText?_node]; exact iff_of_false (by decide) fun h => by cases h
  | text s =>
    refine ⟨_, rfl, fun reach level _ => scalar_of_form (scalarForm_string _ _),
      form_of_isScalar rfl _, ?_, ?_⟩
    · rw [tag?_node]; rfl
    · rw [tagText?_node]; exact iff_of_false (by decide) fun h => by cases h
  | number m =>
    refine ⟨_, number_ok hf, ?_⟩
    split
    · refine ⟨fun reach level hlev => ?_, form_of_isScalar rfl _, ?_, ?_⟩
      · have hc : (Value.int n).checkLevel (level + 1) = .ok () := by
          rw [Value.checkLevel_int, if_pos (by omega)]
        rw [scalar_eq, follow_nil, ok_bind, scalarForm_neg]
        simp only [hc, ok_bind, scalar_of_form (scalarForm_numeral _), Value.properNumber?,
          Value.base, negate_negate_number]
      · rw [neg, tag?_node]; rfl
      · rw [neg, tagText?_node]; exact iff_of_false (by decide) fun h => by cases h
    · refine ⟨fun reach level _ => scalar_of_form (scalarForm_numeral _),
        form_of_isScalar rfl _, ?_, ?_⟩
      · rw [numeral, tag?_node]; rfl
      · rw [numeral, tagText?_node]; exact iff_of_false (by decide) fun h => by cases h
  | _ => cases hl

/-! ## Fields -/

/-- That a node comes back as a value, on its own and inside of a table. -/
structure ReadsAs (n : Int) (v e : Value) : Prop where
  whole : ∀ reach level : Nat, (level + v.nesting : Int) < n →
    (visit .values [] (.int n) reach level e).outcome = .ok v.normalForm
  inside : ∀ reach level : Nat, (level + v.nesting : Int) < n →
    (visitValue .values [] (.int n) reach level e).outcome = .ok v.normal
  absent : e.tagText? = some Tag.nilLiteral.text ↔ v = .nil

/-- That a field is read for an item of a list. -/
inductive FieldFor (n : Int) : Value → Field → Prop
  | keyed {k v e : Value} (h : ReadsAs n v e) : FieldFor n (.property k v) (.keyed k e)
  | positional {v e : Value} (hp : v.isProperty = false) (h : ReadsAs n v e) :
      FieldFor n v (.positional e)

theorem readsAs_of_stands {c e : Value} (hl : c.isLeaf) (h : Stands n c e) : ReadsAs n c e := by
  refine ⟨fun reach level hlev => ?_, fun reach level hlev => ?_, h.absent⟩
  · rw [visit_eq, follow_nil, Run.ofExcept_ok_bind, h.form]
    simp only [h.constant reach level (by omega), Run.ofExcept_ok_bind]
    rw [Value.normalForm_leaf hl]
    rfl
  · rw [visitValue, Document.deref_nil, if_pos h.scalar, h.constant reach level (by omega),
      Value.normal_leaf hl]
    rfl

theorem FieldFor.isNamed {v : Value} {f : Field} (h : FieldFor n v f) :
    f.isNamed = v.isNamedProperty := by
  cases h with
  | keyed h => rfl
  | positional hp h => cases v <;> first | rfl | cases hp

theorem visitFields_outcome {items : List Value} {fs : List Field}
    (h : List.Forall₂ (FieldFor n) items fs)
    (hlev : ∀ v ∈ items, (level + v.nesting : Int) < n) :
    (visitFields .values [] (.int n) reach level (fs.filter (!·.isAbsent []))).outcome =
      .ok (Value.normalAll items) := by
  induction h with
  | nil => rw [List.filter_nil, visitFields, Value.normalAll]; rfl
  | @cons v f items fs hf _ ih =>
    have ih := ih fun w hw => hlev w (List.mem_cons_of_mem _ hw)
    have hv := hlev v List.mem_cons_self
    cases hf with
    | @keyed k v e h =>
      have hne : Value.property k v ≠ .nil := fun h => by cases h
      have hf : (!(Field.keyed k e).isAbsent []) = true := rfl
      rw [List.filter_cons, if_pos hf, visitFields, Value.normalAll_cons hne]
      rw [Value.nesting_property] at hv
      simp only [Run.outcome_bind, h.inside reach level hv, ok_bind, ih, Run.pure_eq,
        Value.normal]
      rfl
    | @positional v e hp h =>
      have habs : (Field.positional e).isAbsent [] = true ↔ v = .nil := by
        rw [Field.isAbsent, Document.deref_nil, decide_eq_true_eq]
        exact h.absent
      by_cases hn : v = .nil
      · rw [List.filter_cons_of_neg (by rw [habs.2 hn]; exact Bool.false_ne_true), ih, hn,
          Value.normalAll]
      · have hf : (!(Field.positional e).isAbsent []) = true := by
          rw [Bool.not_eq_true', ← Bool.not_eq_true, habs]
          exact hn
        rw [List.filter_cons, if_pos hf, visitFields, Value.normalAll_cons hn]
        simp only [Run.outcome_bind, h.inside reach level hv, ok_bind, ih, Run.pure_eq]

theorem visitEntries_outcome {items : List Value} {fs : List Field}
    (h : List.Forall₂ (FieldFor n) items fs) (hnamed : items.all Value.isNamedProperty)
    (hlev : ∀ v ∈ items, (level + v.nesting : Int) < n) :
    (visitEntries .values [] (.int n) reach level (fs.filterMap Field.entry?)).outcome =
      .ok ((Value.normalAll items).filterMap Value.keyed?) := by
  induction h with
  | nil => rw [List.filterMap_nil, visitEntries, Value.normalAll]; rfl
  | @cons v f items fs hf _ ih =>
    rw [List.all_cons, Bool.and_eq_true] at hnamed
    have ih := ih hnamed.2 fun w hw => hlev w (List.mem_cons_of_mem _ hw)
    have hv := hlev v List.mem_cons_self
    cases hf with
    | @keyed k v e h =>
      rw [Value.nesting_property] at hv
      have hne : Value.property k v ≠ .nil := fun h => by cases h
      have hf : Field.entry? (.keyed k e) = some (k, e) := rfl
      have hi : Value.keyed? (.property k v.normal) = some (k, v.normal) := rfl
      rw [List.filterMap_cons_some hf, visitEntries, Value.normalAll_cons hne, Value.normal,
        List.filterMap_cons_some hi]
      simp only [Run.outcome_bind, h.inside reach level hv, ok_bind, ih, Run.pure_eq]
      rfl
    | positional hp h =>
      have := hnamed.1
      cases v <;> first | cases this | cases hp

/-! ## Tables -/

/-- That the node of a field is read as that field. -/
def FieldNode (n : Int) (v node : Value) (f : Field) : Prop :=
  FieldFor n v f ∧ ∀ reach level : Nat, (level + v.nesting : Int) < n →
    readField [] (.int n) reach level node = .ok f

/-- That the nodes of some fields are read as fields for the items of a list. -/
def FieldNodes (n : Int) (items nodes : List Value) : Prop :=
  ∃ fs, List.Forall₂ (FieldFor n) items fs ∧
    ∀ reach level : Nat, (∀ v ∈ items, (level + v.nesting : Int) < n) →
      readFields [] (.int n) reach level nodes = .ok fs

theorem fieldNodes_nil : FieldNodes n [] [] := ⟨[], .nil, fun _ _ _ => rfl⟩

theorem FieldNode.cons {v node : Value} {f : Field} {items nodes : List Value}
    (h : FieldNode n v node f) (hs : FieldNodes n items nodes) :
    FieldNodes n (v :: items) (node :: nodes) := by
  obtain ⟨fs, hfs, hread⟩ := hs
  refine ⟨f :: fs, .cons h.1 hfs, fun reach level hlev => ?_⟩
  rw [readFields, h.2 reach level (hlev v List.mem_cons_self), ok_bind,
    hread reach level fun w hw => hlev w (List.mem_cons_of_mem _ hw)]
  rfl

theorem fieldNode_positional {v e : Value} (hp : v.isProperty = false) (h : ReadsAs n v e) :
    FieldNode n v (positionalField e) (.positional e) := by
  refine ⟨.positional hp h, fun reach level _ => ?_⟩
  rw [readField, follow_nil, ok_bind, fieldForm_positionalField]

theorem fieldNode_keyed {k v kn e : Value} (hk : isKey k) (hs : Stands n k kn)
    (h : ReadsAs n v e) : FieldNode n (.property k v) (keyedField kn e) (.keyed k e) := by
  refine ⟨.keyed h, fun reach level hlev => ?_⟩
  rw [readField, follow_nil, ok_bind, fieldForm_keyedField]
  simp only [hs.constant reach level (by omega), ok_bind, if_pos hk]

theorem fieldNode_named {s : String} {v e : Value} (h : ReadsAs n v e) :
    FieldNode n (.property (.text s) v) (namedField (.text s) e) (.keyed (.text s) e) := by
  refine ⟨.keyed h, fun reach level _ => ?_⟩
  have hkey : isKey (.text s) = true := rfl
  rw [readField, follow_nil, ok_bind, fieldForm_namedField]
  simp only [scalar_of_form (scalarForm_identifier s), ok_bind, if_pos hkey]

theorem visitTable_outcome {items : List Value} {fs : List Field}
    (h : List.Forall₂ (FieldFor n) items fs)
    (hlev : ∀ v ∈ items, (level + v.nesting : Int) < n) :
    (visitTable .values [] (.int n) reach level (Table.ofFields [] fs)).outcome =
      .ok (Value.list items).normal := by
  have hnamed : (!fs.isEmpty && fs.all Field.isNamed) =
      (!items.isEmpty && items.all Value.isNamedProperty) := by
    have hall : fs.all Field.isNamed = items.all Value.isNamedProperty := by
      clear hlev
      induction h with
      | nil => rfl
      | cons hf _ ih => rw [List.all_cons, List.all_cons, hf.isNamed, ih]
    rw [hall]
    cases h <;> rfl
  rw [Table.ofFields, Value.normal_sequence .list, hnamed]
  split
  · rename_i hc
    rw [visitTable, Walk.drawn_eq rfl]
    simp only [Run.outcome_bind,
      visitEntries_outcome h (Bool.and_eq_true_iff.1 hc).2 hlev, ok_bind, Run.pure_eq]
    rfl
  · rw [visitTable, Walk.drawn_eq rfl]
    simp only [Run.outcome_bind, visitFields_outcome h hlev, ok_bind, Run.pure_eq]
    rfl

/-- A table constructor comes back as the normal form of what its fields are read for. -/
theorem visit_tableConstructor {items nodes : List Value} (h : FieldNodes n items nodes)
    (hlev : (level + (Value.list items).nesting : Int) < n) :
    (visit .values [] (.int n) reach level (tableConstructor nodes)).outcome =
      .ok (Value.list items).normal := by
  obtain ⟨fs, hfs, hread⟩ := h
  rw [Value.nesting_sequence .list] at hlev
  have deeper : ∀ v ∈ items, ((level + 1 : Nat) + v.nesting : Int) < n := fun v hv => by
    have := Value.le_largest (List.mem_map_of_mem (f := Value.nesting) hv)
    omega
  have hc : (Value.int n).checkLevel (level + 1) = .ok () := by
    rw [Value.checkLevel_int, if_pos (by omega)]
  have hfields : tableFields [] (.int n) reach (level + 1) (.list nodes) = .ok fs := by
    rw [tableFields, hc, ok_bind, elements, follow_nil, ok_bind]
    exact hread reach (level + 1) deeper
  rw [visit_eq, follow_nil, Run.ofExcept_ok_bind, form_tableConstructor]
  simp only [hfields, Run.ofExcept_ok_bind, Run.outcome_bind, Run.outcome_steps, ok_bind]
  exact visitTable_outcome hfs deeper

theorem readsAs_tableConstructor {v : Value} {items nodes : List Value} (hv : ¬ v.isLeaf)
    (hnest : v.nesting = (Value.list items).nesting)
    (hnormal : v.normal = (Value.list items).normal) (h : FieldNodes n items nodes) :
    ReadsAs n v (tableConstructor nodes) := by
  have htag : (tableConstructor nodes).tag? = some .tableConstructor := tag?_node _ _
  refine ⟨fun reach level hlev => ?_, fun reach level hlev => ?_, ?_⟩
  · rw [Value.normalForm, if_neg hv, hnormal]
    exact visit_tableConstructor h (hnest ▸ hlev)
  · rw [visitValue, Document.deref_nil, htag, if_neg (by decide), hnormal]
    exact visit_tableConstructor h (hnest ▸ hlev)
  · rw [tableConstructor, tagText?_node]
    exact iff_of_false (by decide) fun h => by rw [h] at hv; exact hv rfl

/-! ## Expressions -/

theorem expression_leaf {v : Value} (h : v.isLeaf) : expression v = literal v := by
  cases v <;> first | (simp only [expression]; done) | cases h

theorem fieldOf_data {v : Value} (h : v.IsData) :
    fieldOf v = do return positionalField (← expression v) := by
  obtain ⟨hi, hp⟩ := h
  cases v <;> first
    | (simp only [fieldOf]; done)
    | exact absurd hi Value.not_isItem_derived
    | cases hp

theorem fieldsOf_eq_mapM (items : List Value) : fieldsOf items = items.mapM fieldOf := by
  induction items with
  | nil => rw [fieldsOf, List.mapM_nil]; rfl
  | cons v rest ih => rw [fieldsOf, List.mapM_cons, ih]

theorem entryFieldsOf_eq_mapM (entries : List (Value × Value)) :
    entryFieldsOf entries = entries.mapM fun e => entryFieldOf e.1 e.2 := by
  induction entries with
  | nil => rw [entryFieldsOf, List.mapM_nil]; rfl
  | cons e rest ih => obtain ⟨k, v⟩ := e; rw [entryFieldsOf, List.mapM_cons, ih]

theorem expression_sequence {mk : List Value → Value} (hm : IsSequence mk) (items : List Value) :
    expression (mk items) = do return tableConstructor (← items.mapM fieldOf) := by
  cases hm <;> rw [expression, fieldsOf_eq_mapM]

/-- The fields of a table, each built for an item or entry that it comes back as. -/
theorem mapM_fields_ok {γ : Type} {items : List γ} {build : γ → Except Failure Value}
    {field : γ → Value}
    (h : ∀ x ∈ items, ∃ node f, build x = .ok node ∧ FieldNode n (field x) node f) :
    ∃ nodes, items.mapM build = .ok nodes ∧ FieldNodes n (items.map field) nodes := by
  induction items with
  | nil => exact ⟨[], rfl, fieldNodes_nil⟩
  | cons x rest ih =>
    obtain ⟨node, f, hf, hn⟩ := h x List.mem_cons_self
    obtain ⟨nodes, hfs, hns⟩ := ih fun y hy => h y (List.mem_cons_of_mem _ hy)
    refine ⟨node :: nodes, ?_, hn.cons hns⟩
    rw [List.mapM_cons, hf, hfs]
    rfl

theorem fieldsOf_ok {items : List Value}
    (h : ∀ v ∈ items, ∃ node f, fieldOf v = .ok node ∧ FieldNode n v node f) :
    ∃ nodes, fieldsOf items = .ok nodes ∧ FieldNodes n items nodes := by
  obtain ⟨nodes, hns, hnodes⟩ := mapM_fields_ok h
  rw [List.map_id'] at hnodes
  exact ⟨nodes, (fieldsOf_eq_mapM items).trans hns, hnodes⟩

theorem entryFieldOf_ok {k v : Value} (hk : isMapKey k)
    (h : ∃ node, expression v = .ok node ∧ ReadsAs n v node) :
    ∃ node f, entryFieldOf k v = .ok node ∧ FieldNode n (.property k v) node f := by
  obtain ⟨s, rfl⟩ := Value.eq_text_of_isMapKey hk
  obtain ⟨node, he, hr⟩ := h
  by_cases hname : (Value.text s).isNamed
  · refine ⟨namedField (.text s) node, _, ?_, fieldNode_named hr⟩
    rw [entryFieldOf, if_pos hname, he]
    rfl
  · obtain ⟨kn, hkn, hs⟩ := literal_stands (n := n) (c := .text s) rfl rfl
    have hkn : string (.text s) = .ok kn := hkn
    refine ⟨keyedField kn node, _, ?_, fieldNode_keyed rfl hs hr⟩
    rw [entryFieldOf, if_neg hname, hkn, he]
    rfl

/-- Data with finite numbers and no key twice in a map has an expression, which comes back as
the normal form of the data. -/
theorem expression_reads {v : Value} (hi : v.IsItem) : v.keysOnce →
    (∀ c ∈ v.leaves, c.isFinite) →
    (v.isProperty = false → ∃ e, expression v = .ok e ∧ ReadsAs n v e) ∧
      ∃ node f, fieldOf v = .ok node ∧ FieldNode n v node f := by
  have field : ∀ {v : Value}, v.IsData → (∃ e, expression v = .ok e ∧ ReadsAs n v e) →
      (v.isProperty = false → ∃ e, expression v = .ok e ∧ ReadsAs n v e) ∧
        ∃ node f, fieldOf v = .ok node ∧ FieldNode n v node f := by
    intro v hd h
    refine ⟨fun _ => h, ?_⟩
    obtain ⟨e, he, hr⟩ := h
    refine ⟨positionalField e, .positional e, ?_, fieldNode_positional hd.2 hr⟩
    rw [fieldOf_data hd, he]
    rfl
  induction hi with
  | @leaf v hl =>
    intro _ hf
    rw [Value.leaves_leaf hl, List.forall_mem_singleton] at hf
    obtain ⟨e, he, hs⟩ := literal_stands (n := n) hl hf
    exact field (Value.isData_of_isLeaf hl)
      ⟨e, (expression_leaf hl).trans he, readsAs_of_stands hl hs⟩
  | @list items h ih =>
    intro hk hf
    rw [Value.leaves_sequence .list] at hf
    obtain ⟨nodes, hns, hnodes⟩ := fieldsOf_ok (n := n) fun v hv =>
      (ih v hv ((Value.keysOnce_sequence .list).1 hk v hv)
        fun c hc => hf c (List.mem_flatMap.2 ⟨v, hv, hc⟩)).2
    refine field ⟨.list h, rfl⟩ ⟨tableConstructor nodes, ?_,
      readsAs_tableConstructor Bool.false_ne_true rfl rfl hnodes⟩
    rw [expression, hns]
    rfl
  | @tuple items h ih =>
    intro hk hf
    rw [Value.leaves_sequence .tuple] at hf
    obtain ⟨nodes, hns, hnodes⟩ := fieldsOf_ok (n := n) fun v hv =>
      (ih v hv ((Value.keysOnce_sequence .tuple).1 hk v hv)
        fun c hc => hf c (List.mem_flatMap.2 ⟨v, hv, hc⟩)).2
    refine field ⟨.tuple h, rfl⟩ ⟨tableConstructor nodes, ?_,
      readsAs_tableConstructor Bool.false_ne_true ?_ ?_ hnodes⟩
    · rw [expression, hns]
      rfl
    · rw [Value.nesting_sequence .tuple, Value.nesting_sequence .list]
    · rw [Value.normal_sequence .tuple, Value.normal_sequence .list]
  | @map entries hkeys hp h ih =>
    intro hk hf
    obtain ⟨hd, hk⟩ := Value.keysOnce_map.1 hk
    rw [Value.leaves_map] at hf
    obtain ⟨nodes, hns, hnodes⟩ := mapM_fields_ok (n := n) fun e he =>
      entryFieldOf_ok (hkeys e he) ((ih e he (hk e he)
        fun c hc => hf c (List.mem_flatMap.2 ⟨e, he, List.mem_cons_of_mem _ hc⟩)).1 (hp e he))
    rw [← entryFieldsOf_eq_mapM] at hns
    refine field ⟨.map hkeys hp h, rfl⟩ ⟨tableConstructor nodes, ?_,
      readsAs_tableConstructor Bool.false_ne_true (Value.nesting_properties entries).symm
        (Value.normal_map hd) hnodes⟩
    rw [expression, hns]
    rfl
  | @property k v hkey hp h ih =>
    intro hk hf
    rw [Value.keysOnce_property] at hk
    rw [Value.leaves_property, List.forall_mem_cons] at hf
    obtain ⟨e, he, hr⟩ := (ih hk hf.2).1 hp
    obtain ⟨kn, hkn, hs⟩ := literal_stands (n := n) (Value.isLeaf_of_isPropertyKey hkey) hf.1
    refine ⟨(fun h => by cases h), keyedField kn e, .keyed k e, ?_, fieldNode_keyed ?_ hs hr⟩
    · rw [fieldOf, hkn, he]
      rfl
    · cases k <;> first | rfl | cases hkey

/-! ## Chunks -/

/-- What comes back as a value is read as it from a chunk that returns it. -/
theorem ReadsAs.returned {v e : Value} (h : ReadsAs n v e) (deep : (v.nesting : Int) < n) :
    (read (.int n) (.ofValue (chunk [returnStatement [e]]))).outcome = .ok v.normalForm := by
  have hv := h.whole (fullReach - chunkCost - singleCost) 0 (by omega)
  rw [read, Run.outcome_filterSteps, walk, Document.ofValue, visit_returned, Run.outcome_bind, hv]
  rfl

/-- The expression of data that a walk accepts, returned by a chunk, comes back as the normal
form of the data. -/
theorem read_expression {d : Document} (wf : d.WellFormed) {limit w : Value}
    (accepted : (d.walk .values limit).outcome = .ok w)
    (finite : ∀ c ∈ d.unfolded.leaves, c.isFinite) (deep : (d.unfolded.nesting : Int) < n) :
    ∃ e, expression d.unfolded = .ok e ∧
      (read (.int n) (.ofValue (chunk [returnStatement [e]]))).outcome =
        .ok d.unfolded.normalForm := by
  obtain ⟨hd, -, -⟩ := Document.walk_told rfl accepted
  obtain ⟨e, he, hr⟩ := (expression_reads (n := n) hd.1 (wf.keysOnce hd) finite).1 hd.2
  refine ⟨e, he, ?_⟩
  have hv := hr.whole (fullReach - chunkCost - singleCost) 0 (by omega)
  rw [read, Run.outcome_filterSteps, walk, Document.ofValue, visit_returned, Run.outcome_bind,
    hv]
  rfl

/-- A map in which one key is no name comes back as a list of properties. -/
theorem read_expression_map :
    let v : Value := .map [(.text "a", .list [.nil, .int (-3)]), (.text "b c", .text "\n")]
    ∃ e, expression v = .ok e ∧
      (read (.int 3) (.ofValue (chunk [returnStatement [e]]))).outcome =
        .ok (.list [.property (.text "a") (.list [.int (-3)]),
          .property (.text "b c") (.text "\\n")]) := by
  intro v
  have hi : v.IsItem := by
    simp only [v, Value.isItem_map, Value.IsData, List.forall_mem_cons]
    exact ⟨⟨rfl, (Value.isItem_sequence .list).2 (List.forall_mem_cons.2 ⟨.leaf rfl,
      List.forall_mem_singleton.2 (.leaf rfl)⟩), rfl⟩, ⟨rfl, .leaf rfl, rfl⟩,
      fun e he => by cases he⟩
  have hk : v.keysOnce := Value.keysOnce_map.2 ⟨by simp [distinctKeys],
    List.forall_mem_cons.2 ⟨rfl, List.forall_mem_singleton.2 rfl⟩⟩
  have hfits : Walk.Fits (Document.limitOf (3 : Int)) 0 v.nesting :=
    Document.fits_limitOf.2 (by decide)
  have hfinite : ∀ c ∈ (Document.ofValue v).unfolded.leaves, c.isFinite := by
    rw [Document.unfolded_ofValue]
    decide +kernel
  obtain ⟨e, he, hr⟩ := read_expression (n := 3) (Document.wellFormed_ofValue hi hk)
    (by rw [Document.walk_ofValue rfl ⟨hi, rfl⟩ hfits]; rfl) hfinite
    (by rw [Document.unfolded_ofValue]; decide)
  rw [Document.unfolded_ofValue] at he hr
  refine ⟨e, he, hr.trans (congrArg Except.ok ?_)⟩
  rfl

end Node

end LuaData
