import LuaData.Proofs.Node.Arrival

/-
  Tables with a field that cannot be read. All fields of a table and their keys are read before
  any of its values. So a walk that comes to the table fails with the first field that is
  malformed (`Malformed`), whatever the values are, and makes no call for the table: the calls
  are those that it has made on its way (`Arrives`). Only a tree with references can use up the
  reach before that; for all others see `Node.walk_ofValue_malformed`.
-/

namespace LuaData

open Relation (ReflTransGen TransGen)
open Document (Part deref)

namespace Node

variable {α β : Type} {b : Builder α β} {table : List Value} {limit : Value} {n : Int}
  {reach level : Nat} {v w : Value} {items : List Value}

/-! ## Malformed fields -/

/-- Why a node is no constant under the limit `n`. -/
inductive KeyFault (table : List Value) (n : Int) : Nat → Value → Failure → Prop
  | notLiteral {level : Nat} {v : Value} (form : scalarForm (deref table v) = .other) :
      KeyFault table n level v (misfit table .notLiteral v)
  | badOperator {level : Nat} {v op : Value} (form : scalarForm (deref table v) = .operator op) :
      KeyFault table n level v (fault table (.badOperator (op.shownIn table)) v)
  | tooDeep {level : Nat} {v w : Value} (form : scalarForm (deref table v) = .negation w)
      (deep : ¬ ((level + 1 : Nat) : Int) ≤ n) : KeyFault table n level v (.tooDeep (.int n))
  | operand {level : Nat} {v w : Value} {e : Failure}
      (form : scalarForm (deref table v) = .negation w) (fits : ((level + 1 : Nat) : Int) ≤ n)
      (h : KeyFault table n (level + 1) w e) : KeyFault table n level v e
  | badOperand {level : Nat} {v w c : Value} (form : scalarForm (deref table v) = .negation w)
      (fits : ((level + 1 : Nat) : Int) ≤ n) (constant : Scalar table n (level + 1) w c)
      (number : c.properNumber? = none) : KeyFault table n level v (fault table .badOperand v)

/-- Why a node is no field of a table: it is no field at all, its key is no constant, or its key
is neither a text nor a number. -/
inductive Malformed (table : List Value) (n : Int) (level : Nat) (v : Value) : Failure → Prop
  | notField (form : fieldForm (deref table v) = .other) :
      Malformed table n level v (misfit table .notField v)
  | keyFault {k node : Value} {e : Failure} (form : fieldForm (deref table v) = .keyed k node)
      (h : KeyFault table n level k e) : Malformed table n level v e
  | badKey {k node c : Value} (form : fieldForm (deref table v) = .keyed k node)
      (constant : Scalar table n level k c) (key : ¬ isKey c) :
      Malformed table n level v (fault table .badKey k)

/-- A negation is a level above its operand, so the limit ends every chain of them. -/
theorem scalar_or_keyFault (level : Nat) (v : Value) :
    (∃ c, Scalar table n level v c) ∨ ∃ e, KeyFault table n level v e := by
  induction hk : (n - level).toNat using Nat.strongRecOn generalizing level v with
  | ind k ih =>
    cases form : scalarForm (deref table v) with
    | nil => exact Or.inl ⟨_, scalar_iff.2 (by rw [form])⟩
    | constant d => exact Or.inl ⟨_, scalar_iff.2 (by rw [form])⟩
    | operator op => exact Or.inr ⟨_, .badOperator form⟩
    | other => exact Or.inr ⟨_, .notLiteral form⟩
    | negation w =>
      by_cases fits : ((level + 1 : Nat) : Int) ≤ n
      · rcases ih _ (by omega) (level + 1) w rfl with ⟨c, constant⟩ | ⟨e, h⟩
        · cases number : c.properNumber? with
          | none => exact Or.inr ⟨_, .badOperand form fits constant number⟩
          | some m =>
            refine Or.inl ⟨.number m.negate, scalar_iff.2 ?_⟩
            rw [form]
            exact ⟨fits, c, m, constant, number, rfl⟩
        · exact Or.inr ⟨e, .operand form fits h⟩
      · exact Or.inr ⟨_, .tooDeep form fits⟩

theorem KeyFault.not_scalar {e : Failure} (h : KeyFault table n level v e) :
    ¬ ∃ c, Scalar table n level v c := by
  induction h with
  | notLiteral form =>
    rintro ⟨c, hc⟩
    rw [scalar_iff, form] at hc
    exact hc
  | badOperator form =>
    rintro ⟨c, hc⟩
    rw [scalar_iff, form] at hc
    exact hc
  | tooDeep form deep =>
    rintro ⟨c, hc⟩
    rw [scalar_iff, form] at hc
    exact deep hc.1
  | operand form _ _ ih =>
    rintro ⟨c, hc⟩
    rw [scalar_iff, form] at hc
    obtain ⟨-, d, -, hd, -⟩ := hc
    exact ih ⟨d, hd⟩
  | badOperand form _ constant number =>
    rintro ⟨c, hc⟩
    rw [scalar_iff, form] at hc
    obtain ⟨-, d, m, hd, hm, -⟩ := hc
    rw [hd.unique constant, number] at hm
    cases hm

/-- The nodes that are read as fields, by their form. -/
theorem exists_readAs_iff : (∃ f, ReadAs table n level v f) ↔
    match fieldForm (deref table v) with
    | .keyed k _ => ∃ c, Scalar table n level k c ∧ isKey c
    | .positional _ => True
    | .other => False := by
  constructor
  · rintro ⟨f, h⟩
    cases h with
    | keyed form constant key => rw [form]; exact ⟨_, constant, key⟩
    | positional form => rw [form]; trivial
  · cases form : fieldForm (deref table v) with
    | keyed k node =>
      rintro ⟨c, constant, key⟩
      exact ⟨_, .keyed form constant key⟩
    | positional node => exact fun _ => ⟨_, .positional form⟩
    | other => exact False.elim

/-- The nodes that are malformed, by their form. -/
theorem malformed_iff {e : Failure} : Malformed table n level v e ↔
    match fieldForm (deref table v) with
    | .keyed k _ => KeyFault table n level k e ∨
        ∃ c, Scalar table n level k c ∧ ¬ isKey c ∧ e = fault table .badKey k
    | .positional _ => False
    | .other => e = misfit table .notField v := by
  constructor
  · intro h
    cases h with
    | notField form => rw [form]
    | keyFault form h => rw [form]; exact Or.inl h
    | badKey form constant key => rw [form]; exact Or.inr ⟨_, constant, key, rfl⟩
  · cases form : fieldForm (deref table v) with
    | keyed k node =>
      rintro (h | ⟨c, constant, key, rfl⟩)
      · exact .keyFault form h
      · exact .badKey form constant key
    | positional node => exact False.elim
    | other => rintro rfl; exact .notField form

/-- A node is either malformed or read as a field. -/
theorem exists_malformed_iff :
    (∃ e, Malformed table n level v e) ↔ ¬ ∃ f, ReadAs table n level v f := by
  simp only [exists_readAs_iff, malformed_iff]
  cases fieldForm (deref table v) with
  | keyed k node =>
    have key : (∃ c, Scalar table n level k c) ∨ ∃ e, KeyFault table n level k e :=
      scalar_or_keyFault level k
    rcases key with ⟨c, constant⟩ | ⟨e, fault⟩
    · have same : ∀ d, Scalar table n level k d → d = c := fun d hd => hd.unique constant
      constructor
      · rintro ⟨e, h | ⟨d, hd, key, -⟩⟩ ⟨c', hc', key'⟩
        · exact h.not_scalar ⟨c, constant⟩
        · exact key (same d hd ▸ same c' hc' ▸ key')
      · exact fun h => ⟨_, Or.inr ⟨c, constant, fun key => h ⟨c, constant, key⟩, rfl⟩⟩
    · exact iff_of_true ⟨e, Or.inl fault⟩ fun h => fault.not_scalar (h.imp fun _ hc => hc.1)
  | positional node => exact iff_of_false (fun h => h.elim fun _ hf => hf) fun h => h trivial
  | other => exact iff_of_true ⟨_, rfl⟩ id

/-! ## Reading malformed fields

A reading also stops where references are looked up without any reach left. -/

theorem Ends.of_allowed {γ : Type} {E : Prop} {made : γ → Prop} {P : Int → Prop}
    {x : Except Failure γ} (h : Ends E n made P x) (allowed : P n) :
    (∃ r, x = .ok r ∧ made r) ∨ x = .error .endless ∧ E := by
  cases h with
  | ok _ made => exact Or.inl ⟨_, rfl, made⟩
  | tooDeep refused => exact absurd allowed refused
  | node refused => exact absurd allowed (refused n)
  | endless h => exact Or.inr ⟨rfl, h⟩

/-- Something fails with `e`, or for want of reach. -/
def FailsWith {γ : Type} (E : Prop) (e : Failure) (x : Except Failure γ) : Prop :=
  x = .error e ∨ x = .error .endless ∧ E

namespace FailsWith

variable {γ δ : Type} {E F : Prop} {e : Failure} {x : Except Failure γ}

theorem bind (h : FailsWith E e x) (f : γ → Except Failure δ) : FailsWith E e (x >>= f) := by
  rcases h with rfl | ⟨rfl, h⟩
  · exact Or.inl rfl
  · exact Or.inr ⟨rfl, h⟩

theorem mono (h : FailsWith E e x) (hEF : E → F) : FailsWith F e x :=
  h.imp_right fun hx => ⟨hx.1, hEF hx.2⟩

/-- What goes well, but for want of reach, leaves the failure to what follows. -/
theorem of_allowed {made : γ → Prop} {P : Int → Prop} {f : γ → Except Failure δ}
    (hx : Ends E n made P x) (allowed : P n)
    (h : ∀ r, x = .ok r → made r → FailsWith E e (f r)) : FailsWith E e (x >>= f) := by
  rcases hx.of_allowed allowed with ⟨r, hr, hmade⟩ | ⟨rfl, hE⟩
  · rw [hr]
    exact h r hr hmade
  · exact Or.inr ⟨rfl, hE⟩

theorem follow {root : Value} {f : Value → Except Failure γ}
    (h : FailsWith (Endless table reach root) e (f (deref table v))) :
    FailsWith (Endless table reach root) e (Node.follow table reach v >>= f) :=
  of_allowed (follow_ends (n := 0)) trivial fun _ _ hu => hu ▸ h

end FailsWith

theorem KeyFault.scalar {e : Failure} (h : KeyFault table n level v e) :
    FailsWith (Endless table reach v) e (scalar table (.int n) reach level v) := by
  induction h generalizing reach with
  | notLiteral form =>
    rw [scalar_eq]
    refine .follow ?_
    simp only [form]
    exact Or.inl rfl
  | badOperator form =>
    rw [scalar_eq]
    refine .follow ?_
    simp only [form]
    exact Or.inl rfl
  | tooDeep form deep =>
    rw [scalar_eq]
    refine .follow ?_
    simp only [form, Value.checkLevel_int, if_neg deep]
    exact Or.inl rfl
  | operand form fits _ ih =>
    rw [scalar_eq]
    refine .follow ?_
    simp only [form, Value.checkLevel_int, if_pos fits, ok_bind]
    have hpart : Part table _ _ := Has.part (scalarForm_eq_negation.1 form).2.2
    exact (ih.mono (.below (by decide) (.single hpart))).bind _
  | badOperand form fits constant number =>
    rw [scalar_eq]
    refine .follow ?_
    simp only [form, Value.checkLevel_int, if_pos fits, ok_bind]
    have hpart : Part table _ _ := Has.part (scalarForm_eq_negation.1 form).2.2
    refine .of_allowed ((scalar_ends (reach - negationCost) _ _).mono
      (.below (by decide) (.single hpart))) ⟨_, constant⟩ fun d _ hd => ?_
    rw [hd.unique constant, number]
    exact Or.inl rfl

theorem Malformed.readField {e : Failure} (h : Malformed table n level v e) :
    FailsWith (Endless table reach v) e (readField table (.int n) reach level v) := by
  refine .follow ?_
  cases h with
  | notField form =>
    simp only [form]
    exact Or.inl rfl
  | keyFault form h =>
    simp only [form]
    have hpart : Part table v _ := Has.part (v := v) (fieldForm_eq_keyed.1 form).2.1
    exact (h.scalar.mono (.up (.single hpart))).bind _
  | badKey form constant key =>
    simp only [form]
    have hpart : Part table v _ := Has.part (v := v) (fieldForm_eq_keyed.1 form).2.1
    refine .of_allowed ((scalar_ends reach _ _).mono (.up (.single hpart))) ⟨_, constant⟩
      fun d _ hd => ?_
    rw [hd.unique constant, if_neg key]
    exact Or.inl rfl

/-- Where the nodes before a malformed one are fields, the reading fails with that one. -/
theorem readFields_malformed {E : Prop} {before after : List Value} {bad : Value} {e : Failure}
    (below : ∀ w ∈ before ++ bad :: after, Endless table reach w → E)
    (fields : ∀ w ∈ before, ∃ f, ReadAs table n level w f)
    (malformed : Malformed table n level bad e) :
    FailsWith E e (readFields table (.int n) reach level (before ++ bad :: after)) := by
  induction before with
  | nil => exact (malformed.readField.mono (below bad List.mem_cons_self)).bind _
  | cons w rest ih =>
    obtain ⟨hw, hrest⟩ := List.forall_mem_cons.1 fields
    obtain ⟨hbelow, hbelows⟩ := List.forall_mem_cons.1 below
    exact .of_allowed (readField_ends.mono hbelow) hw fun _ _ _ => (ih hbelows hrest).bind _

/-! ## Tables with malformed fields -/

/-- There is nothing inside of a text to use up reach with. -/
theorem Endless.of_text {s : String} (h : Endless table reach (.text s)) (w : Value) :
    Endless table reach w := by
  obtain ⟨shared, k, hk, nests⟩ := h
  cases k with
  | zero => exact ⟨shared, 0, hk, trivial⟩
  | succ k =>
    obtain ⟨x, hx, -⟩ := nests
    cases hx

theorem tableFields_malformed {fields : Value} {before after : List Value} {bad : Value}
    {e : Failure} (list : (deref table fields).elements? = some (before ++ bad :: after))
    (fits : (level : Int) ≤ n) (read : ∀ w ∈ before, ∃ f, ReadAs table n level w f)
    (malformed : Malformed table n level bad e) :
    FailsWith (Endless table reach fields) e
      (tableFields table (.int n) reach level fields) := by
  rw [tableFields, Value.checkLevel_int, if_pos fits, ok_bind, elements, bind_assoc]
  refine .follow ?_
  rw [list]
  refine readFields_malformed (fun w hw h => ?_) read malformed
  rcases Value.mem_parts_of_elements? list hw with hpart | ⟨s, rfl⟩
  · exact h.up (.single hpart)
  · exact h.of_text fields

/-- A table with a malformed field makes no call. -/
theorem told_malformed {fields : Value} {before after : List Value} {bad : Value} {e : Failure}
    (form : form table (deref table v) = .table fields)
    (list : (deref table fields).elements? = some (before ++ bad :: after))
    (fits : ((level + 1 : Nat) : Int) ≤ n)
    (read : ∀ w ∈ before, ∃ f, ReadAs table n (level + 1) w f)
    (malformed : Malformed table n (level + 1) bad e) :
    told b table (.int n) reach level v = ⟨[], .error e⟩ ∨
      told b table (.int n) reach level v = ⟨[], .error .endless⟩ ∧ Endless table reach v := by
  have seen : Ends (Endless table reach v) n (· = deref table v) (fun _ => True)
      (follow table reach v) := follow_ends
  have unread : FailsWith (Endless table reach fields) e
      (tableFields table (.int n) reach (level + 1) fields) :=
    tableFields_malformed list fits read malformed
  rcases seen.of_allowed trivial with ⟨_, hu, rfl⟩ | ⟨hu, endless⟩
  · have fails : ∀ e, tableFields table (.int n) reach (level + 1) fields = .error e →
        told b table (.int n) reach level v = ⟨[], .error e⟩ := by
      intro e he
      rw [told, visit_eq, hu, Run.ofExcept_ok_bind, form]
      simp only [he, Run.ofExcept_error_bind]
      rfl
    have hpart : Part table v fields := mem_parts_of_form (Or.inl form)
    exact unread.imp (fails e) fun h => ⟨fails _ h.1, h.2.up (.single hpart)⟩
  · refine Or.inr ⟨?_, endless⟩
    rw [told, visit_eq, hu]
    rfl

/-- That the first of some nodes that is malformed fails with `e`. -/
def FirstMalformed (table : List Value) (n : Int) (level : Nat) (items : List Value)
    (e : Failure) : Prop :=
  ∃ before w after, items = before ++ w :: after ∧
    (∀ x ∈ before, ¬ ∃ e, Malformed table n level x e) ∧ Malformed table n level w e

theorem exists_firstMalformed (h : ∃ w ∈ items, ∃ e, Malformed table n level w e) :
    ∃ e, FirstMalformed table n level items e := by
  classical
  obtain ⟨w, hw, malformed⟩ := h
  have found : (items.find? fun w => decide (∃ e, Malformed table n level w e)).isSome :=
    List.find?_isSome.2 ⟨w, hw, decide_eq_true malformed⟩
  obtain ⟨bad, hbad⟩ := Option.isSome_iff_exists.1 found
  obtain ⟨malformed, before, after, split, first⟩ := List.find?_eq_some_iff_append.1 hbad
  obtain ⟨e, malformed⟩ := of_decide_eq_true malformed
  exact ⟨e, before, bad, after, split, fun w hw => by simpa using first w hw, malformed⟩

/-- A walk that comes to a table with a malformed node fails there, or its reach ends on the way
through the fields that come before. -/
theorem arrives_malformed {tree : Document} {fields : Value} {trail : List (Event α)}
    (arrives : Arrives b tree.table (.int n) reach level v fullReach 0 tree.root trail)
    (form : form tree.table (deref tree.table v) = .table fields)
    (list : (deref tree.table fields).elements? = some items)
    (fits : ((level + 1 : Nat) : Int) ≤ n)
    (bad : ∃ w ∈ items, ∃ e, Malformed tree.table n (level + 1) w e) :
    ∃ e, FirstMalformed tree.table n (level + 1) items e ∧
      ((walk b (.int n) tree).filterSteps Step.event? = ⟨trail, .error e⟩ ∨
        (walk b (.int n) tree).filterSteps Step.event? = ⟨trail, .error .endless⟩ ∧
          Endless tree.table fullReach tree.root) := by
  obtain ⟨e, before, w, after, rfl, first, malformed⟩ := exists_firstMalformed bad
  have read : ∀ x ∈ before, ∃ f, ReadAs tree.table n (level + 1) x f :=
    fun x hx => not_not.1 (mt exists_malformed_iff.2 (first x hx))
  have isOpen : (Node.form tree.table (deref tree.table v)).isOpen := by
    rw [form]
    rfl
  have fails : ∀ e, told b tree.table (.int n) reach level v = ⟨[], .error e⟩ →
      (walk b (.int n) tree).filterSteps Step.event? = ⟨trail, .error e⟩ := by
    intro e he
    have hroot := arrives.told_error isOpen he
    rw [told, List.append_nil] at hroot
    rw [walk, Run.filterSteps_bind, hroot, Run.bind_error]
  refine ⟨e, ⟨before, w, after, rfl, first, malformed⟩, ?_⟩
  exact (told_malformed form list fits read malformed).imp (fails e) fun h =>
    ⟨fails _ h.1, arrives.endless isOpen h.2⟩

/-- A walk that comes to a table within the limit, of which some node is malformed, fails with the
first such node, whatever the values of the fields are. It makes no call for the table or for what
is inside of it: its calls are those on the way to the table. A tree with references that encloses
itself or nests very deep can use up the reach before that. -/
theorem walk_malformed {tree : Document} {fields : Value} {trail : List (Event α)}
    (arrives : Arrives b tree.table (.int n) reach level v fullReach 0 tree.root trail)
    (form : form tree.table (deref tree.table v) = .table fields)
    (list : (deref tree.table fields).elements? = some items)
    (fits : ((level + 1 : Nat) : Int) ≤ n)
    (bad : ∃ w ∈ items, ∃ e, Malformed tree.table n (level + 1) w e) :
    ∃ before w after e, items = before ++ w :: after ∧
      (∀ x ∈ before, ¬ ∃ e, Malformed tree.table n (level + 1) x e) ∧
      Malformed tree.table n (level + 1) w e ∧
      ((walk b (.int n) tree).filterSteps Step.event? = ⟨trail, .error e⟩ ∨
        (walk b (.int n) tree).filterSteps Step.event? = ⟨trail, .error .endless⟩ ∧
          tree.table ≠ [] ∧ Nests tree.table 165 tree.root) := by
  obtain ⟨e, ⟨before, w, after, split, first, malformed⟩, fails⟩ :=
    arrives_malformed arrives form list fits bad
  exact ⟨before, w, after, e, split, first, malformed,
    fails.imp_right fun h => ⟨h.1, h.2.full⟩⟩

/-- A table in a table has nil for a key; the item before that table has been told. -/
theorem walk_malformed_nil_key :
    let inner := tableConstructor [keyedField nil (numeral (.int 2))]
    let tree := Document.ofValue (chunk [returnStatement [tableConstructor
      [positionalField (numeral (.int 1)), positionalField inner]]])
    (walk .values (.int 2) tree).filterSteps Step.event? =
      ⟨[.startSequence 2, .constant (.int 1)], .error (fault [] .badKey nil)⟩ := by
  intro inner tree
  let outer : List Field := [.positional (numeral (.int 1)), .positional inner]
  have present : outer.filter (!·.isAbsent []) = outer := by
    simp [outer, inner, Field.isAbsent, numeral, tableConstructor, Tag.text]
  have earlier : [Field.positional (numeral (.int 1))].mapM
      (itemOf .values (toldValue .values [] (.int 2) 981 1)) =
      ⟨[.constant (.int 1)], .ok [.int 1]⟩ := by
    rw [List.mapM_cons, itemOf, toldValue_numeral]
    rfl
  have drawn : Builder.values.drawn (outer.filter (!·.isAbsent [])) =
      [.positional (numeral (.int 1))] ++ .positional inner :: [] := by
    rw [present]
    rfl
  have table : Enters .values [] (.int 2) 987 0
      (tableConstructor [positionalField (numeral (.int 1)), positionalField inner])
      [.startSequence 2, .constant (.int 1)] 981 1 inner := by
    have read : ReadTable [] (.int 2) 987 0 (tableConstructor [positionalField (numeral (.int 1)),
        positionalField inner]) _ outer :=
      ⟨constructs_tableConstructor _, rfl, .cons (readField_positionalField _)
        (.cons (readField_positionalField inner) .nil)⟩
    have enters := Enters.field read (not_byName_of_positional List.mem_cons_self) drawn earlier
    rw [present] at enters
    exact enters
  have arrives : Arrives .values tree.table (.int 2) 981 1 inner fullReach 0 tree.root
      [.startSequence 2, .constant (.int 1)] :=
    .step (.first (follow_nil _ tree.root) (form_chunk [] _) rfl)
      (.step (.one (follow_nil _ _) (form_returnStatement [] _) rfl) (.step table .here))
  have form : fieldForm (deref [] (keyedField nil (numeral (.int 2)))) =
      .keyed nil (numeral (.int 2)) := by
    rw [Document.deref_nil, fieldForm_keyedField]
  have constant : Scalar [] 2 2 nil .nil := .nil (by rw [Is, Document.deref_nil, nil, tag?_node])
  have key : ¬ isKey .nil := by decide
  obtain ⟨before, w, after, e, hitems, -, malformed, fails⟩ := walk_malformed
    arrives (form_tableConstructor [] _) rfl (by decide)
    ⟨_, List.mem_singleton_self _, _, .badKey form constant key⟩
  -- There is only one field, and only its key is wrong.
  obtain ⟨rfl, rfl, rfl⟩ : before = [] ∧ w = keyedField nil (numeral (.int 2)) ∧ after = [] := by
    cases before with
    | nil => cases hitems; exact ⟨rfl, rfl, rfl⟩
    | cons x rest => cases rest <;> cases hitems
  have reason : Malformed [] 2 2 (keyedField nil (numeral (.int 2))) e := malformed
  rw [malformed_iff, form] at reason
  obtain rfl : e = fault [] .badKey nil := by
    rcases reason with h | ⟨-, -, -, he⟩
    · exact absurd ⟨_, constant⟩ h.not_scalar
    · exact he
  rcases fails with told | ⟨-, shared, -⟩
  · exact told
  · exact absurd rfl shared

/-- In a tree without references a walk always fails with the first malformed node that it
comes to. -/
theorem walk_ofValue_malformed {root fields : Value} {trail : List (Event α)}
    (arrives : Arrives b [] (.int n) reach level v fullReach 0 root trail)
    (form : form [] v = .table fields) (list : fields.elements? = some items)
    (fits : ((level + 1 : Nat) : Int) ≤ n)
    (bad : ∃ w ∈ items, ∃ e, Malformed [] n (level + 1) w e) :
    ∃ e, FirstMalformed [] n (level + 1) items e ∧
      (walk b (.int n) (.ofValue root)).filterSteps Step.event? = ⟨trail, .error e⟩ := by
  have whole : Arrives b (Document.ofValue root).table (.int n) reach level v fullReach 0
      (Document.ofValue root).root trail := arrives
  rw [← Document.deref_nil v] at form
  rw [← Document.deref_nil fields] at list
  obtain ⟨e, first, fails⟩ := arrives_malformed whole form list fits bad
  exact ⟨e, first, fails.resolve_right fun h => not_endless_nil h.2⟩

end Node

end LuaData
