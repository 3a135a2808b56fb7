import LuaData.Proofs.Node.Grammar
import LuaData.Proofs.Node.Shape

/-
  Built nodes in the grammar of trees: when each of them stands for a value, and that the trees
  made of them are shaped as the grammar asks for.
-/

namespace LuaData

open Document (Part deref)

namespace Node

variable {table : List Value} {n : Int} {level : Nat} {v c : Value}

/-! ## Grammar -/

theorem reducible_of_isScalar {tag : Tag} (h : tag.isScalar) (entries : List (String × Value)) :
    Reducible table n level (node tag entries) ↔
      ∃ c, Scalar table n level (node tag entries) c := by
  have hform : form table (deref table (node tag entries)) = .scalar := form_of_isScalar h entries
  rw [reducible_iff, hform]

theorem reducible_tableConstructor {nodes : List Value} :
    Reducible table n level (tableConstructor nodes) ↔ ((level + 1 : Nat) : Int) ≤ n ∧
      ∀ f ∈ nodes, ReducibleField table n (level + 1) f := by
  have hform : form table (deref table (tableConstructor nodes)) = .table (.list nodes) :=
    form_tableConstructor table nodes
  have hlist : Lists table (.list nodes) nodes := rfl
  rw [reducible_iff, hform]
  simp only [exists_lists_iff hlist]

theorem reducible_returned {e : Value} :
    Reducible table n level (chunk [returnStatement [e]]) ↔ Reducible table n level e := by
  have hchunk : form table (deref table (chunk [returnStatement [e]])) =
    .chunk (some (.list [returnStatement [e]])) := form_chunk table _
  have hreturn : form table (deref table (returnStatement [e])) = .statement (.list [e]) :=
    form_returnStatement table _
  have hbody : Lists table (.list [returnStatement [e]]) [returnStatement [e]] := rfl
  have hexprs : Lists table (.list [e]) [e] := rfl
  rw [reducible_iff, hchunk]
  simp only [exists_lists_iff hbody, List.head?_cons, Option.mem_some_iff, exists_eq_left']
  rw [reducible_iff, hreturn]
  simp only [exists_lists_iff hexprs, List.forall_mem_singleton]

theorem reducibleField_keyedField {k w : Value} :
    ReducibleField table n level (keyedField k w) ↔
      (∃ c, Scalar table n level k c ∧ isKey c) ∧ Reducible table n level w := by
  have hform : fieldForm (deref table (keyedField k w)) = .keyed k w := fieldForm_keyedField k w
  rw [reducibleField_iff, hform]

theorem reducibleField_positionalField {w : Value} :
    ReducibleField table n level (positionalField w) ↔ Reducible table n level w := by
  have hform : fieldForm (deref table (positionalField w)) = .positional w :=
    fieldForm_positionalField w
  rw [reducibleField_iff, hform]

/-- A node with a leaf for its constant stands for that leaf at every level. -/
theorem scalar_of_leaf {tag : Tag} {entries : List (String × Value)} {d : Value}
    (h : scalarForm (node tag entries) = .constant d) (hl : d.isLeaf) :
    Scalar table n level (node tag entries) c ↔ c = d := by
  have hform : scalarForm (deref table (node tag entries)) = .constant d := h
  rw [scalar_iff, hform]
  show c = Document.unfold table [] d ↔ c = d
  rw [Document.unfold_leaf hl]

/-- A negation stands for a constant one level further in. -/
theorem scalar_neg_numeral {m : Number} :
    Scalar table n level (neg (numeral (.number m))) c ↔
      ((level + 1 : Nat) : Int) ≤ n ∧ c = .number m.negate := by
  have hform : scalarForm (deref table (neg (numeral (.number m)))) =
      .negation (numeral (.number m)) := scalarForm_neg _
  rw [scalar_iff, hform]
  refine and_congr_right fun _ => ⟨?_, ?_⟩
  · rintro ⟨d, k, hd, hk, rfl⟩
    obtain rfl := (scalar_of_leaf (scalarForm_numeral _) rfl).1 hd
    cases hk
    rfl
  · rintro rfl
    exact ⟨.number m, m, (scalar_of_leaf (scalarForm_numeral _) rfl).2 rfl, rfl, rfl⟩

theorem reducibleField_namedField {s : String} {w : Value} :
    ReducibleField table n level (namedField (.text s) w) ↔ Reducible table n level w := by
  have hform : fieldForm (deref table (namedField (.text s) w)) =
      .keyed (identifier (.text s)) w := fieldForm_namedField (.text s) w
  have hname : ∃ c, Scalar table n level (identifier (.text s)) c ∧ isKey c :=
    ⟨.text s, (scalar_of_leaf (scalarForm_identifier s) rfl).2 rfl, rfl⟩
  rw [reducibleField_iff, hform]
  exact and_iff_right hname

/-! ## Shape -/

theorem shaped_of_parts (ht : ∀ t, Has table v "type" t → t.text?.isSome)
    (hl : ∀ name ∈ listNames, ∀ w, Has table v name w → ∃ items, Lists table w items)
    (hp : ∀ w, Part table v w → Shaped table w) : Shaped table v := by
  intro x hx
  rcases hx.cases_head with rfl | ⟨w, hw, hwx⟩
  · exact ⟨ht, hl⟩
  · exact hp w hw x hwx

theorem shaped_leaf (h : v.isLeaf) : Shaped table v := by
  have hget : ∀ name, (deref table v).get? name = none := fun name => by
    cases v <;> first | rfl | cases h
  have hparts : (deref table v).parts = [] := by
    cases v <;> first | rfl | cases h
  refine shaped_of_parts (fun t ht => ?_) (fun name _ w hw => ?_) fun w hw => ?_
  · cases (hget "type").symm.trans ht
  · cases (hget name).symm.trans hw
  · have hmem : w ∈ (deref table v).parts := hw
    rw [hparts] at hmem
    cases hmem

theorem shaped_list {nodes : List Value} (h : ∀ v ∈ nodes, Shaped table v) :
    Shaped table (.list nodes) := by
  have hget : ∀ name, (deref table (.list nodes)).get? name = none := fun _ => rfl
  refine shaped_of_parts (fun t ht => ?_) (fun name _ w hw => ?_) h
  · cases (hget "type").symm.trans ht
  · cases (hget name).symm.trans hw

theorem shaped_node {tag : Tag} {entries : List (String × Value)}
    (hl : ∀ e ∈ entries, e.1 ∈ listNames → ∃ items, e.2 = .list items)
    (hs : ∀ e ∈ entries, Shaped table e.2) : Shaped table (node tag entries) := by
  have hderef : deref table (node tag entries) = node tag entries := rfl
  refine forall_reaches_node ⟨fun t ht => ?_, fun name hname w hw => ?_⟩
    (fun s => shaped_leaf rfl _ .refl) hs
  · rw [Has, hderef, get?_node_type] at ht
    cases ht
    rfl
  · have hne : name ≠ "type" := by rintro rfl; revert hname; decide
    rw [Has, hderef, get?_node _ _ hne, List.lookup_eq_some_iff] at hw
    obtain ⟨before, after, rfl, -⟩ := hw
    obtain ⟨items, rfl⟩ := hl (name, w) (by simp) hname
    exact ⟨items, rfl⟩

theorem shaped_tableConstructor {nodes : List Value} (h : ∀ v ∈ nodes, Shaped table v) :
    Shaped table (tableConstructor nodes) :=
  shaped_node (List.forall_mem_singleton.2 fun _ => ⟨nodes, rfl⟩)
    (List.forall_mem_singleton.2 (shaped_list h))

theorem shaped_keyedField {k w : Value} (hk : Shaped table k) (hw : Shaped table w) :
    Shaped table (keyedField k w) :=
  shaped_node (by simp [listNames]) (List.forall_mem_cons.2 ⟨hk, List.forall_mem_singleton.2 hw⟩)

theorem shaped_namedField {name w : Value} (hn : name.isLeaf) (hw : Shaped table w) :
    Shaped table (namedField name w) := by
  have hkey : Shaped table (identifier name) :=
    shaped_node (by simp [listNames]) (List.forall_mem_singleton.2 (shaped_leaf hn))
  exact shaped_node (by simp [listNames])
    (List.forall_mem_cons.2 ⟨hkey, List.forall_mem_singleton.2 hw⟩)

theorem shaped_positionalField {w : Value} (hw : Shaped table w) :
    Shaped table (positionalField w) :=
  shaped_node (by simp [listNames]) (List.forall_mem_singleton.2 hw)

theorem shaped_returned {e : Value} (h : Shaped table e) :
    Shaped table (chunk [returnStatement [e]]) := by
  have hreturn : Shaped table (returnStatement [e]) :=
    shaped_node (List.forall_mem_singleton.2 fun _ => ⟨[e], rfl⟩)
      (List.forall_mem_singleton.2 (shaped_list (List.forall_mem_singleton.2 h)))
  exact shaped_node
    (List.forall_mem_cons.2 ⟨fun _ => ⟨_, rfl⟩, List.forall_mem_singleton.2 fun _ => ⟨_, rfl⟩⟩)
    (List.forall_mem_cons.2 ⟨shaped_list (List.forall_mem_singleton.2 hreturn),
      List.forall_mem_singleton.2 (shaped_list fun w hw => absurd hw List.not_mem_nil)⟩)

/-- A node with a constant and its text. -/
theorem shaped_constant {tag : Tag} {d raw : Value} (hd : d.isLeaf) (hraw : raw.isLeaf) :
    Shaped table (node tag [("value", d), ("raw", raw)]) :=
  shaped_node (by simp [listNames])
    (List.forall_mem_cons.2 ⟨shaped_leaf hd, List.forall_mem_singleton.2 (shaped_leaf hraw)⟩)

theorem shaped_neg (h : Shaped table v) : Shaped table (neg v) :=
  shaped_node (by simp [listNames])
    (List.forall_mem_cons.2 ⟨shaped_leaf rfl, List.forall_mem_singleton.2 h⟩)

end Node

end LuaData
