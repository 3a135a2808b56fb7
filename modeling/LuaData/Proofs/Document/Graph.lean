import LuaData.Proofs.Walk.Fold

/-
  A document as a graph. The parts of a value are its items, its keys and the values under them;
  a reference has the parts of the value that it names. `Document.unfold_induction` follows the
  way in which a document is written out: into the parts of a value, and into the value that a
  reference names unless that value is being written out already.
-/

namespace LuaData

open Relation (ReflTransGen TransGen)
open Value (IsSequence)

/-- The direct parts of a value: items, keys, and values under keys. -/
def Value.parts (v : Value) : List Value :=
  match v.base with
  | .list items | .tuple items => items
  | .map entries => entries.flatMap fun e => [e.1, e.2]
  | .property k w => [k, w]
  | _ => []

namespace Document

/-- That `w` is a direct part of `v`, or of the value that `v` names. -/
def Part (table : List Value) (v w : Value) : Prop := w ∈ (deref table v).parts

/-- That a value can be reached from the root, part by part. -/
def Reaches (d : Document) (v : Value) : Prop := ReflTransGen (Part d.table) d.root v

/-- The kind of a value that can be shared. -/
def kind? : Value → Option SharedKind
  | .list _ => some .list
  | .tuple _ => some .tuple
  | .map _ => some .map
  | .property .. => some .property
  | _ => none

/-- Each reference that can be reached from `v` names a value of the kind it says. -/
def Linked (table : List Value) (v : Value) : Prop :=
  ∀ kind i w, ReflTransGen (Part table) v (.shared kind i) → table[i]? = some w →
    kind? w = some kind

/-- What the values of a program are like: a reference is the value that it names, and a map
holds a key once. -/
structure WellFormed (d : Document) : Prop where
  linked : Linked d.table d.root
  distinct : ∀ v entries, d.Reaches v → deref d.table v = .map entries →
    distinctKeys (entries.map Prod.fst)

/-! ## Parts -/

theorem deref_of_kind? {table : List Value} {v : Value} {kind : SharedKind}
    (h : kind? v = some kind) : deref table v = v := by
  cases v <;> first | rfl | cases h

theorem deref_shared {table : List Value} (kind : SharedKind) {i : Nat} (h : i < table.length) :
    deref table (.shared kind i) = table[i] := by
  simp [deref, h]

theorem Linked.kind?_eq {table : List Value} {kind : SharedKind} {i : Nat}
    (h : Linked table (.shared kind i)) (hlt : i < table.length) :
    kind? table[i] = some kind :=
  h kind i _ .refl (List.getElem?_eq_getElem hlt)

theorem Linked.of_reaches {table : List Value} {v w : Value} (h : Linked table v)
    (hw : ReflTransGen (Part table) v w) : Linked table w :=
  fun kind i u hu => h kind i u (hw.trans hu)

theorem Linked.of_part {table : List Value} {v w : Value} (h : Linked table v)
    (hw : Part table v w) : Linked table w :=
  h.of_reaches (.single hw)

/-- A reference and the value it names have the same parts. -/
theorem part_shared_iff {table : List Value} {kind : SharedKind} {i : Nat} {w : Value}
    (h : Linked table (.shared kind i)) (hlt : i < table.length) :
    Part table (.shared kind i) w ↔ Part table table[i] w := by
  rw [Part, Part, deref_shared kind hlt, deref_of_kind? (h.kind?_eq hlt)]

/-- What is reached from the value that a reference names, that value apart. -/
theorem reaches_of_named {table : List Value} {kind : SharedKind} {i : Nat} {w : Value}
    (h : Linked table (.shared kind i)) (hlt : i < table.length)
    (hw : ReflTransGen (Part table) table[i] w) :
    w = table[i] ∨ ReflTransGen (Part table) (.shared kind i) w := by
  rcases hw.cases_head with rfl | ⟨u, hu, huw⟩
  · exact Or.inl rfl
  · exact Or.inr (.head ((part_shared_iff h hlt).2 hu) huw)

theorem Linked.named {table : List Value} {kind : SharedKind} {i : Nat}
    (h : Linked table (.shared kind i)) (hlt : i < table.length) : Linked table table[i] := by
  intro l j u hu hj
  rcases reaches_of_named h hlt hu with e | hr
  · have hk := h.kind?_eq hlt
    rw [← e] at hk
    cases hk
  · exact h l j u hr hj

theorem part_sequence {table : List Value} {mk : List Value → Value} (hm : IsSequence mk)
    {items : List Value} {w : Value} : Part table (mk items) w ↔ w ∈ items := by
  cases hm <;> exact Iff.rfl

theorem part_map_key {table : List Value} {entries : List (Value × Value)} {e : Value × Value}
    (h : e ∈ entries) : Part table (.map entries) e.1 :=
  List.mem_flatMap.2 ⟨e, h, List.mem_cons_self⟩

theorem part_map_value {table : List Value} {entries : List (Value × Value)} {e : Value × Value}
    (h : e ∈ entries) : Part table (.map entries) e.2 :=
  List.mem_flatMap.2 ⟨e, h, List.mem_cons_of_mem _ List.mem_cons_self⟩

theorem part_property_key {table : List Value} (k v : Value) :
    Part table (.property k v) k := List.mem_cons_self

theorem part_property_value {table : List Value} (k v : Value) :
    Part table (.property k v) v := List.mem_cons_of_mem _ List.mem_cons_self

/-! ## Writing out -/

theorem unfoldAll_eq_map (table : List Value) (path : List Nat) (items : List Value) :
    unfoldAll table path items = items.map (unfold table path) := by
  induction items with
  | nil => rw [unfoldAll, List.map_nil]
  | cons v rest ih => rw [unfoldAll, ih, List.map_cons]

theorem unfoldEntries_eq_map (table : List Value) (path : List Nat)
    (entries : List (Value × Value)) :
    unfoldEntries table path entries =
      entries.map fun e => (unfold table path e.1, unfold table path e.2) := by
  induction entries with
  | nil => rw [unfoldEntries, List.map_nil]
  | cons e rest ih => obtain ⟨k, v⟩ := e; rw [unfoldEntries, ih, List.map_cons]

variable {table : List Value} {path : List Nat}

theorem unfold_sequence {mk : List Value → Value} (hm : IsSequence mk) (items : List Value) :
    unfold table path (mk items) = mk (items.map (unfold table path)) := by
  cases hm <;> rw [unfold, unfoldAll_eq_map]

theorem unfold_map (entries : List (Value × Value)) :
    unfold table path (.map entries) =
      .map (entries.map fun e => (unfold table path e.1, unfold table path e.2)) := by
  rw [unfold, unfoldEntries_eq_map]

theorem unfold_property (k v : Value) :
    unfold table path (.property k v) =
      .property (unfold table path k) (unfold table path v) := by
  rw [unfold]

theorem unfold_leaf {v : Value} (h : v.isLeaf) : unfold table path v = v := by
  cases v <;> first | (simp only [unfold]; done) | cases h

theorem unfold_shared (kind : SharedKind) {i : Nat} (hi : i ∉ path) (hlt : i < table.length) :
    unfold table path (.shared kind i) = unfold table (i :: path) table[i] := by
  rw [unfold, dif_neg hi, dif_pos hlt]

/-- A value that stays what it is, and no data, when a document is written out. -/
inductive Stuck (table : List Value) (path : List Nat) : Value → Prop
  | foreign (name form : String) : Stuck table path (.foreign name form)
  | derived (name : String) (v : Value) : Stuck table path (.derived name v)
  | onPath (kind : SharedKind) {i : Nat} (hi : i ∈ path) : Stuck table path (.shared kind i)
  | dangling (kind : SharedKind) {i : Nat} (hi : i ∉ path) (hlt : ¬ i < table.length) :
      Stuck table path (.shared kind i)

theorem Stuck.not_isItem {v : Value} (h : Stuck table path v) :
    ¬ (unfold table path v).IsItem := by
  cases h with
  | foreign name form => simp only [unfold]; exact Value.not_isItem_foreign
  | derived name v => rw [unfold]; exact Value.not_isItem_derived
  | onPath kind hi => rw [unfold, dif_pos hi]; exact Value.not_isItem_shared
  | dangling kind hi hlt =>
    rw [unfold, dif_neg hi, dif_neg hlt]; exact Value.not_isItem_shared

/-- Induction along the way in which a document is written out. -/
theorem unfold_induction (table : List Value) {motive : List Nat → Value → Prop}
    (leaf : ∀ path v, v.isLeaf → motive path v)
    (sequence : ∀ path mk items, IsSequence mk → (∀ v ∈ items, motive path v) →
      motive path (mk items))
    (map : ∀ path entries, (∀ e ∈ entries, motive path e.1 ∧ motive path e.2) →
      motive path (.map entries))
    (property : ∀ path k v, motive path k → motive path v → motive path (.property k v))
    (shared : ∀ path kind i (_hi : i ∉ path) (hlt : i < table.length),
      motive (i :: path) table[i] → motive path (.shared kind i))
    (stuck : ∀ path v, Stuck table path v → motive path v) :
    ∀ path v, motive path v
  | path, .list items => sequence path .list items .list fun v hv =>
      have := List.sizeOf_lt_of_mem hv
      unfold_induction table leaf sequence map property shared stuck path v
  | path, .tuple items => sequence path .tuple items .tuple fun v hv =>
      have := List.sizeOf_lt_of_mem hv
      unfold_induction table leaf sequence map property shared stuck path v
  | path, .map entries => map path entries fun e he =>
      have := List.sizeOf_lt_of_mem he
      have : sizeOf e = 1 + sizeOf e.1 + sizeOf e.2 := by cases e; rfl
      ⟨unfold_induction table leaf sequence map property shared stuck path e.1,
        unfold_induction table leaf sequence map property shared stuck path e.2⟩
  | path, .property k v => property path k v
      (unfold_induction table leaf sequence map property shared stuck path k)
      (unfold_induction table leaf sequence map property shared stuck path v)
  | path, .shared kind i =>
      if hi : i ∈ path then stuck path _ (.onPath kind hi)
      else if hlt : i < table.length then
        shared path kind i hi hlt
          (unfold_induction table leaf sequence map property shared stuck (i :: path) table[i])
      else stuck path _ (.dangling kind hi hlt)
  | path, .foreign name form => stuck path _ (.foreign name form)
  | path, .derived name v => stuck path _ (.derived name v)
  | path, .nil => leaf path _ rfl
  | path, .bool b => leaf path _ rfl
  | path, .number n => leaf path _ rfl
  | path, .text s => leaf path _ rfl
termination_by path v => (offPath table path, sizeOf v)
decreasing_by
  all_goals first
    | exact Prod.Lex.left _ _ (offPath_cons_lt hi hlt)
    | (apply Prod.Lex.right
       simp only [Value.list.sizeOf_spec, Value.tuple.sizeOf_spec, Value.map.sizeOf_spec,
         Value.property.sizeOf_spec]
       omega)

end Document

end LuaData
