import LuaData.Value.Basic

/-
  Values with parts that are shared or enclose themselves. A document is a value together with
  the table of the values that its references name. `Document.deref` looks one reference up;
  `Document.unfolded` writes each shared value out where it is referred to and keeps only the
  references of a value to itself. Without a table both leave a value as it is.
-/

namespace LuaData

structure Document where
  table : List Value
  root : Value

namespace Document

/-- A value without references. -/
def ofValue (v : Value) : Document := ⟨[], v⟩

/-- The value that a reference names, its parts being as they stand in the table. -/
def deref (table : List Value) : Value → Value
  | .shared kind i => table[i]?.getD (.shared kind i)
  | v => v

@[simp] theorem deref_nil (v : Value) : deref [] v = v := by
  cases v <;> rfl

/-- How many shared values are not on a path. -/
def offPath (table : List Value) (path : List Nat) : Nat :=
  (List.range table.length).countP (· ∉ path)

theorem offPath_cons_lt {table : List Value} {path : List Nat} {i : Nat}
    (hi : i ∉ path) (hlt : i < table.length) :
    offPath table (i :: path) < offPath table path := by
  unfold offPath
  have hmem : i ∈ List.range table.length := List.mem_range.2 hlt
  have key : ∀ (l : List Nat), (l.countP (· ∉ i :: path) ≤ l.countP (· ∉ path)) ∧
      (i ∈ l → l.countP (· ∉ i :: path) < l.countP (· ∉ path)) := by
    intro l
    induction l with
    | nil => simp
    | cons j l ih =>
      obtain ⟨h1, h2⟩ := ih
      simp only [List.countP_cons, List.mem_cons]
      by_cases hj : j = i
      · subst hj
        simp [hi]
        simp only [List.mem_cons, not_or, Bool.decide_and] at h1
        simp at h1 ⊢
        omega
      · have hji : ¬ i = j := fun e => hj e.symm
        simp only [hj, hji, false_or]
        simp only [List.mem_cons] at h1 h2
        constructor
        · omega
        · intro hl; have := h2 hl; omega
  exact (key _).2 hmem

mutual

/-- A value with its references written out, except those to a value on the path. -/
def unfold (table : List Value) (path : List Nat) : Value → Value
  | .list items => .list (unfoldAll table path items)
  | .tuple items => .tuple (unfoldAll table path items)
  | .map entries => .map (unfoldEntries table path entries)
  | .property k v => .property (unfold table path k) (unfold table path v)
  | .derived name v => .derived name (unfold table path v)
  | .shared kind i =>
    if hi : i ∈ path then .shared kind i
    else if hlt : i < table.length then unfold table (i :: path) table[i]
    else .shared kind i
  | v => v
termination_by v => (offPath table path, sizeOf v)
decreasing_by
  all_goals first
    | exact Prod.Lex.left _ _ (offPath_cons_lt hi hlt)
    | (apply Prod.Lex.right; simp; try omega)

def unfoldAll (table : List Value) (path : List Nat) : List Value → List Value
  | [] => []
  | v :: rest => unfold table path v :: unfoldAll table path rest
termination_by items => (offPath table path, sizeOf items)

def unfoldEntries (table : List Value) (path : List Nat) :
    List (Value × Value) → List (Value × Value)
  | [] => []
  | (k, v) :: rest =>
    (unfold table path k, unfold table path v) :: unfoldEntries table path rest
termination_by entries => (offPath table path, sizeOf entries)

end

mutual

@[simp] theorem unfold_nil (path : List Nat) : (v : Value) → unfold [] path v = v
  | .list items => by simp [unfold, unfoldAll_nil]
  | .tuple items => by simp [unfold, unfoldAll_nil]
  | .map entries => by simp [unfold, unfoldEntries_nil]
  | .property k v => by simp [unfold, unfold_nil path k, unfold_nil path v]
  | .derived _ v => by simp [unfold, unfold_nil path v]
  | .shared .. => by simp [unfold]
  | .nil | .bool _ | .number _ | .text _ | .foreign .. => by simp [unfold]

theorem unfoldAll_nil (path : List Nat) : (items : List Value) → unfoldAll [] path items = items
  | [] => by simp [unfoldAll]
  | v :: rest => by simp [unfoldAll, unfold_nil path v, unfoldAll_nil path rest]

theorem unfoldEntries_nil (path : List Nat) :
    (entries : List (Value × Value)) → unfoldEntries [] path entries = entries
  | [] => by simp [unfoldEntries]
  | (k, v) :: rest => by
    simp [unfoldEntries, unfold_nil path k, unfold_nil path v, unfoldEntries_nil path rest]

end

/-- The value with its shared parts written out. -/
def unfolded (d : Document) : Value :=
  unfold d.table [] d.root

end Document

end LuaData
