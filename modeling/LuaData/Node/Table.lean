import LuaData.Node.Scalar

/-
  Reading the fields of a table constructor. All fields and their keys are read before any
  value. `Table.ofFields` decides whether the table is a mapping or a sequence.
-/

namespace LuaData

namespace Node

/-! ## Fields -/

/-- A field whose key has been read and whose value has not. -/
inductive Field where
  | keyed (key node : Value)
  | positional (node : Value)

def Field.node : Field → Value
  | .keyed _ node => node
  | .positional node => node

/-- Whether a field is keyed by a text with the shape of a name. -/
def Field.isNamed : Field → Bool
  | .keyed key _ => key.isNamed
  | .positional _ => false

def Field.isKeyed : Field → Bool
  | .keyed .. => true
  | .positional _ => false

/-- Whether a field is nil in its place, and so not there. -/
def Field.isAbsent (table : List Value) : Field → Bool
  | .keyed .. => false
  | .positional node => (Document.deref table node).tagText? = some Tag.nilLiteral.text

/-- Whether a constant can be a key. -/
def isKey (c : Value) : Bool :=
  c.text?.isSome || c.properNumber?.isSome

/-- The field that a node is, its key read at a level. -/
def readField (table : List Value) (limit : Value) (reach level : Nat) (v : Value) :
    Except Failure Field := do
  match fieldForm (← follow table reach v) with
  | .keyed k node => do
    let c ← scalar table limit reach level k
    if isKey c then .ok (.keyed c node) else .error (fault table .badKey k)
  | .positional node => .ok (.positional node)
  | .other => .error (misfit table .notField v)

def readFields (table : List Value) (limit : Value) (reach level : Nat) :
    List Value → Except Failure (List Field)
  | [] => .ok []
  | v :: rest => do
    let f ← readField table limit reach level v
    let fs ← readFields table limit reach level rest
    return f :: fs

/-- The fields of a table constructor at a level. -/
def tableFields (table : List Value) (limit : Value) (reach level : Nat) (fields : Value) :
    Except Failure (List Field) := do
  limit.checkLevel level
  readFields table limit reach level (← elements table reach fields)

/-! ## Tables -/

/-- A table is read as a mapping or as a sequence. -/
inductive Table where
  | mapping (entries : List (Value × Value))
  | sequence (fields : List Field)

/-- The key and the node of a keyed field. -/
def Field.entry? : Field → Option (Value × Value)
  | .keyed key node => some (key, node)
  | .positional _ => none

/-- A mapping if there are fields and all are named, else the sequence of the fields present. -/
def Table.ofFields (table : List Value) (fields : List Field) : Table :=
  if !fields.isEmpty && fields.all Field.isNamed then .mapping (fields.filterMap Field.entry?)
  else .sequence (fields.filter (!·.isAbsent table))

/-- What is noted about the fields of a table. -/
def Table.notes (table : List Value) (fields : List Field) : List Note :=
  if !fields.isEmpty && fields.all Field.isNamed then []
  else
    let absent := fields.countP (Field.isAbsent table)
    (if fields.head?.any Field.isKeyed then [.keysNotNames] else [])
      ++ if absent = 0 then [] else [.skippedNil absent]

/-! ## Weights -/

def Table.nodes : Table → List Value
  | .mapping entries => entries.map Prod.snd
  | .sequence fields => fields.map Field.node

theorem node_lt_of_readField {table : List Value} {limit : Value} {reach level : Nat} {v : Value}
    {f : Field} (h : readField table limit reach level v = .ok f) (h0 : reach = 0) :
    f.node.weight < v.weight := by
  obtain ⟨u, hu, hk⟩ := exists_of_bind_ok h
  obtain rfl := eq_of_follow hu h0
  split at hk
  · rename_i k node hf
    obtain ⟨c, -, hc⟩ := exists_of_bind_ok hk
    split at hc
    · cases hc; exact weight_keyed_lt hf
    · cases hc
  · rename_i node hf
    cases hk; exact weight_positional_lt hf
  · cases hk

theorem node_lt_of_readFields {table : List Value} {limit : Value} {reach level : Nat}
    {items : List Value} {fields : List Field} {n : Nat}
    (h : readFields table limit reach level items = .ok fields) (h0 : reach = 0)
    (hn : ∀ v ∈ items, v.weight ≤ n) : ∀ f ∈ fields, f.node.weight < n := by
  induction items generalizing fields with
  | nil => cases h; intro f hf; cases hf
  | cons v rest ih =>
    obtain ⟨g, hg, hr⟩ := exists_of_bind_ok h
    obtain ⟨gs, hgs, hk⟩ := exists_of_bind_ok hr
    cases hk
    intro f hf
    rcases List.mem_cons.1 hf with rfl | hf
    · exact Nat.lt_of_lt_of_le (node_lt_of_readField hg h0) (hn v List.mem_cons_self)
    · exact ih hgs (fun w hw => hn w (List.mem_cons_of_mem _ hw)) f hf

theorem node_lt_of_tableFields {table : List Value} {limit fields : Value} {reach level : Nat}
    {fs : List Field} (h : tableFields table limit reach level fields = .ok fs)
    (h0 : reach = 0) : ∀ f ∈ fs, f.node.weight < fields.weight := by
  obtain ⟨-, -, h⟩ := exists_of_bind_ok h
  obtain ⟨items, hi, hr⟩ := exists_of_bind_ok h
  exact node_lt_of_readFields hr h0 fun v hv => weight_le_of_mem_elements hi h0 hv

theorem exists_of_mem_nodes {table : List Value} {fields : List Field} {v : Value}
    (h : v ∈ (Table.ofFields table fields).nodes) : ∃ f ∈ fields, f.node = v := by
  unfold Table.ofFields at h
  split at h
  · simp only [Table.nodes, List.mem_map, List.mem_filterMap] at h
    obtain ⟨e, ⟨f, hf, he⟩, rfl⟩ := h
    cases f with
    | keyed key node => cases he; exact ⟨_, hf, rfl⟩
    | positional node => cases he
  · simp only [Table.nodes, List.mem_map, List.mem_filter] at h
    obtain ⟨f, ⟨hf, _⟩, rfl⟩ := h
    exact ⟨f, hf, rfl⟩

end Node

end LuaData
