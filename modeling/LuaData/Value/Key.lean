import LuaData.Value.Basic

/-
  Values as the keys of a map. Numbers are the same key if they are equal by value, whatever
  their kind, and truth values count as numbers. A map keeps the first position of a key and
  the last value given for it.
-/

namespace LuaData

namespace Value

mutual

/-- Whether two values are the same key. -/
def sameKey : Value → Value → Bool
  | .derived _ a, b => sameKey a b
  | a, .derived _ b => sameKey a b
  | .nil, .nil => true
  | .text s, .text t => s == t
  | .tuple xs, .tuple ys => sameKeys xs ys
  | .property k v, .property l w => sameKey k l && sameKey v w
  | .bool a, .bool b => a == b
  | .bool a, .number n => n.same (.int (if a then 1 else 0))
  | .number m, .bool b => m.same (.int (if b then 1 else 0))
  | .number m, .number n => m.same n
  | _, _ => false
termination_by a b => sizeOf a + sizeOf b

def sameKeys : List Value → List Value → Bool
  | [], [] => true
  | a :: as, b :: bs => sameKey a b && sameKeys as bs
  | _, _ => false
termination_by as bs => sizeOf as + sizeOf bs

end

@[simp] theorem sameKey_text (s t : String) : sameKey (.text s) (.text t) = (s == t) := by
  simp [sameKey]

/-- Whether a value can be a key at all: what can change cannot. -/
def isHashable : Value → Bool
  | .list _ | .map _ | .shared .. => false
  | .tuple items => allHashable items
  | .property k v => k.isHashable && v.isHashable
  | .foreign name _ => name ≠ "set" && name ≠ "bytearray"
  | .derived _ v => v.isHashable
  | _ => true
where
  allHashable : List Value → Bool
    | [] => true
    | v :: rest => v.isHashable && allHashable rest

end Value

/-! ## Entries -/

/-- Puts a value under a key: in the place of an equal key if there is one, else at the end. -/
def putEntry {α : Type} (key : Value) (value : α) : List (Value × α) → List (Value × α)
  | [] => [(key, value)]
  | (k, v) :: rest =>
    if k.sameKey key then (k, value) :: rest else (k, v) :: putEntry key value rest

/-- The entries that are left when they are put one after the other. -/
def mergeEntries {α : Type} (entries : List (Value × α)) : List (Value × α) :=
  entries.foldl (fun done e => putEntry e.1 e.2 done) []

/-- The value under a key. -/
def lookupKey {α : Type} (key : Value) : List (Value × α) → Option α
  | [] => none
  | (k, v) :: rest => if k.sameKey key then some v else lookupKey key rest

theorem mem_of_lookupKey {α : Type} {key : Value} {entries : List (Value × α)} {v : α}
    (h : lookupKey key entries = some v) : ∃ k, (k, v) ∈ entries := by
  induction entries with
  | nil => simp [lookupKey] at h
  | cons e rest ih =>
    obtain ⟨k, w⟩ := e
    simp only [lookupKey] at h
    split at h
    · cases h; exact ⟨k, List.mem_cons_self⟩
    · obtain ⟨l, hl⟩ := ih h
      exact ⟨l, List.mem_cons_of_mem _ hl⟩

namespace Value

/-- The entry of a map under a name, also of a derived map. -/
def get? (v : Value) (name : String) : Option Value :=
  match v.base with
  | .map entries => lookupKey (.text name) entries
  | _ => none

theorem weight_get?_lt {v w : Value} {name : String} (h : v.get? name = some w) :
    w.weight < v.weight := by
  have hb := v.weight_base_le
  unfold get? at h
  split at h
  · rename_i entries he
    obtain ⟨k, hk⟩ := mem_of_lookupKey h
    have := weight_le_of_mem_entries hk
    rw [he] at hb
    simp only [weight] at hb
    have := k.weight_pos
    omega
  · cases h

/-! ## Elements -/

/-- What a value holds when it is gone through: the items of a list or tuple, the characters of
a text, the keys of a map. -/
def elements? (v : Value) : Option (List Value) :=
  match v.base with
  | .list items | .tuple items => some items
  | .text s => some (s.toList.map fun c => .text c.toString)
  | .map entries => some (entries.map Prod.fst)
  | _ => none

theorem weight_le_of_mem_elements? {v w : Value} {items : List Value}
    (h : v.elements? = some items) (hw : w ∈ items) : w.weight ≤ v.weight := by
  have hb := v.weight_base_le
  unfold elements? at h
  split at h
  · rename_i xs hx
    cases h
    have := weight_le_of_mem hw
    rw [hx] at hb; simp only [weight] at hb; omega
  · rename_i xs hx
    cases h
    have := weight_le_of_mem hw
    rw [hx] at hb; simp only [weight] at hb; omega
  · cases h
    obtain ⟨c, _, rfl⟩ := List.mem_map.1 hw
    simp only [weight]
    exact v.weight_pos
  · rename_i entries hx
    cases h
    obtain ⟨⟨k, x⟩, hm, rfl⟩ := List.mem_map.1 hw
    have := weight_le_of_mem_entries hm
    rw [hx] at hb; simp only [weight] at hb; simp only; omega
  · cases h

/-- What stands at position zero: the first element, and in a map the value under the key zero. -/
def atZero? (v : Value) : Option Value :=
  match v.base with
  | .map entries => lookupKey (.int 0) entries
  | _ => v.elements?.bind List.head?

theorem weight_atZero?_le {v w : Value} (h : v.atZero? = some w) : w.weight ≤ v.weight := by
  unfold atZero? at h
  split at h
  · rename_i entries he
    obtain ⟨k, hk⟩ := mem_of_lookupKey h
    have := weight_le_of_mem_entries hk
    have hb := v.weight_base_le
    rw [he] at hb
    simp only [weight] at hb
    omega
  · obtain ⟨items, hi, hh⟩ := Option.bind_eq_some_iff.1 h
    exact weight_le_of_mem_elements? hi (List.mem_of_mem_head? (by simp [hh]))

/-- The head of a list or tuple that is not empty. -/
def first? (v : Value) : Option Value :=
  match v.base with
  | .list (w :: _) | .tuple (w :: _) => some w
  | _ => none

theorem weight_first?_lt {v w : Value} (h : v.first? = some w) : w.weight < v.weight := by
  have hb := v.weight_base_le
  unfold first? at h
  split at h
  · rename_i x hx
    cases h
    rw [hx] at hb; simp only [weight, weightAll] at hb; omega
  · rename_i x hx
    cases h
    rw [hx] at hb; simp only [weight, weightAll] at hb; omega
  · cases h

end Value

end LuaData
