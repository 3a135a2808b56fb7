import LuaData.Node.Walk
import LuaData.Proofs.Document.Graph

/-
  Trees whose constants are leaves of their exact types. What a walk over such a tree comes to is
  a part of it again, or a single character of a text, and all that it reads as a constant or as
  a key is a leaf.
-/

namespace LuaData

open Relation (ReflTransGen)
open Document (Part deref)
open Walk (isPropertyKey isMapKey)

/-! ## Parts of nodes -/

namespace Value

theorem mem_parts_of_get? {v w : Value} {name : String} (h : v.get? name = some w) :
    w ∈ v.parts := by
  unfold get? at h
  split at h
  · rename_i entries he
    obtain ⟨k, hk⟩ := mem_of_lookupKey h
    rw [parts, he]
    exact List.mem_flatMap.2 ⟨(k, w), hk, List.mem_cons_of_mem _ List.mem_cons_self⟩
  · cases h

theorem mem_parts_of_elements? {v w : Value} {items : List Value}
    (h : v.elements? = some items) (hw : w ∈ items) : w ∈ v.parts ∨ ∃ s, w = .text s := by
  unfold elements? at h
  split at h
  · rename_i hv; cases h; rw [parts, hv]; exact Or.inl hw
  · rename_i hv; cases h; rw [parts, hv]; exact Or.inl hw
  · cases h
    obtain ⟨c, -, rfl⟩ := List.mem_map.1 hw
    exact Or.inr ⟨_, rfl⟩
  · rename_i entries hv
    cases h
    obtain ⟨e, he, rfl⟩ := List.mem_map.1 hw
    rw [parts, hv]
    exact Or.inl (List.mem_flatMap.2 ⟨e, he, List.mem_cons_self⟩)
  · cases h

theorem mem_parts_of_atZero? {v w : Value} (h : v.atZero? = some w) :
    w ∈ v.parts ∨ ∃ s, w = .text s := by
  unfold atZero? at h
  split at h
  · rename_i entries hv
    obtain ⟨k, hk⟩ := mem_of_lookupKey h
    rw [parts, hv]
    exact Or.inl (List.mem_flatMap.2 ⟨(k, w), hk, List.mem_cons_of_mem _ List.mem_cons_self⟩)
  · obtain ⟨items, hi, hh⟩ := Option.bind_eq_some_iff.1 h
    exact mem_parts_of_elements? hi (List.mem_of_mem_head? (by simp [hh]))

theorem mem_parts_of_first? {v w : Value} (h : v.first? = some w) : w ∈ v.parts := by
  unfold first? at h
  split at h
  · rename_i hv; cases h; rw [parts, hv]; exact List.mem_cons_self
  · rename_i hv; cases h; rw [parts, hv]; exact List.mem_cons_self
  · cases h

end Value

namespace Node

theorem mem_parts_of_fieldForm {v w : Value}
    (h : (∃ k, fieldForm v = .keyed w k ∨ fieldForm v = .keyed k w) ∨
      fieldForm v = .positional w) : w ∈ v.parts := by
  unfold fieldForm at h
  split at h
  · split at h
    · rename_i hk hw
      rcases h with ⟨_, h | h⟩ | h <;> cases h
      · exact Value.mem_parts_of_get? hk
      · exact Value.mem_parts_of_get? hw
    · rcases h with ⟨_, h | h⟩ | h <;> cases h
  · split at h
    · rename_i hk hw
      rcases h with ⟨_, h | h⟩ | h <;> cases h
      · exact Value.mem_parts_of_get? hk
      · exact Value.mem_parts_of_get? hw
    · rcases h with ⟨_, h | h⟩ | h <;> cases h
  · split at h
    · rename_i hw
      rcases h with ⟨_, h | h⟩ | h <;> cases h
      exact Value.mem_parts_of_get? hw
    · rcases h with ⟨_, h | h⟩ | h <;> cases h
  · rcases h with ⟨_, h | h⟩ | h <;> cases h

theorem mem_parts_of_form {table : List Value} {v w : Value}
    (h : form table v = .table w ∨ form table v = .statement w ∨ form table v = .chunk (some w)) :
    w ∈ v.parts := by
  unfold form at h
  split at h
  · rcases h with h | h | h <;> cases h
  · split at h
    all_goals try (rcases h with h | h | h <;> cases h)
    · split at h
      · rename_i hw
        rcases h with h | h | h <;> cases h
        exact Value.mem_parts_of_get? hw
      · rcases h with h | h | h <;> cases h
    · split at h
      · rename_i hw
        rcases h with h | h | h <;> cases h
        exact Value.mem_parts_of_get? hw
      · rcases h with h | h | h <;> cases h
    · split at h
      · rename_i hw
        rcases h with h | h | h <;> cases h
        exact Value.mem_parts_of_get? hw
      · rcases h with h | h | h <;> cases h
    · rcases h with h | h | h
      · cases h
      · cases h
      · exact Value.mem_parts_of_get? (Form.chunk.inj h)

variable {table : List Value} {limit : Value} {reach level : Nat} {v w u : Value}

theorem eq_deref_of_follow (h : follow table reach v = .ok u) : u = deref table v := by
  unfold follow at h
  split at h
  · rename_i kind i
    split at h
    · rename_i hi
      split at h <;> cases h
      rw [deref, hi]; rfl
    · rename_i hi
      cases h
      rw [deref, hi]; rfl
  · cases h
    rename_i hn
    cases v <;> first | rfl | exact absurd rfl (hn _ _)

/-! ## Exact trees -/

/-- All constants in the nodes that a node has inside of it are leaves of their exact types. -/
def Exact (table : List Value) (v : Value) : Prop :=
  ∀ w c, ReflTransGen (Part table) v w → scalarForm (deref table w) = .constant c → c.isLeaf

theorem Exact.part (h : Exact table v) (hw : Part table v w) : Exact table w :=
  fun x c hx => h x c (.head hw hx)

theorem exact_of_parts (h : ∀ c, scalarForm (deref table v) = .constant c → c.isLeaf)
    (hp : ∀ w, Part table v w → Exact table w) : Exact table v := by
  intro w c hw hc
  rcases hw.cases_head with rfl | ⟨x, hx, hxw⟩
  · exact h c hc
  · exact hp x hx w c hxw hc

theorem exact_text (table : List Value) (s : String) : Exact table (.text s) :=
  exact_of_parts nofun nofun

theorem Exact.elements (h : Exact table v) {items : List Value}
    (hi : elements table reach v = .ok items) : ∀ w ∈ items, Exact table w := by
  intro w hw
  obtain ⟨u, hu, hk⟩ := exists_of_bind_ok hi
  obtain rfl := eq_deref_of_follow hu
  split at hk
  · rename_i he
    cases hk
    rcases Value.mem_parts_of_elements? he hw with hp | ⟨s, rfl⟩
    · exact h.part hp
    · exact exact_text table s
  · cases hk

/-- The nodes of the expressions of a statement. -/
def Expressions.nodes : Expressions → List Value
  | .one node => [node]
  | .several nodes => nodes

theorem Exact.expressions (h : Exact table v) {exprs : Expressions}
    (he : expressions table reach v = .ok exprs) : ∀ w ∈ exprs.nodes, Exact table w := by
  intro w hw
  obtain ⟨u, hu, hk⟩ := exists_of_bind_ok he
  obtain rfl := eq_deref_of_follow hu
  have part : w ∈ (deref table v).parts ∨ ∃ s, w = .text s := by
    split at hk
    · rename_i items hi
      split at hk
      · split at hk
        · rename_i hz
          cases hk
          rw [List.mem_singleton.1 hw]
          exact Value.mem_parts_of_atZero? hz
        · cases hk
      · cases hk
        exact Value.mem_parts_of_elements? hi hw
    · cases hk
  rcases part with hp | ⟨s, rfl⟩
  · exact h.part hp
  · exact exact_text table s

theorem Exact.firstStatement (h : Exact table v)
    (hb : firstStatement? table reach v = .ok (some w)) : Exact table w := by
  obtain ⟨u, hu, hk⟩ := exists_of_bind_ok hb
  obtain rfl := eq_deref_of_follow hu
  exact h.part (Value.mem_parts_of_first? (Except.ok.inj hk))

theorem Exact.form (h : Exact table v) (hu : follow table reach v = .ok u)
    (hw : form table u = .table w ∨ form table u = .statement w ∨ form table u = .chunk (some w)) :
    Exact table w := by
  obtain rfl := eq_deref_of_follow hu
  exact h.part (mem_parts_of_form hw)

/-! ## What is read -/

theorem isLeaf_of_scalar (h : Exact table v) {c : Value}
    (hc : scalar table limit reach level v = .ok c) : c.isLeaf := by
  rw [scalar_eq] at hc
  obtain ⟨u, hu, hc⟩ := exists_of_bind_ok hc
  obtain rfl := eq_deref_of_follow hu
  split at hc
  · cases hc; rfl
  · rename_i c' hs
    have hl := h v c' .refl hs
    rw [Document.unfold_leaf hl] at hc
    cases hc
    exact hl
  · obtain ⟨-, -, hc⟩ := exists_of_bind_ok hc
    obtain ⟨c', -, hc⟩ := exists_of_bind_ok hc
    split at hc <;> cases hc
    rfl
  · cases hc
  · cases hc

theorem isPropertyKey_of_isKey {c : Value} (hl : c.isLeaf) (hk : isKey c) : isPropertyKey c := by
  cases c <;> first | rfl | exact Bool.noConfusion hk | exact Bool.noConfusion hl

theorem isMapKey_of_isNamed {c : Value} (hl : c.isLeaf) (hn : c.isNamed) : isMapKey c := by
  cases c <;> first | rfl | exact Bool.noConfusion hn | exact Bool.noConfusion hl

/-- A field whose node is exact, and whose key is a leaf that can be a key. -/
def Field.Exact (table : List Value) (f : Field) : Prop :=
  Node.Exact table f.node ∧ ∀ key node, f = .keyed key node → key.isLeaf ∧ isKey key

theorem exact_readField (h : Exact table v) {f : Field}
    (hf : readField table limit reach level v = .ok f) : f.Exact table := by
  obtain ⟨u, hu, hk⟩ := exists_of_bind_ok hf
  obtain rfl := eq_deref_of_follow hu
  split at hk
  · rename_i k node hform
    obtain ⟨c, hc, hk⟩ := exists_of_bind_ok hk
    have hkey := h.part (mem_parts_of_fieldForm (Or.inl ⟨node, Or.inl hform⟩))
    have hnode := h.part (mem_parts_of_fieldForm (Or.inl ⟨k, Or.inr hform⟩))
    split at hk <;> cases hk
    rename_i hck
    refine ⟨hnode, fun key node' he => ?_⟩
    cases he
    exact ⟨isLeaf_of_scalar hkey hc, hck⟩
  · rename_i node hform
    cases hk
    exact ⟨h.part (mem_parts_of_fieldForm (Or.inr hform)), fun _ _ he => by cases he⟩
  · cases hk

theorem exact_readFields {items : List Value} (h : ∀ v ∈ items, Exact table v)
    {fs : List Field} (hf : readFields table limit reach level items = .ok fs) :
    ∀ f ∈ fs, f.Exact table := by
  induction items generalizing fs with
  | nil => cases hf; exact fun f hf => absurd hf List.not_mem_nil
  | cons v rest ih =>
    obtain ⟨f, hv, hr⟩ := exists_of_bind_ok hf
    obtain ⟨gs, hgs, hk⟩ := exists_of_bind_ok hr
    cases hk
    exact List.forall_mem_cons.2 ⟨exact_readField (h v List.mem_cons_self) hv,
      ih (fun w hw => h w (List.mem_cons_of_mem _ hw)) hgs⟩

theorem exact_tableFields (h : Exact table v) {fs : List Field}
    (hf : tableFields table limit reach level v = .ok fs) : ∀ f ∈ fs, f.Exact table := by
  obtain ⟨-, -, hf⟩ := exists_of_bind_ok hf
  obtain ⟨items, hi, hf⟩ := exists_of_bind_ok hf
  exact exact_readFields (h.elements hi) hf

end Node

end LuaData
