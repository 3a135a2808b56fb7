import LuaData.Proofs.Node.Grammar
import LuaData.Proofs.Node.Twins

/-
  What a tree means depends on few of its entries. `namedEntries` are the entries that each kind
  of node is read by, and two trees mean the same if those hold the same, place by place; all
  other entries, the order of entries and the statements after the first one of a chunk are free.
  Walks over two such trees take the same steps and come to the same result, or fail on nodes of
  the same type (`walk_alike`).

  Which places hold the same is a relation that is kept by going into parts, since trees can
  enclose themselves. A tree that encloses itself makes a walk run out of reach, which only
  happens where references are looked up; `Aligned` trees have theirs at the same places. Trees
  without references are aligned, so walks over them are always alike (`walk_ofValue_alike`).
-/

namespace LuaData

open Document (deref)

/-- Failures of the same kind, of nodes with the same type. -/
inductive Failure.Alike : Failure → Failure → Prop
  | refl (e : Failure) : Alike e e
  | node (problem problem' : NodeProblem) (tag : Option String) (line line' : Option Value) :
      Alike (.node problem tag line) (.node problem' tag line')

/-- Runs with the same steps that come to the same result or fail alike. -/
def Run.Alike {σ ρ : Type} (x y : Run σ ρ) : Prop :=
  x.trail = y.trail ∧ ((∃ r, x.outcome = .ok r ∧ y.outcome = .ok r) ∨
    ∃ e e', x.outcome = .error e ∧ y.outcome = .error e' ∧ e.Alike e')

namespace Node

/-! ## Trees that mean the same -/

/-- What an entry of a node is read as. -/
inductive Slot where
  | data
  | text
  | node
  | nodes
  /-- A list of statements, of which the first one is read. -/
  | body

/-- The entries that nodes of a kind are read by. -/
def namedEntries : Tag → List (String × Slot)
  | .nilLiteral => []
  | .booleanLiteral | .numericLiteral | .stringLiteral => [("value", .data)]
  | .identifier => [("name", .text)]
  | .unaryExpression => [("operator", .text), ("argument", .node)]
  | .tableConstructor => [("fields", .nodes)]
  | .tableKey | .tableKeyString => [("key", .node), ("value", .node)]
  | .tableValue => [("value", .node)]
  | .localStatement => [("init", .nodes)]
  | .returnStatement => [("arguments", .nodes)]
  | .chunk => [("body", .body)]

section

variable (table table' : List Value) (B : Value → Value → Prop)

/-- Two entries that are read alike, where `B` are the parts that stand at the same place. -/
def Slot.Same : Slot → Value → Value → Prop
  | .data, c, d => Document.unfold table [] c = Document.unfold table' [] d
  | .text, c, d => c = d ∨ c.text? = none ∧ d.text? = none
  | .node, v, w => B v w
  | .nodes, v, w => B v w ∧ ∃ vs ws, Lists table v vs ∧ Lists table' w ws ∧ List.Forall₂ B vs ws
  | .body, v, w => B v w ∧ ∃ vs ws, Lists table v vs ∧ Lists table' w ws ∧
      Option.Rel B vs.head? ws.head?

/-- Parts of two trees at the same place have the same type, which is a text if there is one, and
the entries that are named for that type hold the same. -/
structure SameMeaning : Prop where
  type : ∀ {v w}, B v w → Option.Rel (fun t u => t.text?.isSome ∧ t.text? = u.text?)
    ((deref table v).get? "type") ((deref table' w).get? "type")
  entry : ∀ {v w}, B v w → ∀ {tag}, Is table tag v → ∀ {name slot},
    (name, slot) ∈ namedEntries tag → Option.Rel (slot.Same table table' B)
      ((deref table v).get? name) ((deref table' w).get? name)

end

/-- A reference that can be looked up. -/
def Refers (table : List Value) (v : Value) : Prop :=
  ∃ kind i, v = .shared kind i ∧ i < table.length

/-- References stand at the same places. -/
def Aligned (table table' : List Value) (B : Value → Value → Prop) : Prop :=
  ∀ v w, B v w → (Refers table v ↔ Refers table' w)

variable {table table' : List Value} {B : Value → Value → Prop} {v w : Value}

/-! ## Looking references up -/

/-- Trees without references are aligned. -/
theorem aligned_nil : Aligned [] [] B := by
  have none : ∀ v, ¬ Refers [] v := by
    rintro v ⟨kind, i, -, hlt⟩
    exact Nat.not_lt_zero i hlt
  exact fun v w _ => iff_of_false (none v) (none w)

theorem follow_of_refers (h : Refers table v) : follow table 0 v = .error .endless := by
  obtain ⟨kind, i, rfl, hlt⟩ := h
  rw [follow, List.getElem?_eq_getElem hlt]
  rfl

theorem follow_of_not_refers {reach : Nat} (h : ¬ (Refers table v ∧ reach = 0)) :
    follow table reach v = .ok (deref table v) := by
  cases v with
  | shared kind i =>
    by_cases hlt : i < table.length
    · have h0 : ¬ reach = 0 := fun h0 => h ⟨⟨kind, i, rfl, hlt⟩, h0⟩
      rw [follow, Document.deref_shared kind hlt, List.getElem?_eq_getElem hlt]
      exact if_neg h0
    · rw [follow, deref, List.getElem?_eq_none (Nat.le_of_not_lt hlt)]
      rfl
  | _ => rfl

/-- How far walks over trees that mean the same come apart: where references stand at other
places, one of them may run out of reach. -/
def astray (aligned : Prop) : Parting where
  alike := Failure.Alike
  first e := e = .endless ∧ ¬ aligned
  second e := e = .endless ∧ ¬ aligned

theorem follow_agree (reach : Nat) (hB : B v w) :
    Agree (astray (Aligned table table' B)) (fun _ _ => True) (follow table reach v)
      (follow table' reach w) := by
  by_cases hv : Refers table v ∧ reach = 0 <;> by_cases hw : Refers table' w ∧ reach = 0
  · obtain ⟨hv, rfl⟩ := hv
    rw [follow_of_refers hv, follow_of_refers hw.1]
    exact .error (.refl _)
  · obtain ⟨hv, rfl⟩ := hv
    have apart : ¬ Aligned table table' B := fun ha => hw ⟨(ha v w hB).1 hv, rfl⟩
    rw [follow_of_refers hv]
    exact Agree.first (p := astray _) ⟨rfl, apart⟩ _
  · obtain ⟨hw, rfl⟩ := hw
    have apart : ¬ Aligned table table' B := fun ha => hv ⟨(ha v w hB).2 hw, rfl⟩
    rw [follow_of_refers hw]
    exact Agree.second (p := astray _) ⟨rfl, apart⟩ _
  · rw [follow_of_not_refers hv, follow_of_not_refers hw]
    exact .ok trivial

/-! ## Lists -/

theorem Lists.atZero? {items : List Value} (h : Lists table v items) :
    (deref table v).atZero? = items.head? := by
  have hbase : (deref table v).base = .list items := h
  rw [Value.atZero?, hbase, h.elements?]
  rfl

theorem Lists.first? {items : List Value} (h : Lists table v items) :
    (deref table v).first? = items.head? := by
  have hbase : (deref table v).base = .list items := h
  rw [Value.first?, hbase]
  cases items <;> rfl

theorem elements_agree (reach : Nat) (h : Slot.nodes.Same table table' B v w) :
    Agree (astray (Aligned table table' B)) (List.Forall₂ B) (elements table reach v)
      (elements table' reach w) := by
  obtain ⟨hB, vs, ws, hvs, hws, hall⟩ := h
  refine (follow_agree reach hB).bind fun u u' hu hu' _ => ?_
  obtain rfl := eq_deref_of_follow hu
  obtain rfl := eq_deref_of_follow hu'
  rw [hvs.elements?, hws.elements?]
  exact .ok hall

theorem expressions_agree (reach : Nat) (h : Slot.nodes.Same table table' B v w) :
    Agree (astray (Aligned table table' B)) (Expressions.Beside B) (expressions table reach v)
      (expressions table' reach w) := by
  obtain ⟨hB, vs, ws, hvs, hws, hall⟩ := h
  refine (follow_agree reach hB).bind fun u u' hu hu' _ => ?_
  obtain rfl := eq_deref_of_follow hu
  obtain rfl := eq_deref_of_follow hu'
  rw [hvs.elements?, hws.elements?, hvs.atZero?, hws.atZero?]
  cases hall with
  | nil => exact .ok (.several .nil)
  | cons h hall =>
    cases hall with
    | nil => exact .ok (.one h)
    | @cons x y xs ys h' hall =>
      have several : ∀ (a b : Value) l, ¬ (a :: b :: l).length = 1 := by simp
      dsimp only
      rw [if_neg (several _ x xs), if_neg (several _ y ys)]
      exact .ok (.several (.cons h (.cons h' hall)))

theorem first_agree (reach : Nat) (h : Slot.body.Same table table' B v w) :
    Agree (astray (Aligned table table' B)) (Option.Rel B) (firstStatement? table reach v)
      (firstStatement? table' reach w) := by
  obtain ⟨hB, vs, ws, hvs, hws, hhead⟩ := h
  refine (follow_agree reach hB).bind fun u u' hu hu' _ => ?_
  obtain rfl := eq_deref_of_follow hu
  obtain rfl := eq_deref_of_follow hu'
  rw [hvs.first?, hws.first?]
  exact .ok hhead

/-! ## Forms -/

/-- A text is written out as itself. -/
theorem unfold_of_text? {c : Value} (h : c.text?.isSome) : Document.unfold table [] c = c := by
  rw [Value.text?] at h
  fun_induction Value.base c with
  | case1 name c ih => rw [Document.unfold, ih h]
  | case2 c _ =>
    cases c <;> first | cases h; done | exact Document.unfold_leaf rfl

theorem Slot.text?_eq {c d : Value} (h : Slot.text.Same table table' B c d) :
    c.text? = d.text? := by
  obtain rfl | ⟨hc, hd⟩ := h
  · rfl
  · rw [hc, hd]

theorem Slot.unfold_text {c d : Value} (h : Slot.text.Same table table' B c d)
    (hc : c.text?.isSome) : Document.unfold table [] c = Document.unfold table' [] d := by
  obtain rfl | ⟨hn, -⟩ := h
  · rw [unfold_of_text? hc, unfold_of_text? hc]
  · rw [hn] at hc
    cases hc

namespace SameMeaning

variable (h : SameMeaning table table' B)
include h

theorem tagText? (hB : B v w) : (deref table v).tagText? = (deref table' w).tagText? := by
  have htype := h.type hB
  rw [Value.tagText?, Value.tagText?]
  generalize (deref table v).get? "type" = t at htype
  generalize (deref table' w).get? "type" = u at htype
  cases htype with
  | none => rfl
  | some h => exact h.2

theorem tag? (hB : B v w) : (deref table v).tag? = (deref table' w).tag? := by
  rw [Value.tag?, Value.tag?, h.tagText? hB]

/-- The types of nodes can be compared. -/
theorem readable (hB : B v w) :
    (((deref table v).get? "type").any fun t => !(Document.unfold table [] t).isHashable) = false ∧
      (((deref table' w).get? "type").any fun t => !(Document.unfold table' [] t).isHashable) =
        false := by
  have htype := h.type hB
  generalize (deref table v).get? "type" = t at htype
  generalize (deref table' w).get? "type" = u at htype
  cases htype with
  | none => exact ⟨rfl, rfl⟩
  | some h =>
    obtain ⟨hsome, heq⟩ := h
    obtain ⟨s, hs⟩ := Option.isSome_iff_exists.1 hsome
    rw [Option.any_some, Option.any_some, isHashable_unfold hs, isHashable_unfold (heq ▸ hs)]
    exact ⟨rfl, rfl⟩

theorem entries (hB : B v w) {tag : Tag} (ht : Is table tag v) {name : String} {slot : Slot}
    (hmem : (name, slot) ∈ namedEntries tag) :
    ((deref table v).get? name = none ∧ (deref table' w).get? name = none) ∨
      ∃ c d, (deref table v).get? name = some c ∧ (deref table' w).get? name = some d ∧
        slot.Same table table' B c d := by
  have hentry := h.entry hB ht hmem
  generalize (deref table v).get? name = x at hentry
  generalize (deref table' w).get? name = y at hentry
  cases hentry with
  | none => exact Or.inl ⟨rfl, rfl⟩
  | some hs => exact Or.inr ⟨_, _, rfl, rfl, hs⟩

theorem fault_alike (problem problem' : NodeProblem) (hB : B v w) :
    (fault table problem v).Alike (fault table' problem' w) := by
  rw [fault, fault, h.tagText? hB]
  exact .node problem problem' _ _ _

theorem scalar_beside (hB : B v w) :
    (scalarForm (deref table v)).Beside B table table' (scalarForm (deref table' w)) := by
  have htag := h.tag? hB
  cases ht : (deref table v).tag? with
  | none =>
    simp only [scalarForm, ht, ← htag]
    exact .other
  | some tag =>
    rw [ht] at htag
    cases tag with
    | nilLiteral =>
      simp only [scalarForm, ht, ← htag]
      exact .nil
    | booleanLiteral | numericLiteral | stringLiteral =>
      obtain ⟨hv, hw⟩ | ⟨c, d, hv, hw, hcd⟩ := h.entries hB ht List.mem_cons_self
      · simp only [scalarForm, ht, ← htag, hv, hw]
        exact .other
      · simp only [scalarForm, ht, ← htag, hv, hw]
        exact .constant hcd
    | identifier =>
      obtain ⟨hv, hw⟩ | ⟨c, d, hv, hw, hcd⟩ := h.entries hB ht List.mem_cons_self
      · simp only [scalarForm, ht, ← htag, hv, hw]
        exact .other
      · simp only [scalarForm, ht, ← htag, hv, hw]
        rw [← Slot.text?_eq hcd]
        split
        · exact .constant (Slot.unfold_text hcd (by assumption))
        · exact .other
    | unaryExpression =>
      obtain ⟨hv, hw⟩ | ⟨op, op', hv, hw, hop⟩ := h.entries hB ht List.mem_cons_self
      · simp only [scalarForm, ht, ← htag, hv, hw]
        exact .other
      obtain ⟨hx, hy⟩ | ⟨x, y, hx, hy, hxy⟩ :=
        h.entries hB ht (List.mem_cons_of_mem _ List.mem_cons_self)
      · simp only [scalarForm, ht, ← htag, hv, hw, hx, hy]
        exact .operator op op'
      · simp only [scalarForm, ht, ← htag, hv, hw, hx, hy]
        rw [← Slot.text?_eq hop]
        split
        · exact .negation hxy
        · exact .operator op op'
    | _ =>
      simp only [scalarForm, ht, ← htag]
      exact .other

theorem field_beside (hB : B v w) :
    (fieldForm (deref table v)).Beside B (fieldForm (deref table' w)) := by
  have htag := h.tag? hB
  cases ht : (deref table v).tag? with
  | none =>
    simp only [fieldForm, ht, ← htag]
    exact .other
  | some tag =>
    rw [ht] at htag
    cases tag with
    | tableKey | tableKeyString =>
      obtain ⟨hk, hl⟩ | ⟨k, l, hk, hl, hkl⟩ := h.entries hB ht List.mem_cons_self
      · simp only [fieldForm, ht, ← htag, hk, hl]
        exact .other
      obtain ⟨hv, hw⟩ | ⟨x, y, hv, hw, hxy⟩ :=
        h.entries hB ht (List.mem_cons_of_mem _ List.mem_cons_self)
      · simp only [fieldForm, ht, ← htag, hk, hl, hv, hw]
        exact .other
      · simp only [fieldForm, ht, ← htag, hk, hl, hv, hw]
        exact .keyed hkl hxy
    | tableValue =>
      obtain ⟨hv, hw⟩ | ⟨x, y, hv, hw, hxy⟩ := h.entries hB ht List.mem_cons_self
      · simp only [fieldForm, ht, ← htag, hv, hw]
        exact .other
      · simp only [fieldForm, ht, ← htag, hv, hw]
        exact .positional hxy
    | _ =>
      simp only [fieldForm, ht, ← htag]
      exact .other

theorem form_beside (hB : B v w) :
    (form table (deref table v)).Beside (Slot.nodes.Same table table' B)
      (Slot.body.Same table table' B) (form table' (deref table' w)) := by
  have htag := h.tag? hB
  obtain ⟨hv, hw⟩ := h.readable hB
  rw [form, form, hv, hw, if_neg Bool.false_ne_true, if_neg Bool.false_ne_true]
  cases ht : (deref table v).tag? with
  | none =>
    simp only [← htag, ht]
    exact .other
  | some tag =>
    rw [ht] at htag
    rw [← htag]
    cases tag with
    | nilLiteral | booleanLiteral | numericLiteral | stringLiteral | identifier
    | unaryExpression => exact .scalar
    | tableConstructor =>
      obtain ⟨hv, hw⟩ | ⟨x, y, hv, hw, hxy⟩ := h.entries hB ht List.mem_cons_self
      · simp only [hv, hw]
        exact .other
      · simp only [hv, hw]
        exact .table hxy
    | localStatement | returnStatement =>
      obtain ⟨hv, hw⟩ | ⟨x, y, hv, hw, hxy⟩ := h.entries hB ht List.mem_cons_self
      · simp only [hv, hw]
        exact .other
      · simp only [hv, hw]
        exact .statement hxy
    | chunk =>
      obtain ⟨hv, hw⟩ | ⟨x, y, hv, hw, hxy⟩ := h.entries hB ht List.mem_cons_self
      · simp only [hv, hw]
        exact .noBody
      · simp only [hv, hw]
        exact .chunk hxy
    | tableKey | tableKeyString | tableValue => exact .field

/-- Trees that mean the same are walked over side by side, under any limit. -/
theorem twins {limit : Value} : Twins (astray (Aligned table table' B)) table table' limit limit B
    (Slot.nodes.Same table table' B) (Slot.body.Same table table' B) where
  same := Failure.Alike.refl
  level := fun _ => .refl Failure.Alike.refl _
  follow := follow_agree
  tag := h.tagText?
  scalar := h.scalar_beside
  field := h.field_beside
  form := h.form_beside
  elements := elements_agree
  expressions := expressions_agree
  first := first_agree
  operator := fun hB _ _ => h.fault_alike _ _ hB
  fault := fun problem hB => h.fault_alike problem problem hB
  misfit := by
    intro v w problem hB
    have htag := h.tagText? hB
    rw [misfit, misfit, ← htag]
    cases (deref table v).tagText? with
    | some _ => exact h.fault_alike problem problem hB
    | none => exact h.fault_alike _ _ hB

end SameMeaning

/-! ## Walks -/

theorem alike_of_paired {σ ρ : Type} {aligned : Prop} {x y : Run σ ρ}
    (h : Run.Paired (astray aligned) Eq x y) : x.Alike y ∨
      ¬ aligned ∧ (x.outcome = .error .endless ∨ y.outcome = .error .endless) := by
  cases h with
  | @ok trail r r' h => exact Or.inl ⟨rfl, Or.inl ⟨r, rfl, by rw [h]⟩⟩
  | error h => exact Or.inl ⟨rfl, Or.inr ⟨_, _, rfl, rfl, h⟩⟩
  | first h =>
    obtain ⟨rfl, apart⟩ := h
    exact Or.inr ⟨apart, Or.inl rfl⟩
  | second h =>
    obtain ⟨rfl, apart⟩ := h
    exact Or.inr ⟨apart, Or.inr rfl⟩

/-- Walks over trees that mean the same do the same, and fail, if they do, on nodes of the same
type. Only where references stand at other places one of them may run out of reach. -/
theorem walk_alike {tree tree' : Document} (h : SameMeaning tree.table tree'.table B)
    (root : B tree.root tree'.root) (n : Int) {α β : Type} (b : Builder α β) :
    (walk b (.int n) tree).Alike (walk b (.int n) tree') ∨
      ¬ Aligned tree.table tree'.table B ∧
        ((walk b (.int n) tree).outcome = .error .endless ∨
          (walk b (.int n) tree').outcome = .error .endless) :=
  alike_of_paired (h.twins.walk_paired b root)

/-- It is enough to look at parts that have no type, and at nodes of a known kind. -/
theorem sameMeaning_of_kinds (hB : ∀ v w, B v w →
    ((deref table v).get? "type" = none ∧ (deref table' w).get? "type" = none) ∨
    ∃ tag : Tag, (deref table v).get? "type" = some (.text tag.text) ∧
      (deref table' w).get? "type" = some (.text tag.text) ∧
      ∀ e ∈ namedEntries tag, Option.Rel (e.2.Same table table' B)
        ((deref table v).get? e.1) ((deref table' w).get? e.1)) :
    SameMeaning table table' B where
  type := by
    intro v w h
    obtain ⟨hv, hw⟩ | ⟨tag, hv, hw, -⟩ := hB v w h
    · rw [hv, hw]
      exact .none
    · rw [hv, hw]
      exact .some ⟨rfl, rfl⟩
  entry := by
    intro v w h tag' ht name slot hmem
    obtain ⟨hv, -⟩ | ⟨tag, hv, -, hentries⟩ := hB v w h
    · rw [Is, Value.tag?, Value.tagText?, hv] at ht
      cases ht
    · have htag : (deref table v).tag? = some tag := by
        rw [Value.tag?, Value.tagText?, hv]
        exact Tag.ofText?_text tag
      cases htag.symm.trans ht
      exact hentries (name, slot) hmem

/-- The tree of `return 1`, and one with other entries, in another order, of which only the first
statement is the same. -/
theorem walk_alike_return :
    let one := numeral (.int 1)
    let one' : Value := .map [(.text "raw", .text "0x1"), (.text "value", .int 1),
      (.text "type", .text "NumericLiteral"), (.text "loc", .list [])]
    let first := returnStatement [one]
    let first' : Value := .map [(.text "arguments", .list [one']), (.text "variables", .nil),
      (.text "type", .text "ReturnStatement")]
    let tree := chunk [first]
    let tree' : Value := .map [(.text "body", .list [first', .text "no node"]),
      (.text "type", .text "Chunk")]
    (walk .values (.int 3) (.ofValue tree)).Alike (walk .values (.int 3) (.ofValue tree')) := by
  intro one one' first first' tree tree'
  have hchunk : tree'.get? "type" = some (.text "Chunk") ∧
      tree'.get? "body" = some (.list [first', .text "no node"]) := by
    simp [tree', Value.get?, Value.base, lookupKey]
  have hreturn : first'.get? "type" = some (.text "ReturnStatement") ∧
      first'.get? "arguments" = some (.list [one']) := by
    simp [first', Value.get?, Value.base, lookupKey]
  have hone : one'.get? "type" = some (.text "NumericLiteral") ∧
      one'.get? "value" = some (.int 1) := by
    simp [one', Value.get?, Value.base, lookupKey]
  have hbody : tree.get? "body" = some (.list [first]) := get?_node .chunk _ (by decide)
  have harguments : first.get? "arguments" = some (.list [one]) :=
    get?_node .returnStatement _ (by decide)
  have hvalue : one.get? "value" = some (.int 1) := get?_node .numericLiteral _ (by decide)
  let B (v w : Value) : Prop := (v = tree ∧ w = tree') ∨
    (v = .list [first] ∧ w = .list [first', .text "no node"]) ∨ (v = first ∧ w = first') ∨
    (v = .list [one] ∧ w = .list [one']) ∨ (v = one ∧ w = one')
  have h : SameMeaning [] [] B := by
    refine sameMeaning_of_kinds fun v w hB => ?_
    obtain ⟨rfl, rfl⟩ | ⟨rfl, rfl⟩ | ⟨rfl, rfl⟩ | ⟨rfl, rfl⟩ | ⟨rfl, rfl⟩ := hB
    · refine Or.inr ⟨.chunk, get?_node_type _ _, hchunk.1, List.forall_mem_singleton.2 ?_⟩
      simp only [Document.deref_nil, hbody, hchunk.2]
      exact .some ⟨Or.inr (Or.inl ⟨rfl, rfl⟩), _, _, rfl, rfl,
        .some (Or.inr (Or.inr (Or.inl ⟨rfl, rfl⟩)))⟩
    · exact Or.inl ⟨rfl, rfl⟩
    · refine Or.inr ⟨.returnStatement, get?_node_type _ _, hreturn.1,
        List.forall_mem_singleton.2 ?_⟩
      simp only [Document.deref_nil, harguments, hreturn.2]
      exact .some ⟨Or.inr (Or.inr (Or.inr (Or.inl ⟨rfl, rfl⟩))), _, _, rfl, rfl,
        .cons (Or.inr (Or.inr (Or.inr (Or.inr ⟨rfl, rfl⟩)))) .nil⟩
    · exact Or.inl ⟨rfl, rfl⟩
    · refine Or.inr ⟨.numericLiteral, get?_node_type _ _, hone.1, List.forall_mem_singleton.2 ?_⟩
      simp only [Document.deref_nil, hvalue, hone.2]
      exact .some rfl
  exact (walk_alike h (Or.inl ⟨rfl, rfl⟩) 3 .values).resolve_right fun hr => hr.1 aligned_nil

/-- Walks over trees without references that mean the same always do the same. -/
theorem walk_ofValue_alike {v w : Value} (h : SameMeaning [] [] B) (root : B v w) (n : Int)
    {α β : Type} (b : Builder α β) :
    (walk b (.int n) (.ofValue v)).Alike (walk b (.int n) (.ofValue w)) :=
  (alike_of_paired (h.twins.walk_paired b root)).resolve_right fun apart => apart.1 aligned_nil

end Node

end LuaData
