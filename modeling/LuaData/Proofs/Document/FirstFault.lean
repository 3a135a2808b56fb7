import LuaData.Proofs.Document.Walk
import LuaData.Proofs.Printer.Written
import LuaData.Proofs.Walk.Stages

/-
  Where a walk fails. A walk over a document does what the stages of the document say, up to the
  first place at which there is a fault, and fails with that fault; the calls that it has made
  are those of the stages before. The stages know nothing of the builder, so all builders that
  draw all items fail alike.
-/

namespace LuaData

open Document (unfold deref Stuck Linked)
open Relation (ReflTransGen)
open Value (IsSequence)

namespace Walk

variable {α β : Type} {b : Builder α β} {table : List Value} {limit : Value} {path : List Nat}

/-! ## Values that are written out -/

theorem typeName_of_kind? {v : Value} {kind : SharedKind} (h : Document.kind? v = some kind)
    (i : Nat) : v.typeName = (Value.shared kind i).typeName := by
  cases v <;> cases h <;> rfl

theorem kind?_unfold {v : Value} {kind : SharedKind} (h : Document.kind? v = some kind) :
    Document.kind? (unfold table path v) = some kind := by
  cases v with
  | list items => rw [Document.unfold_sequence .list]; exact h
  | tuple items => rw [Document.unfold_sequence .tuple]; exact h
  | map entries => rw [Document.unfold_map]; exact h
  | property k w => rw [Document.unfold_property]; exact h
  | _ => cases h

/-- A value has the type that it has when it is written out. -/
theorem typeName_unfold {v : Value} (hl : Linked table v) :
    (unfold table path v).typeName = (deref table v).typeName := by
  cases v with
  | list items => rw [Document.unfold_sequence .list]; rfl
  | tuple items => rw [Document.unfold_sequence .tuple]; rfl
  | map entries => rw [Document.unfold_map]; rfl
  | property k w => rw [Document.unfold_property]; rfl
  | foreign name form => simp only [unfold, deref]
  | derived name w => rw [unfold]; rfl
  | shared kind i =>
    by_cases hlt : i < table.length
    · have hk := hl.kind?_eq hlt
      rw [Document.deref_shared kind hlt, typeName_of_kind? hk i]
      by_cases hi : i ∈ path
      · rw [unfold, dif_pos hi]
      · rw [Document.unfold_shared kind hi hlt, typeName_of_kind? (kind?_unfold hk) i]
    · rw [unfold, dif_neg hlt, dite_eq_ite, ite_self, deref,
        List.getElem?_eq_none (Nat.le_of_not_lt hlt)]
      rfl
  | _ => rw [Document.unfold_leaf rfl]; rfl

/-- A test that only leaves pass says the same of a value that is written out. -/
theorem test_unfold {test : Value → Bool} (ht : ∀ v, test v → v.isLeaf) {v : Value}
    (hl : Linked table v) : test (unfold table path v) = test v := by
  rw [Bool.eq_iff_iff]
  constructor
  · intro h
    have hleaf := isLeaf_of_unfold hl (ht _ h)
    rwa [Document.unfold_leaf hleaf] at h
  · intro h
    rwa [Document.unfold_leaf (ht v h)]

/-! ## Visits -/

/-- A visit does what some stages say, and ends with the result for `u`. -/
def Follows (b : Builder α β) (table : List Value) (limit : Value) (x : Run (Event α) α)
    (stages : List Stage) (u : Value) : Prop :=
  x = do
    Stage.perform b table limit stages
    return u.fold b

theorem follows_refuse {place : Place} {rest : List Stage} {problem : ValueProblem} {v u : Value}
    (h : place.fault? table limit = some (.value problem v.typeName)) :
    Follows b table limit (refuse problem v) (.reach place :: rest) u := by
  rw [Follows, Stage.perform_fault h]
  rfl

/-- At a container the depth is checked. -/
theorem perform_container {u : Value} {depth : Nat}
    (hu : ∀ table, (Place.value depth u).fault? table limit = failure? (limit.checkDepth depth))
    (rest : List Stage) :
    Stage.perform b table limit (.reach (.value depth u) :: rest) = (do
      .ofExcept (limit.checkDepth depth)
      Stage.perform b table limit rest) := by
  cases hc : limit.checkDepth depth with
  | ok r => rw [Stage.perform_clear (by rw [hu, hc]; rfl)]; rfl
  | error e => rw [Stage.perform_fault (e := e) (by rw [hu, hc]; rfl)]; rfl

theorem visitItems_follows {depth : Nat} {items : List Value}
    (ih : ∀ v ∈ items, Follows b table limit (visitItem b table limit path depth v)
      ((unfold table path v).stages depth true) (unfold table path v)) :
    visitItems b table limit path depth items = (do
      Stage.perform b table limit (Value.stagesAll depth (items.map (unfold table path)))
      return (items.map (unfold table path)).map (Value.fold b)) := by
  induction items with
  | nil => rw [visitItems]; rfl
  | cons v rest ihr =>
    have hv : visitItem b table limit path depth v = _ := ih v List.mem_cons_self
    rw [visitItems, hv, ihr fun w hw => ih w (List.mem_cons_of_mem _ hw), List.map_cons,
      Value.stagesAll, Stage.perform_append]
    simp only [bind_assoc, pure_bind, List.map_cons]

theorem visitEntries_follows {depth : Nat} {entries : List (Value × Value)}
    (hl : ∀ e ∈ entries, Linked table e.1)
    (ih : ∀ e ∈ entries, Follows b table limit (visit b table limit path depth e.2)
      ((unfold table path e.2).stages depth false) (unfold table path e.2)) :
    let us := entries.map fun e => (unfold table path e.1, unfold table path e.2)
    visitEntries b table limit path depth entries = (do
      Stage.perform b table limit (Value.stagesEntries depth us)
      return us.map fun e => (e.1, e.2.fold b)) := by
  induction entries with
  | nil => intro us; rw [visitEntries]; rfl
  | cons e rest ihr =>
    obtain ⟨k, v⟩ := e
    intro us
    have hk := hl (k, v) List.mem_cons_self
    have hv : visit b table limit path depth v = _ := ih (k, v) List.mem_cons_self
    have hrest := ihr (fun f hf => hl f (List.mem_cons_of_mem _ hf))
      fun f hf => ih f (List.mem_cons_of_mem _ hf)
    have htest : isMapKey (unfold table path k) = isMapKey k :=
      test_unfold (fun _ => Value.isLeaf_of_isMapKey) hk
    have hus : us = (unfold table path k, unfold table path v) :: _ := List.map_cons
    rw [visitEntries_cons, hus, Value.stagesEntries]
    by_cases hc : isMapKey k
    · have hclear : (Place.mapKey (unfold table path k)).fault? table limit = none := by
        rw [Place.fault?, htest, if_pos hc]
      have hleaf : unfold table path k = k :=
        Document.unfold_leaf (Value.isLeaf_of_isMapKey hc)
      rw [if_pos hc, Stage.perform_clear hclear, Stage.perform_append, Stage.perform_call, hv,
        hrest, hleaf]
      simp only [bind_assoc, pure_bind, List.map_cons]
      rfl
    · have hfault : (Place.mapKey (unfold table path k)).fault? table limit =
          some (.value .tableKey (deref table k).typeName) := by
        rw [Place.fault?, htest, if_neg hc, typeName_unfold hk]
      rw [if_neg hc, Stage.perform_fault hfault]
      rfl

theorem sequence_follows (hb : b.limit = none) {mk : List Value → Value} (hm : IsSequence mk)
    {depth : Nat} (item : Bool) {items : List Value}
    (ih : ∀ v ∈ items, Follows b table limit (visitItem b table limit path (depth + 1) v)
      ((unfold table path v).stages (depth + 1) true) (unfold table path v)) :
    Follows b table limit (visit b table limit path depth (mk items))
      ((unfold table path (mk items)).stages depth item) (unfold table path (mk items)) := by
  rw [Follows, visit_sequence hb hm, visitItems_follows ih, Document.unfold_sequence hm,
    Value.stages_sequence hm, perform_container (fun _ => by cases hm <;> rfl), Stage.perform_call,
    Stage.perform_append, Stage.perform_call, Stage.perform_nil]
  simp only [bind_assoc, pure_bind, Event.map, Value.fold_sequence b hm, List.length_map]

theorem map_follows (hb : b.limit = none) {depth : Nat} (item : Bool)
    {entries : List (Value × Value)} (hl : ∀ e ∈ entries, Linked table e.1)
    (ih : ∀ e ∈ entries, Follows b table limit (visit b table limit path (depth + 1) e.2)
      ((unfold table path e.2).stages (depth + 1) false) (unfold table path e.2)) :
    Follows b table limit (visit b table limit path depth (.map entries))
      ((unfold table path (.map entries)).stages depth item)
      (unfold table path (.map entries)) := by
  rw [Follows, visit_map hb, visitEntries_follows hl ih, Document.unfold_map, Value.stages,
    perform_container (fun _ => rfl), Stage.perform_call, Stage.perform_append,
    Stage.perform_call, Stage.perform_nil]
  simp only [bind_assoc, pure_bind, Event.map, Value.fold_map, List.length_map]

theorem property_follows {depth : Nat} {k v : Value} (hk : Linked table k)
    (ih : Follows b table limit (visit b table limit path depth v)
      ((unfold table path v).stages depth false) (unfold table path v)) :
    Follows b table limit (visitItem b table limit path depth (.property k v))
      ((unfold table path (.property k v)).stages depth true)
      (unfold table path (.property k v)) := by
  have htest : isPropertyKey (unfold table path k) = isPropertyKey k :=
    test_unfold (fun _ => Value.isLeaf_of_isPropertyKey) hk
  have hv : visit b table limit path depth v = _ := ih
  rw [visitItem_property, Document.unfold_property, Value.stages, if_pos rfl]
  by_cases hc : isPropertyKey k
  · have hclear : (Place.propertyKey (unfold table path k)).fault? table limit = none := by
      rw [Place.fault?, htest, if_pos hc]
    have hleaf : unfold table path k = k :=
      Document.unfold_leaf (Value.isLeaf_of_isPropertyKey hc)
    rw [Follows, if_pos hc, Stage.perform_clear hclear, Stage.perform_append,
      Stage.perform_call, Stage.perform_nil, hv, hleaf]
    simp only [bind_assoc, pure_bind, Event.map, Value.fold_property]
  · have hfault : (Place.propertyKey (unfold table path k)).fault? table limit =
        some (.value .propertyKey (deref table k).typeName) := by
      rw [Place.fault?, htest, if_neg hc, typeName_unfold hk]
    rw [if_neg hc]
    exact follows_refuse hfault

/-- A reference that stays when the value is written out is refused. -/
theorem stuck_follows {v : Value} (h : Stuck table path v)
    (hpath : ∀ i ∈ path, i < table.length) (depth : Nat) :
    Follows b table limit (visit b table limit path depth v)
      ((unfold table path v).stages depth false) (unfold table path v) ∧
    Follows b table limit (visitItem b table limit path depth v)
      ((unfold table path v).stages depth true) (unfold table path v) := by
  cases h with
  | foreign name form =>
    simp only [visitItem, visit, unfold]
    exact ⟨follows_refuse rfl, follows_refuse rfl⟩
  | derived name w =>
    simp only [visitItem, visit, unfold]
    exact ⟨follows_refuse rfl, follows_refuse rfl⟩
  | @onPath kind i hi =>
    have hlt := hpath i hi
    rw [unfold, dif_pos hi]
    cases kind with
    | property =>
      rw [visit, visitItem, dif_pos hi]
      exact ⟨follows_refuse rfl, follows_refuse (if_pos hlt)⟩
    | _ =>
      simp only [visitItem, visit, dif_pos hi]
      exact ⟨follows_refuse (if_pos hlt), follows_refuse (if_pos hlt)⟩
  | @dangling kind i hi hlt =>
    rw [unfold, dif_neg hi, dif_neg hlt]
    cases kind with
    | property =>
      rw [visit, visitItem, dif_neg hi, dif_neg hlt]
      exact ⟨follows_refuse rfl, follows_refuse (if_neg hlt)⟩
    | _ =>
      simp only [visitItem, visit, dif_neg hi, dif_neg hlt]
      exact ⟨follows_refuse (if_neg hlt), follows_refuse (if_neg hlt)⟩

/-- What a property is as an item says nothing of other containers. -/
theorem stages_of_kind? {u : Value} {kind : SharedKind} (hk : Document.kind? u = some kind)
    (hne : kind ≠ .property) (depth : Nat) : u.stages depth true = u.stages depth false := by
  cases u <;> first | rfl | (cases hk; done) | (cases hk; exact absurd rfl hne)

/-- A walk over a value does what the stages of the value say. -/
theorem visit_follows (hb : b.limit = none) : ∀ path v depth,
    (∀ i ∈ path, i < table.length) → Linked table v →
    Follows b table limit (visit b table limit path depth v)
      ((unfold table path v).stages depth false) (unfold table path v) ∧
    Follows b table limit (visitItem b table limit path depth v)
      ((unfold table path v).stages depth true) (unfold table path v) := by
  refine Document.unfold_induction table ?leaf ?sequence ?map ?property ?shared ?stuck
  case leaf =>
    intro path v hl depth _ _
    have hclear : (Place.value depth v).fault? table limit = none := by
      cases v <;> first | rfl | cases hl
    have key : ∀ item, Follows b table limit (visit b table limit path depth v)
        (v.stages depth item) v := fun item => by
      rw [Follows, visit_leaf hl, Value.stages_leaf hl, Stage.perform_clear hclear,
        Stage.perform_call, Stage.perform_nil, Value.fold_leaf b hl]
      rfl
    rw [visitItem_leaf hl, Document.unfold_leaf hl]
    exact ⟨key false, key true⟩
  case sequence =>
    intro path mk items hm ih depth hpath hl
    have each := fun w hw => (ih w hw (depth + 1) hpath
      (hl.of_part ((Document.part_sequence hm).2 hw))).2
    rw [visitItem_sequence hm]
    exact ⟨sequence_follows hb hm false each, sequence_follows hb hm true each⟩
  case map =>
    intro path entries ih depth hpath hl
    have hkeys := fun e he => hl.of_part (Document.part_map_key (e := e) he)
    have each := fun e he => ((ih e he).2 (depth + 1) hpath
      (hl.of_part (Document.part_map_value he))).1
    rw [visitItem_map]
    exact ⟨map_follows hb false hkeys each, map_follows hb true hkeys each⟩
  case property =>
    intro path k v _ ihv depth hpath hl
    refine ⟨?_, property_follows (hl.of_part (Document.part_property_key k v))
      (ihv depth hpath (hl.of_part (Document.part_property_value k v))).1⟩
    rw [visit, Document.unfold_property]
    exact follows_refuse rfl
  case shared =>
    intro path kind i hi hlt ih depth hpath hl
    have hk := hl.kind?_eq hlt
    have hunfold : Document.kind? (unfold table (i :: path) table[i]) = some kind :=
      kind?_unfold hk
    obtain ⟨ih1, ih2⟩ := ih depth (List.forall_mem_cons.2 ⟨hlt, hpath⟩) (hl.named hlt)
    rw [Document.unfold_shared kind hi hlt]
    obtain ⟨rfl, hv, hitem⟩ | ⟨hkind, hv, hitem⟩ := visit_shared hi hlt kind depth
    · rw [hv, hitem]
      refine ⟨?_, ih2⟩
      cases hu : unfold table (i :: path) table[i] with
      | property k w => exact follows_refuse rfl
      | _ => rw [hu] at hunfold; cases hunfold
    · rw [hv, hitem, stages_of_kind? hunfold hkind]
      exact ⟨ih1, ih1⟩
  case stuck => exact fun path v hs depth hpath _ => stuck_follows hs hpath depth

end Walk

/-! ## Whole documents -/

namespace Document

open Walk (Stage)

/-- The stages of a walk over a document. -/
def stages (d : Document) : List Stage :=
  d.unfolded.stages 0 false ++ [.call (.root d.unfolded)]

theorem walk_eq_perform {α β : Type} {b : Builder α β} (hb : b.limit = none) {d : Document}
    (hl : Linked d.table d.root) (limit : Value) :
    d.walk b limit = (do
      Stage.perform b d.table limit d.stages
      .ofExcept (b.finish (d.unfolded.fold b))) := by
  have hv : Walk.visit b d.table limit [] 0 d.root = _ :=
    (Walk.visit_follows hb [] d.root 0 (fun i hi => absurd hi List.not_mem_nil) hl).1
  rw [walk, hv, stages, Stage.perform_append, Stage.perform_call, Stage.perform_nil]
  simp only [bind_assoc, pure_bind]
  rfl

/-- Either nothing is wrong anywhere in a document, and each walk that draws all items makes the
calls of all stages and succeeds; or there is a first place at which something is wrong, and each
such walk makes the calls of the stages before it and fails with what is wrong there. The
builders of values, of outlines and of texts draw all items and never fail themselves. -/
theorem walk_first_fault {d : Document} (hl : Linked d.table d.root) (limit : Value) :
    (((∀ s ∈ d.stages, s.fault? d.table limit = none) ∧
        ∀ {α β : Type} (b : Builder α β), b.Complete →
          ∃ r, d.walk b limit = ⟨d.stages.filterMap (Stage.call? b), .ok r⟩) ∨
      ∃ before place after e, d.stages = before ++ .reach place :: after ∧
        (∀ s ∈ before, s.fault? d.table limit = none) ∧
        place.fault? d.table limit = some e ∧
        ∀ {α β : Type} (b : Builder α β), b.Complete →
          d.walk b limit = ⟨before.filterMap (Stage.call? b), .error e⟩) ∧
    Builder.values.Complete ∧ (Builder.outline none).Complete ∧
      (∀ mark, (Printer.compact mark).Complete) ∧
      ∀ mark indent eol, (Printer.tall mark indent eol).Complete := by
  refine ⟨?_, Builder.complete_values, Builder.complete_outline, Printer.complete_compact,
    Printer.complete_tall⟩
  rcases Stage.exists_first_fault d.table limit d.stages with
    hclear | ⟨before, place, after, e, hd, hclear, he⟩
  · refine Or.inl ⟨hclear, fun b hb => ?_⟩
    obtain ⟨r, hr⟩ := hb.finishes _ (b.made_fold d.unfolded)
    refine ⟨r, ?_⟩
    rw [walk_eq_perform hb.draws hl, Stage.perform_of_clear hclear, Run.bind_ok, hr]
    simp only [Run.ofExcept, List.append_nil]
  · refine Or.inr ⟨before, place, after, e, hd, hclear, he, fun b hb => ?_⟩
    rw [walk_eq_perform hb.draws hl, hd, Stage.perform_append, Stage.perform_of_clear hclear,
      Stage.perform_fault he]
    simp only [Run.bind_ok, Run.fail, Run.bind_error, List.append_nil]

/-- A list that holds itself under a key, and after that something that is no data. -/
theorem walk_first_fault_recursive :
    let d : Document := ⟨[.list [.int 1, .map [(.text "a", .shared .list 0)],
      .foreign "set" "\x7b1\x7d"]], .shared .list 0⟩
    Linked d.table d.root ∧
      ∀ f : Format, (d.walk f.printer (.int 2)).outcome = .error (.value .recursive "list") := by
  intro d
  have reached : ∀ v, ReflTransGen (Part d.table) d.root v → ∀ kind i, v = .shared kind i →
      kind = .list ∧ i = 0 := by
    have all : ∀ v, ReflTransGen (Part d.table) d.root v → v = d.root ∨ v = .int 1 ∨
        v = .map [(.text "a", d.root)] ∨ v = .text "a" ∨ v = .foreign "set" "\x7b1\x7d" := by
      intro v hv
      induction hv with
      | refl => exact Or.inl rfl
      | tail _ hw ih =>
        rcases ih with rfl | rfl | rfl | rfl | rfl <;>
          simp only [Part, d, deref, List.getElem?_cons_zero, Option.getD_some, Value.base,
            Value.int, Value.parts, List.flatMap_cons, List.flatMap_nil, List.append_nil,
            List.mem_cons, List.not_mem_nil, or_false] at hw
        · rcases hw with rfl | rfl | rfl <;> simp [d, Value.int]
        · rcases hw with rfl | rfl <;> simp [d]
    intro v hv kind i h
    rcases all v hv with rfl | rfl | rfl | rfl | rfl <;> cases h
    exact ⟨rfl, rfl⟩
  have hl : Linked d.table d.root := by
    intro kind i w hv hi
    obtain ⟨rfl, rfl⟩ := reached _ hv kind i rfl
    cases hi
    rfl
  have failed : (d.walk .values (.int 2)).outcome = .error (.value .recursive "list") := by
    simp [walk, Walk.visit, Walk.visitItems, Walk.visitItem, Walk.visitEntries, Walk.refuse,
      Walk.isMapKey, Builder.drawn, Builder.values, Value.checkDepth, Value.number?, Value.base,
      Value.int, Number.reachedBy, Value.typeName, d]
  refine ⟨hl, fun f => ?_⟩
  obtain ⟨⟨-, succeeds⟩ | ⟨before, place, after, e, -, -, -, fails⟩, hvalues, -⟩ :=
    walk_first_fault hl (.int 2)
  · obtain ⟨r, hr⟩ := succeeds .values hvalues
    rw [hr] at failed
    cases failed
  · rw [fails .values hvalues] at failed
    obtain rfl : e = _ := Except.error.inj failed
    rw [fails f.printer f.complete_printer]

end Document

end LuaData
