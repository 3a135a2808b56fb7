import LuaData.Proofs.Document.Walk

/-
  Walks that draw a few items of each container. Such a walk goes over a document as a walk that
  draws all items goes over the document with each container cut to as many items, and only the
  sizes that are announced are those of the containers before they are cut (`walk_drawing`). So
  what is not drawn is not visited, nothing there can fail, and what comes after it is met at
  the depth and inside of the containers that it stands in. Documents may share values and
  enclose themselves: they are cut container by container, and references stay what they are.
-/

namespace LuaData

open Document (unfold deref Stuck)
open Value (IsSequence)

namespace Value

/-! ## Values with a few items -/

mutual

/-- The value with the first `k` items of each of its lists, tuples and maps. -/
def cut (k : Nat) : Value → Value
  | .list items => .list ((cutAll k items).take k)
  | .tuple items => .tuple ((cutAll k items).take k)
  | .map entries => .map ((cutEntries k entries).take k)
  | .property key v => .property key (cut k v)
  | v => v

def cutAll (k : Nat) : List Value → List Value
  | [] => []
  | v :: rest => cut k v :: cutAll k rest

def cutEntries (k : Nat) : List (Value × Value) → List (Value × Value)
  | [] => []
  | (key, v) :: rest => (key, cut k v) :: cutEntries k rest

end

variable {k : Nat}

theorem cutAll_eq_map (items : List Value) : cutAll k items = items.map (cut k) := by
  induction items with
  | nil => rfl
  | cons v rest ih => rw [cutAll, ih, List.map_cons]

theorem cutEntries_eq_map (entries : List (Value × Value)) :
    cutEntries k entries = entries.map fun e => (e.1, e.2.cut k) := by
  induction entries with
  | nil => rfl
  | cons e rest ih => obtain ⟨key, v⟩ := e; rw [cutEntries, ih, List.map_cons]

theorem cut_sequence {mk : List Value → Value} (hm : IsSequence mk) (items : List Value) :
    (mk items).cut k = mk ((items.take k).map (cut k)) := by
  cases hm <;> rw [cut, cutAll_eq_map, List.map_take]

theorem cut_map (entries : List (Value × Value)) :
    (Value.map entries).cut k = .map ((entries.take k).map fun e => (e.1, e.2.cut k)) := by
  rw [cut, cutEntries_eq_map, List.map_take]

theorem cut_leaf {v : Value} (h : v.isLeaf) : v.cut k = v := by
  cases v <;> first | rfl | cases h

theorem cut_shared (kind : SharedKind) (i : Nat) : (Value.shared kind i).cut k = .shared kind i :=
  rfl

theorem typeName_cut (v : Value) : (v.cut k).typeName = v.typeName := by
  cases v <;> rfl

theorem typeName_held_cut (v : Value) :
    (Walk.held (v.cut k)).typeName = (Walk.held v).typeName := by
  cases v with
  | property key v => exact typeName_cut v
  | _ => rfl

end Value

/-! ## The sizes of containers -/

/-- Gathers the sizes of containers and of those in their first `k` items, outer ones first. -/
def Builder.sizes (k : Nat) : Builder (List Nat) (List Nat) where
  limit := none
  constant _ := []
  sequence items := items.length :: (items.take k).flatten
  mapping entries := entries.length :: (entries.take k).flatMap Prod.snd
  property _ ns := ns
  finish := .ok

namespace Value

variable {k : Nat}

/-- The sizes of the containers in a value that are come to by way of first `k` items. -/
def sizes (k : Nat) (v : Value) : List Nat := v.fold (.sizes k)

theorem sizes_sequence {mk : List Value → Value} (hm : IsSequence mk) (items : List Value) :
    (mk items).sizes k = items.length :: (items.take k).flatMap (sizes k) := by
  rw [sizes, fold_sequence _ hm]
  simp only [Builder.sizes, List.length_map, ← List.map_take, List.flatMap_def]
  rfl

theorem sizes_map (entries : List (Value × Value)) : (Value.map entries).sizes k =
    entries.length :: (entries.take k).flatMap fun e => e.2.sizes k := by
  rw [sizes, fold_map]
  simp only [Builder.sizes, List.length_map, ← List.map_take, List.flatMap_map]
  rfl

theorem sizes_property (key v : Value) : (Value.property key v).sizes k = v.sizes k :=
  fold_property _ key v

theorem sizes_leaf {v : Value} (h : v.isLeaf) : v.sizes k = [] := fold_leaf _ h

end Value

namespace Event

variable {α : Type}

/-- The size that a call announces. -/
def size? : Event α → Option Nat
  | .startSequence n | .startMapping n => some n
  | _ => none

/-- The call without the size that it announces. -/
def unsized : Event α → Event α
  | .startSequence _ => .startSequence 0
  | .startMapping _ => .startMapping 0
  | e => e

end Event

/-! ## Runs that differ in the sizes they announce -/

namespace Run

variable {α ρ ρ' : Type} {x y : Run (Event α) ρ} {ns ms : List Nat}

/-- The run `x` is `y` but for the sizes it announces. Those are the first of `ns`, and all of
them if it succeeds. -/
structure Resized (ns : List Nat) (x y : Run (Event α) ρ) : Prop where
  outcome : x.outcome = y.outcome
  calls : x.trail.map Event.unsized = y.trail.map Event.unsized
  first : x.trail.filterMap Event.size? <+: ns
  all : ∀ r, x.outcome = .ok r → x.trail.filterMap Event.size? = ns

namespace Resized

theorem bind {f g : ρ → Run (Event α) ρ'} (h : Resized ns x y)
    (hf : ∀ r, Resized ms (f r) (g r)) : Resized (ns ++ ms) (x >>= f) (y >>= g) := by
  obtain ⟨trail, outcome⟩ := x
  obtain ⟨trail', outcome'⟩ := y
  obtain ⟨rfl, hcalls, hfirst, hall⟩ := h
  cases outcome with
  | error e => exact ⟨rfl, hcalls, hfirst.trans (List.prefix_append ns ms), fun r hr => by cases hr⟩
  | ok r =>
    obtain ⟨houtcome, hcalls', hfirst', hall'⟩ := hf r
    obtain rfl : trail.filterMap Event.size? = ns := hall r rfl
    rw [bind_ok, bind_ok]
    refine ⟨houtcome, ?_, ?_, fun s hs => ?_⟩
    · rw [List.map_append, List.map_append, hcalls', show trail.map _ = trail'.map _ from hcalls]
    · rw [List.filterMap_append]
      exact (List.prefix_append_right_inj _).2 hfirst'
    · rw [List.filterMap_append, hall' s hs]

/-- What comes after may announce nothing. -/
theorem bind_silent {f g : ρ → Run (Event α) ρ'} (h : Resized ns x y)
    (hf : ∀ r, Resized [] (f r) (g r)) : Resized ns (x >>= f) (y >>= g) :=
  List.append_nil ns ▸ h.bind hf

theorem pure (r : ρ) : Resized [] (pure r : Run (Event α) ρ) (pure r) :=
  ⟨rfl, rfl, List.prefix_rfl, fun _ _ => rfl⟩

theorem fail (ns : List Nat) (e : Failure) : Resized ns (fail e : Run (Event α) ρ) (fail e) :=
  ⟨rfl, rfl, List.nil_prefix, fun _ h => by cases h⟩

theorem ofExcept (x : Except Failure ρ) :
    Resized [] (ofExcept x : Run (Event α) ρ) (ofExcept x) :=
  ⟨rfl, rfl, List.prefix_rfl, fun _ _ => rfl⟩

theorem step (e : Event α) (h : e.size? = none) : Resized [] (Run.step e) (Run.step e) :=
  ⟨rfl, rfl, by rw [Run.step, steps, List.filterMap_cons_none h]; exact List.prefix_rfl,
    fun _ _ => List.filterMap_cons_none h⟩

theorem startSequence (n m : Nat) :
    Resized [n] (Run.step (.startSequence n : Event α)) (Run.step (.startSequence m)) :=
  ⟨rfl, rfl, List.prefix_rfl, fun _ _ => rfl⟩

theorem startMapping (n m : Nat) :
    Resized [n] (Run.step (.startMapping n : Event α)) (Run.step (.startMapping m)) :=
  ⟨rfl, rfl, List.prefix_rfl, fun _ _ => rfl⟩

end Resized

end Run

/-- The same builder, which draws at most so many items. -/
def Builder.drawing {α β : Type} (b : Builder α β) (limit : Option Nat) : Builder α β :=
  { b with limit := limit }

namespace Walk

variable {α β : Type} {b : Builder α β} {table : List Value} {limit : Value} {k : Nat}
  {path : List Nat} {depth : Nat}

theorem typeName_deref_cut (v : Value) :
    (deref (table.map (Value.cut k)) v).typeName = (deref table v).typeName := by
  cases v with
  | shared kind i =>
    simp only [deref, List.getElem?_map]
    cases table[i]? with
    | none => rfl
    | some w => exact Value.typeName_cut w
  | _ => rfl

theorem typeName_held_deref_cut (v : Value) :
    (held (deref (table.map (Value.cut k)) v)).typeName = (held (deref table v)).typeName := by
  cases v with
  | shared kind i =>
    simp only [deref, List.getElem?_map]
    cases table[i]? with
    | none => rfl
    | some w => exact Value.typeName_held_cut w
  | _ => rfl

theorem refuse_resized {ρ : Type} {problem : ValueProblem} {v w : Value}
    (h : w.typeName = v.typeName) (ns : List Nat) :
    Run.Resized ns (refuse problem v : Run (Event α) ρ) (refuse problem w) := by
  rw [refuse, refuse, h]
  exact .fail ns _

/-! ## Visits

One of two visits draws `k` items of the containers in `v`, and the other one draws all items of
the containers in what `v` is cut to. -/

/-- The two visits of one value. -/
def Cut (b : Builder α β) (table : List Value) (limit : Value) (k : Nat) (path : List Nat)
    (depth : Nat) (v : Value) : Prop :=
  Run.Resized ((unfold table path v).sizes k)
    (visit (b.drawing (some k)) table limit path depth v)
    (visit (b.drawing none) (table.map (Value.cut k)) limit path depth (v.cut k))

/-- The two visits of one item. -/
def CutItem (b : Builder α β) (table : List Value) (limit : Value) (k : Nat) (path : List Nat)
    (depth : Nat) (v : Value) : Prop :=
  Run.Resized ((unfold table path v).sizes k)
    (visitItem (b.drawing (some k)) table limit path depth v)
    (visitItem (b.drawing none) (table.map (Value.cut k)) limit path depth (v.cut k))

theorem visitItems_cut {items : List Value}
    (ih : ∀ v ∈ items, CutItem b table limit k path depth v) :
    Run.Resized ((items.map (unfold table path)).flatMap (Value.sizes k))
      (visitItems (b.drawing (some k)) table limit path depth items)
      (visitItems (b.drawing none) (table.map (Value.cut k)) limit path depth
        (items.map (Value.cut k))) := by
  induction items with
  | nil =>
    simp only [List.map_nil, List.flatMap_nil, visitItems]
    exact .pure []
  | cons v rest ihr =>
    rw [List.map_cons, List.map_cons, List.flatMap_cons, visitItems, visitItems]
    refine (ih v List.mem_cons_self).bind fun r => ?_
    exact (ihr fun w hw => ih w (List.mem_cons_of_mem v hw)).bind_silent fun rs => .pure (r :: rs)

theorem visitEntries_cut {entries : List (Value × Value)}
    (ih : ∀ e ∈ entries, Cut b table limit k path depth e.2) :
    Run.Resized (entries.flatMap fun e => (unfold table path e.2).sizes k)
      (visitEntries (b.drawing (some k)) table limit path depth entries)
      (visitEntries (b.drawing none) (table.map (Value.cut k)) limit path depth
        (entries.map fun e => (e.1, e.2.cut k))) := by
  induction entries with
  | nil =>
    simp only [List.map_nil, List.flatMap_nil, visitEntries]
    exact .pure []
  | cons e rest ihr =>
    obtain ⟨key, v⟩ := e
    rw [List.map_cons, List.flatMap_cons, visitEntries_cons, visitEntries_cons]
    split
    · refine (ih (key, v) List.mem_cons_self).bind fun r => ?_
      exact (Run.Resized.step (.item key r) rfl).bind fun _ =>
        (ihr fun f hf => ih f (List.mem_cons_of_mem _ hf)).bind_silent fun rs =>
          .pure ((key, r) :: rs)
    · exact refuse_resized (typeName_deref_cut key) _

theorem visit_sequence_drawn {mk : List Value → Value} (hm : IsSequence mk)
    (items : List Value) : visit b table limit path depth (mk items) = (do
      .ofExcept (limit.checkDepth depth)
      .step (.startSequence items.length)
      let results ← visitItems b table limit path (depth + 1) (b.drawn items)
      .step (.endSequence (b.sequence results))
      return b.sequence results) := by
  cases hm <;> rw [visit]

theorem sequence_cut {mk : List Value → Value} (hm : IsSequence mk) {items : List Value}
    (ih : ∀ v ∈ items, CutItem b table limit k path (depth + 1) v) :
    Cut b table limit k path depth (mk items) := by
  have drawn := visitItems_cut fun v (hv : v ∈ items.take k) => ih v (List.mem_of_mem_take hv)
  rw [Cut, Document.unfold_sequence hm, Value.sizes_sequence hm, Value.cut_sequence hm,
    visit_sequence_drawn hm, visit_sequence_drawn hm, List.length_map, ← List.map_take]
  exact (Run.Resized.ofExcept (limit.checkDepth depth)).bind fun _ =>
    (Run.Resized.startSequence items.length _).bind fun _ =>
      drawn.bind_silent fun rs =>
        (Run.Resized.step (.endSequence (b.sequence rs)) rfl).bind fun _ =>
          .pure (b.sequence rs)

theorem map_cut {entries : List (Value × Value)}
    (ih : ∀ e ∈ entries, Cut b table limit k path (depth + 1) e.2) :
    Cut b table limit k path depth (.map entries) := by
  have drawn := visitEntries_cut fun e (he : e ∈ entries.take k) => ih e (List.mem_of_mem_take he)
  rw [Cut, Document.unfold_map, Value.sizes_map, Value.cut_map, visit, visit, List.length_map,
    ← List.map_take, List.flatMap_map]
  exact (Run.Resized.ofExcept (limit.checkDepth depth)).bind fun _ =>
    (Run.Resized.startMapping entries.length _).bind fun _ =>
      drawn.bind_silent fun rs =>
        (Run.Resized.step .endMapping rfl).bind fun _ => .pure (b.mapping rs)

theorem property_cut {key v : Value} (ih : Cut b table limit k path depth v) :
    CutItem b table limit k path depth (.property key v) := by
  rw [CutItem, Document.unfold_property, Value.sizes_property, Value.cut, visitItem_property,
    visitItem_property]
  split
  · exact ih.bind_silent fun r =>
      (Run.Resized.step (.property key r) rfl).bind fun _ => .pure (b.property key r)
  · exact refuse_resized (typeName_deref_cut key) _

theorem stuck_cut {v : Value} (h : Stuck table path v) :
    Cut b table limit k path depth v ∧ CutItem b table limit k path depth v := by
  have hlength : (table.map (Value.cut k)).length = table.length := List.length_map _
  cases h with
  | foreign name form =>
    simp only [Cut, CutItem, Value.cut, visitItem, visit]
    exact ⟨refuse_resized rfl _, refuse_resized rfl _⟩
  | derived name w =>
    simp only [Cut, CutItem, Value.cut, visitItem, visit]
    exact ⟨refuse_resized rfl _, refuse_resized rfl _⟩
  | onPath kind hi =>
    simp only [Cut, CutItem, Value.cut_shared]
    cases kind with
    | property =>
      simp only [visitItem, visit, dif_pos hi]
      exact ⟨refuse_resized rfl _, refuse_resized (typeName_held_deref_cut _) _⟩
    | _ =>
      simp only [visitItem, visit, dif_pos hi]
      exact ⟨refuse_resized rfl _, refuse_resized rfl _⟩
  | dangling kind hi hlt =>
    have hlt' := hlength ▸ hlt
    cases kind <;>
      simp only [Cut, CutItem, Value.cut, visitItem, visit, dif_neg hi, dif_neg hlt, dif_neg hlt'] <;>
      exact ⟨refuse_resized rfl _, refuse_resized rfl _⟩

/-- Drawing `k` items of each container is drawing all items of containers with `k` items. -/
theorem visit_cut : ∀ path v depth,
    Cut b table limit k path depth v ∧ CutItem b table limit k path depth v := by
  refine Document.unfold_induction table ?leaf ?sequence ?map ?property ?shared ?stuck
  case leaf =>
    intro path v hl depth
    have key : Cut b table limit k path depth v := by
      rw [Cut, Document.unfold_leaf hl, Value.sizes_leaf hl, Value.cut_leaf hl, visit_leaf hl,
        visit_leaf hl]
      exact (Run.Resized.step (.constant v) rfl).bind fun _ => .pure (b.constant v)
    refine ⟨key, ?_⟩
    rw [CutItem, Value.cut_leaf hl, visitItem_leaf hl, visitItem_leaf hl]
    rwa [Cut, Value.cut_leaf hl] at key
  case sequence =>
    intro path mk items hm ih depth
    have key := sequence_cut hm fun v hv => (ih v hv (depth + 1)).2
    refine ⟨key, ?_⟩
    rw [CutItem, Value.cut_sequence hm, visitItem_sequence hm, visitItem_sequence hm]
    rwa [Cut, Value.cut_sequence hm] at key
  case map =>
    intro path entries ih depth
    have key := map_cut fun e he => ((ih e he).2 (depth + 1)).1
    refine ⟨key, ?_⟩
    rw [CutItem, Value.cut_map, visitItem_map, visitItem_map]
    rwa [Cut, Value.cut_map] at key
  case property =>
    intro path key v _ ihv depth
    refine ⟨?_, property_cut (ihv depth).1⟩
    rw [Cut, Value.cut, visit, visit]
    exact refuse_resized rfl _
  case shared =>
    intro path kind i hi hlt ih depth
    obtain ⟨ih1, ih2⟩ := ih depth
    have hlt' : i < (table.map (Value.cut k)).length := by rwa [List.length_map]
    have hnamed : (table.map (Value.cut k))[i] = table[i].cut k := List.getElem_map _
    have few := @visit_shared _ _ (b.drawing (some k)) table limit path i hi hlt kind depth
    have whole := @visit_shared _ _ (b.drawing none) (table.map (Value.cut k)) limit path i hi
      hlt' kind depth
    rw [Cut, CutItem, Document.unfold_shared kind hi hlt, Value.cut_shared]
    -- both visits come to the same reference, so it leads to a property for both or for neither
    obtain ⟨hkind, hv, hitem⟩ | ⟨hkind, hv, hitem⟩ := few <;>
      obtain ⟨hkind', hv', hitem'⟩ | ⟨hkind', hv', hitem'⟩ := whole
    · rw [hv, hv', hitem, hitem', hnamed]
      exact ⟨refuse_resized rfl _, ih2⟩
    · exact absurd hkind hkind'
    · exact absurd hkind' hkind
    · rw [hv, hv', hitem, hitem', hnamed]
      exact ⟨ih1, ih1⟩
  case stuck => exact fun path v hs depth => stuck_cut hs

end Walk

namespace Document

/-- The document with the first `k` items of each of its containers. -/
def cut (k : Nat) (d : Document) : Document := ⟨d.table.map (Value.cut k), d.root.cut k⟩

/-- A walk with a builder that draws `k` items of each container does what the same builder does
without a limit on the document whose containers are cut to `k` items: it makes the same calls
with the same results, and ends alike. Only where it announces a container does it tell the size
before the cut. An outline is drawn by a builder of this kind. -/
theorem walk_drawing {α β : Type} (b : Builder α β) (d : Document) (limit : Value) (k : Nat) :
    let few := d.walk (b.drawing (some k)) limit
    let whole := (d.cut k).walk (b.drawing none) limit
    few.outcome = whole.outcome ∧
      few.trail.map Event.unsized = whole.trail.map Event.unsized ∧
      few.trail.filterMap Event.size? <+: d.unfolded.sizes k ∧
      (∀ r, few.outcome = .ok r → few.trail.filterMap Event.size? = d.unfolded.sizes k) ∧
      ∀ n, Builder.outline n = (Builder.outline none).drawing n := by
  intro few whole
  have runs : Run.Resized (d.unfolded.sizes k) few whole :=
    (Walk.visit_cut [] d.root 0).1.bind_silent fun r =>
      (Run.Resized.step (.root r) rfl).bind fun _ => .ofExcept (b.finish r)
  obtain ⟨outcome, calls, first, all⟩ := runs
  exact ⟨outcome, calls, first, all, fun _ => rfl⟩

/-- Nothing fails beyond the items that are drawn, and the next list is met as it would be. -/
example : ((Document.ofValue (.list [.list [.int 1, .foreign "set" "s"], .int 2])).walk
    (.outline (some 1)) (.int 2)).outcome.toOption = some "[[c]]" := by
  cbv

end Document

end LuaData
