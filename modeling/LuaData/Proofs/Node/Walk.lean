import LuaData.Format
import LuaData.Proofs.Document.Acceptance
import LuaData.Proofs.Node.Shape

/-
  The walk over a tree and the walk over the value that the tree is read as. A visit of a node
  that succeeds with one builder comes to the same data with every builder that draws all items,
  and makes the calls for that data (`Node.visit_tells`). Reading a tree puts entries with the
  same key together, so the value is that data where no mapping holds a key twice.
-/

namespace LuaData

open Relation (ReflTransGen)
open Document (Part deref)
open Walk (isPropertyKey isMapKey)

namespace Node

variable {α β : Type} {b : Builder α β} {table : List Value} {limit : Value}

/-! ## Calls and notes -/

theorem filterSteps_emit (e : Event α) :
    (emit e).filterSteps Step.event? = Run.step e := rfl

theorem filterSteps_notes (notes : List Note) :
    (Run.steps (notes.map Step.note) : Run (Step α) Unit).filterSteps Step.event? =
      Run.steps [] := by
  induction notes with
  | nil => rfl
  | cons n rest ih => exact ih

/-- A run for each builder that hands the parts of `u` to it, if it draws all items. -/
def Tells (x : ∀ α β : Type, Builder α β → Run (Step α) α) (u : Value) : Prop :=
  u.IsItem ∧ u.listed = u ∧ ∀ {α β : Type} (b : Builder α β), b.limit = none →
    (x α β b).filterSteps Step.event? = ⟨u.events b, .ok (u.fold b)⟩

theorem tells_constant {c : Value} (hc : c.isLeaf) :
    Tells (fun _ _ b => do emit (.constant c); return b.constant c) c := by
  refine ⟨.leaf hc, Value.listed_leaf hc, fun b _ => ?_⟩
  rw [Value.events_leaf b hc, Value.fold_leaf b hc]
  rfl

theorem isLeaf_escaped {c : Value} (hc : c.isLeaf) : c.escaped.isLeaf := by
  cases c <;> first | rfl | cases hc

theorem listed_list_eq_self {us : List Value} (hus : ∀ u ∈ us, u.listed = u) :
    (Value.list us).listed = .list us := by
  rw [Value.listed_sequence .list]
  exact congrArg Value.list ((List.map_congr_left hus).trans (List.map_id us))

theorem listed_map_eq_self {us : List (Value × Value)} (hus : ∀ e ∈ us, e.2.listed = e.2) :
    (Value.map us).listed = .map us := by
  rw [Value.listed_map]
  refine congrArg Value.map ((List.map_congr_left fun e he => ?_).trans (List.map_id us))
  rw [hus e he]
  rfl

theorem filterSteps_sequence {x : Run (Step α) (List α)} {us : List Value} {n : Nat}
    (hlen : us.length = n)
    (told : x.filterSteps Step.event? = ⟨Value.eventsAll b us, .ok (us.map (Value.fold b))⟩) :
    (do
      emit (.startSequence n)
      let results ← x
      emit (.endSequence (b.sequence results))
      return b.sequence results : Run (Step α) α).filterSteps Step.event? =
      ⟨(Value.list us).events b, .ok ((Value.list us).fold b)⟩ := by
  rw [Run.filterSteps_bind, filterSteps_emit, Run.step_bind, Run.filterSteps_bind, told,
    Run.bind_ok, Run.filterSteps_bind, filterSteps_emit, Run.step_bind,
    Value.events_sequence b .list, Value.fold_list, ← hlen]
  rfl

theorem filterSteps_mapping {x : Run (Step α) (List (Value × α))} {us : List (Value × Value)}
    {n : Nat} (hlen : us.length = n)
    (told : x.filterSteps Step.event? =
      ⟨Value.eventsEntries b us, .ok (us.map fun e => (e.1, e.2.fold b))⟩) :
    (do
      emit (.startMapping n)
      let results ← x
      emit .endMapping
      return b.mapping results : Run (Step α) α).filterSteps Step.event? =
      ⟨(Value.map us).events b, .ok ((Value.map us).fold b)⟩ := by
  rw [Run.filterSteps_bind, filterSteps_emit, Run.step_bind, Run.filterSteps_bind, told,
    Run.bind_ok, Run.filterSteps_bind, filterSteps_emit, Run.step_bind, Value.events,
    Value.fold_map, ← hlen]
  rfl

/-! ## Induction on the reach -/

/-- Induction for walks over trees: each step uses up some reach, or comes to a lighter value
where there is none left. -/
theorem reach_induction {motive : Nat → Value → Prop}
    (step : ∀ reach v, (∀ cost w, 0 < cost → (reach = 0 → w.weight < v.weight) →
      motive (reach - cost) w) → motive reach v) : ∀ reach v, motive reach v := by
  intro reach
  induction reach using Nat.strongRecOn with
  | ind reach ihr =>
    have bounded : ∀ n v, v.weight ≤ n → motive reach v := by
      intro n
      induction n with
      | zero => intro v hw; have := v.weight_pos; omega
      | succ n ih =>
        intro v hw
        refine step reach v fun cost w hc hlt => ?_
        by_cases h0 : reach = 0
        · have := hlt h0
          rw [show reach - cost = reach by omega]
          exact ih w (by omega)
        · exact ihr (reach - cost) (by omega) w
    exact fun v => bounded v.weight v (Nat.le_refl _)

/-! ## Visits -/

theorem visitValue_tells {reach level : Nat} {v : Value} (hv : Exact table v)
    (ih : ∀ r, (visit b table limit reach level v).outcome = .ok r →
      ∃ u, u.IsData ∧ Tells (fun _ _ b => visit b table limit reach level v) u)
    {r : α} (h : (visitValue b table limit reach level v).outcome = .ok r) :
    ∃ u, u.IsData ∧ Tells (fun _ _ b => visitValue b table limit reach level v) u := by
  simp only [visitValue] at h ⊢
  split at h
  · rename_i hs
    obtain ⟨c, hc, -⟩ := Run.exists_of_bind_ok h
    rw [Run.outcome_ofExcept] at hc
    have hl := isLeaf_escaped (isLeaf_of_scalar hv hc)
    simp only [if_pos hs, hc, Run.ofExcept_ok_bind]
    exact ⟨c.escaped, Value.isData_of_isLeaf hl, tells_constant hl⟩
  · rename_i hs
    simp only [if_neg hs]
    exact ih r h

theorem visitAll_tells {reach level : Nat} {nodes : List Value}
    (ih : ∀ v ∈ nodes, ∀ r, (visit b table limit reach level v).outcome = .ok r →
      ∃ u, u.IsData ∧ Tells (fun _ _ b => visit b table limit reach level v) u)
    {rs : List α} (h : (visitAll b table limit reach level nodes).outcome = .ok rs) :
    ∃ us : List Value, us.length = nodes.length ∧ (∀ u ∈ us, u.IsItem ∧ u.listed = u) ∧
      ∀ {α β : Type} (b : Builder α β), b.limit = none →
        (visitAll b table limit reach level nodes).filterSteps Step.event? =
          ⟨Value.eventsAll b us, .ok (us.map (Value.fold b))⟩ := by
  induction nodes generalizing rs with
  | nil =>
    refine ⟨[], rfl, fun u hu => absurd hu List.not_mem_nil, fun b _ => ?_⟩
    rw [visitAll]
    rfl
  | cons v rest ihr =>
    rw [visitAll] at h
    obtain ⟨r, hv, h⟩ := Run.exists_of_bind_ok h
    obtain ⟨rs', hrest, -⟩ := Run.exists_of_bind_ok h
    obtain ⟨u, hd, hi, hu, tells⟩ := ih v List.mem_cons_self r hv
    obtain ⟨us, hlen, hus, told⟩ := ihr (fun w hw => ih w (List.mem_cons_of_mem _ hw)) hrest
    refine ⟨u :: us, congrArg (· + 1) hlen, List.forall_mem_cons.2 ⟨⟨hi, hu⟩, hus⟩,
      fun b hb => ?_⟩
    rw [visitAll, Run.filterSteps_bind, tells b hb, Run.bind_ok, Run.filterSteps_bind, told b hb]
    simp only [Run.pure_eq, Run.filterSteps_mk, List.filterMap_nil, Run.bind_ok,
      List.append_nil, List.map_cons, Value.eventsAll]

theorem visitEntries_tells {reach level : Nat} {entries : List (Value × Value)}
    (ih : ∀ e ∈ entries, ∀ r, (visitValue b table limit reach level e.2).outcome = .ok r →
      ∃ u, u.IsData ∧ Tells (fun _ _ b => visitValue b table limit reach level e.2) u)
    {rs : List (Value × α)}
    (h : (visitEntries b table limit reach level entries).outcome = .ok rs) :
    ∃ us : List (Value × Value), us.map Prod.fst = entries.map Prod.fst ∧
      (∀ e ∈ us, e.2.IsData ∧ e.2.listed = e.2) ∧
      ∀ {α β : Type} (b : Builder α β), b.limit = none →
        (visitEntries b table limit reach level entries).filterSteps Step.event? =
          ⟨Value.eventsEntries b us, .ok (us.map fun e => (e.1, e.2.fold b))⟩ := by
  induction entries generalizing rs with
  | nil =>
    refine ⟨[], rfl, fun e he => absurd he List.not_mem_nil, fun b _ => ?_⟩
    rw [visitEntries]
    rfl
  | cons e rest ihr =>
    obtain ⟨key, node⟩ := e
    rw [visitEntries] at h
    obtain ⟨r, hv, h⟩ := Run.exists_of_bind_ok h
    obtain ⟨⟨⟩, -, h⟩ := Run.exists_of_bind_ok h
    obtain ⟨rs', hrest, -⟩ := Run.exists_of_bind_ok h
    obtain ⟨u, hd, hi, hu, tells⟩ := ih (key, node) List.mem_cons_self r hv
    obtain ⟨us, hkeys, hus, told⟩ := ihr (fun w hw => ih w (List.mem_cons_of_mem _ hw)) hrest
    refine ⟨(key, u) :: us, congrArg (key :: ·) hkeys,
      List.forall_mem_cons.2 ⟨⟨hd, hu⟩, hus⟩, fun b hb => ?_⟩
    rw [visitEntries, Run.filterSteps_bind, tells b hb, Run.bind_ok, Run.filterSteps_bind,
      filterSteps_emit, Run.step_bind, Run.filterSteps_bind, told b hb]
    simp only [Run.pure_eq, Run.filterSteps_mk, List.filterMap_nil, Run.bind_ok,
      List.append_nil, List.map_cons, Value.eventsEntries]

theorem visitFields_tells {reach level : Nat} {fields : List Field}
    (hf : ∀ f ∈ fields, f.Exact table)
    (ih : ∀ f ∈ fields, ∀ r, (visitValue b table limit reach level f.node).outcome = .ok r →
      ∃ u, u.IsData ∧ Tells (fun _ _ b => visitValue b table limit reach level f.node) u)
    {rs : List α} (h : (visitFields b table limit reach level fields).outcome = .ok rs) :
    ∃ us : List Value, us.length = fields.length ∧ (∀ u ∈ us, u.IsItem ∧ u.listed = u) ∧
      ∀ {α β : Type} (b : Builder α β), b.limit = none →
        (visitFields b table limit reach level fields).filterSteps Step.event? =
          ⟨Value.eventsAll b us, .ok (us.map (Value.fold b))⟩ := by
  induction fields generalizing rs with
  | nil =>
    refine ⟨[], rfl, fun u hu => absurd hu List.not_mem_nil, fun b _ => ?_⟩
    rw [visitFields]
    rfl
  | cons f rest ihr =>
    have hrestEx := fun g hg => hf g (List.mem_cons_of_mem f hg)
    have ihrest := fun g hg => ih g (List.mem_cons_of_mem f hg)
    cases f with
    | keyed key node =>
      rw [visitFields] at h
      obtain ⟨r, hv, h⟩ := Run.exists_of_bind_ok h
      obtain ⟨⟨⟩, -, h⟩ := Run.exists_of_bind_ok h
      obtain ⟨rs', hrest, -⟩ := Run.exists_of_bind_ok h
      obtain ⟨u, hd, hi, hu, tells⟩ := ih _ List.mem_cons_self r hv
      obtain ⟨us, hlen, hus, told⟩ := ihr hrestEx ihrest hrest
      obtain ⟨hleaf, hkey⟩ := (hf _ List.mem_cons_self).2 key node rfl
      have hp : (Value.property key u).IsItem ∧
          (Value.property key u).listed = .property key u :=
        ⟨Value.isItem_property.2 ⟨isPropertyKey_of_isKey hleaf hkey, hd⟩,
          by rw [Value.listed_property, hu]⟩
      refine ⟨.property key u :: us, congrArg (· + 1) hlen, List.forall_mem_cons.2 ⟨hp, hus⟩,
        fun b hb => ?_⟩
      have htell : (visitValue b table limit reach level node).filterSteps Step.event? = _ :=
        tells b hb
      rw [visitFields, Run.filterSteps_bind, htell, Run.bind_ok, Run.filterSteps_bind,
        filterSteps_emit, Run.step_bind, Run.filterSteps_bind, told b hb]
      simp only [Run.pure_eq, Run.filterSteps_mk, List.filterMap_nil, Run.bind_ok,
        List.append_nil, List.map_cons, Value.eventsAll, Value.events, Value.fold_property,
        List.append_assoc, List.singleton_append]
    | positional node =>
      rw [visitFields] at h
      obtain ⟨r, hv, h⟩ := Run.exists_of_bind_ok h
      obtain ⟨rs', hrest, -⟩ := Run.exists_of_bind_ok h
      obtain ⟨u, hd, hi, hu, tells⟩ := ih _ List.mem_cons_self r hv
      obtain ⟨us, hlen, hus, told⟩ := ihr hrestEx ihrest hrest
      refine ⟨u :: us, congrArg (· + 1) hlen, List.forall_mem_cons.2 ⟨⟨hi, hu⟩, hus⟩,
        fun b hb => ?_⟩
      have htell : (visitValue b table limit reach level node).filterSteps Step.event? = _ :=
        tells b hb
      rw [visitFields, Run.filterSteps_bind, htell, Run.bind_ok, Run.filterSteps_bind, told b hb]
      simp only [Run.pure_eq, Run.filterSteps_mk, List.filterMap_nil, Run.bind_ok,
        List.append_nil, List.map_cons, Value.eventsAll]

/-- The keys of a table whose fields are all named are keys of a mapping. -/
theorem isMapKey_of_all_isNamed {fs : List Field} (hf : ∀ f ∈ fs, f.Exact table)
    (hall : fs.all Field.isNamed) {key : Value}
    (hkey : key ∈ (fs.filterMap Field.entry?).map Prod.fst) : isMapKey key := by
  obtain ⟨⟨key, node⟩, he, rfl⟩ := List.mem_map.1 hkey
  obtain ⟨f, hfm, hfe⟩ := List.mem_filterMap.1 he
  have hnamed := List.all_eq_true.1 hall f hfm
  cases f with
  | positional node => cases hfe
  | keyed key' node' =>
    cases hfe
    exact isMapKey_of_isNamed ((hf _ hfm).2 key node rfl).1 hnamed

theorem visitMapping_tells {reach level : Nat} {entries : List (Value × Value)}
    (named : ∀ key ∈ entries.map Prod.fst, isMapKey key)
    (ih : ∀ e ∈ entries, ∀ r, (visitValue b table limit reach level e.2).outcome = .ok r →
      ∃ u, u.IsData ∧ Tells (fun _ _ b => visitValue b table limit reach level e.2) u)
    (hb : b.limit = none)
    {r : α} (h : (visitTable b table limit reach level (.mapping entries)).outcome = .ok r) :
    ∃ u, u.IsData ∧
      Tells (fun _ _ b => visitTable b table limit reach level (.mapping entries)) u := by
  rw [visitTable, Walk.drawn_eq hb] at h
  obtain ⟨⟨⟩, -, h⟩ := Run.exists_of_bind_ok h
  obtain ⟨rs, hrs, -⟩ := Run.exists_of_bind_ok h
  obtain ⟨us, hkeys, hus, told⟩ := visitEntries_tells ih hrs
  have hitem : (Value.map us).IsItem := Value.isItem_map.2 fun e he =>
    ⟨named e.1 (hkeys ▸ List.mem_map_of_mem he), (hus e he).1⟩
  have hlen : us.length = entries.length := by simpa using congrArg List.length hkeys
  refine ⟨.map us, ⟨hitem, rfl⟩, hitem, listed_map_eq_self fun e he => (hus e he).2,
    fun b hb => ?_⟩
  beta_reduce
  rw [visitTable, Walk.drawn_eq hb]
  exact filterSteps_mapping hlen (told b hb)

theorem visitSequence_tells {reach level : Nat} {fields : List Field}
    (hf : ∀ f ∈ fields, f.Exact table)
    (ih : ∀ f ∈ fields, ∀ r, (visitValue b table limit reach level f.node).outcome = .ok r →
      ∃ u, u.IsData ∧ Tells (fun _ _ b => visitValue b table limit reach level f.node) u)
    (hb : b.limit = none)
    {r : α} (h : (visitTable b table limit reach level (.sequence fields)).outcome = .ok r) :
    ∃ u, u.IsData ∧
      Tells (fun _ _ b => visitTable b table limit reach level (.sequence fields)) u := by
  rw [visitTable, Walk.drawn_eq hb] at h
  obtain ⟨⟨⟩, -, h⟩ := Run.exists_of_bind_ok h
  obtain ⟨rs, hrs, -⟩ := Run.exists_of_bind_ok h
  obtain ⟨us, hlen, hus, told⟩ := visitFields_tells hf ih hrs
  have hitem : (Value.list us).IsItem := .list fun u hu => (hus u hu).1
  refine ⟨.list us, ⟨hitem, rfl⟩, hitem, listed_list_eq_self fun u hu => (hus u hu).2,
    fun b hb => ?_⟩
  beta_reduce
  rw [visitTable, Walk.drawn_eq hb]
  exact filterSteps_sequence hlen (told b hb)

theorem visitTable_tells {reach level : Nat} {fs : List Field}
    (hf : ∀ f ∈ fs, f.Exact table)
    (ih : ∀ w ∈ (Table.ofFields table fs).nodes, ∀ r,
      (visitValue b table limit reach level w).outcome = .ok r →
      ∃ u, u.IsData ∧ Tells (fun _ _ b => visitValue b table limit reach level w) u)
    (hb : b.limit = none)
    {r : α} (h : (visitTable b table limit reach level (Table.ofFields table fs)).outcome = .ok r) :
    ∃ u, u.IsData ∧
      Tells (fun _ _ b => visitTable b table limit reach level (Table.ofFields table fs)) u := by
  unfold Table.ofFields at ih h ⊢
  split at h
  · rename_i hm
    simp only [if_pos hm, Table.nodes] at ih ⊢
    exact visitMapping_tells
      (fun key hkey => isMapKey_of_all_isNamed hf (Bool.and_eq_true_iff.1 hm).2 hkey)
      (fun e he => ih e.2 (List.mem_map_of_mem he)) hb h
  · rename_i hm
    simp only [if_neg hm, Table.nodes] at ih ⊢
    exact visitSequence_tells (fun f hfm => hf f (List.mem_filter.1 hfm).1)
      (fun f hfm => ih f.node (List.mem_map_of_mem hfm)) hb h

theorem weight_lt_of_form {reach : Nat} {v u w : Value} (hu : follow table reach v = .ok u)
    (hw : form table u = .table w ∨ form table u = .statement w ∨ form table u = .chunk (some w))
    (h0 : reach = 0) : w.weight < v.weight := by
  obtain rfl := eq_of_follow hu h0
  exact weight_part_lt hw

section Lighter

variable {reach level : Nat} {v u w fields exprs body : Value}

theorem field_lighter (hu : follow table reach v = .ok u) (hform : form table u = .table fields)
    {fs : List Field} (hfs : tableFields table limit reach level fields = .ok fs) {f : Field}
    (hf : f ∈ fs) : reach = 0 → f.node.weight < v.weight :=
  fun h0 => Nat.lt_trans (node_lt_of_tableFields hfs h0 f hf)
    (weight_lt_of_form hu (Or.inl hform) h0)

theorem one_lighter (hu : follow table reach v = .ok u) (hform : form table u = .statement exprs)
    (hes : expressions table reach exprs = .ok (.one w)) : reach = 0 → w.weight < v.weight :=
  fun h0 => Nat.lt_of_le_of_lt (weight_one_le hes h0)
    (weight_lt_of_form hu (Or.inr (Or.inl hform)) h0)

theorem several_lighter (hu : follow table reach v = .ok u)
    (hform : form table u = .statement exprs) {nodes : List Value}
    (hes : expressions table reach exprs = .ok (.several nodes)) (hw : w ∈ nodes) :
    reach = 0 → w.weight < v.weight :=
  fun h0 => Nat.lt_of_le_of_lt (Nat.le_trans (weight_le_heaviest hw) (heaviest_several_le hes h0))
    (weight_lt_of_form hu (Or.inr (Or.inl hform)) h0)

theorem first_lighter (hu : follow table reach v = .ok u)
    (hform : form table u = .chunk (some body))
    (hfirst : firstStatement? table reach body = .ok (some w)) : reach = 0 → w.weight < v.weight :=
  fun h0 => Nat.lt_trans (weight_firstStatement?_lt hfirst h0)
    (weight_lt_of_form hu (Or.inr (Or.inr hform)) h0)

end Lighter

/-- What a visit that succeeds has come to, told to every builder that draws all items. -/
theorem visit_tells (hb : b.limit = none) : ∀ reach v, Exact table v → ∀ level r,
    (visit b table limit reach level v).outcome = .ok r →
    ∃ u, u.IsData ∧ Tells (fun _ _ b => visit b table limit reach level v) u := by
  refine reach_induction fun reach v ih hv level r h => ?_
  simp only [visit_eq _ _ _ reach level v] at h ⊢
  obtain ⟨u, hu, h⟩ := Run.exists_of_bind_ok h
  rw [Run.outcome_ofExcept] at hu
  simp only [hu, Run.ofExcept_ok_bind]
  cases hform : form table u with
  | scalar =>
    rw [hform] at h
    obtain ⟨c, hc, -⟩ := Run.exists_of_bind_ok h
    rw [Run.outcome_ofExcept] at hc
    have hl := isLeaf_of_scalar hv hc
    simp only [hc, Run.ofExcept_ok_bind]
    exact ⟨c, Value.isData_of_isLeaf hl, tells_constant hl⟩
  | table fields =>
    rw [hform] at h
    have hparts : form table u = .table fields ∨ form table u = .statement fields ∨
        form table u = .chunk (some fields) := Or.inl hform
    obtain ⟨fs, hfs, h⟩ := Run.exists_of_bind_ok h
    obtain ⟨⟨⟩, -, h⟩ := Run.exists_of_bind_ok h
    rw [Run.outcome_ofExcept] at hfs
    have hexact := exact_tableFields (hv.form hu hparts) hfs
    have key := visitTable_tells hexact (fun w hw r hr => by
      obtain ⟨f, hf, rfl⟩ := exists_of_mem_nodes hw
      refine visitValue_tells (hexact f hf).1 (ih tableCost f.node (by decide) (fun h0 => ?_)
        (hexact f hf).1 (level + 1)) hr
      exact Nat.lt_trans (node_lt_of_tableFields hfs h0 f hf) (weight_lt_of_form hu hparts h0))
      hb h
    obtain ⟨w, hd, hi, hw, tells⟩ := key
    refine ⟨w, hd, hi, hw, fun b hb => ?_⟩
    simp only [hfs, Run.ofExcept_ok_bind, Run.filterSteps_bind, filterSteps_notes, tells b hb]
    rfl
  | statement exprs =>
    rw [hform] at h
    have hparts : form table u = .table exprs ∨ form table u = .statement exprs ∨
        form table u = .chunk (some exprs) := Or.inr (Or.inl hform)
    obtain ⟨es, hes, h⟩ := Run.exists_of_bind_ok h
    rw [Run.outcome_ofExcept] at hes
    have hexact := (hv.form hu hparts).expressions hes
    simp only [hes, Run.ofExcept_ok_bind]
    cases es with
    | one node =>
      refine ih singleCost node (by decide) (fun h0 => ?_) (hexact node List.mem_cons_self)
        level r h
      exact Nat.lt_of_le_of_lt (weight_one_le hes h0) (weight_lt_of_form hu hparts h0)
    | several nodes =>
      simp only [Walk.drawn_eq hb] at h
      obtain ⟨⟨⟩, -, h⟩ := Run.exists_of_bind_ok h
      obtain ⟨rs, hrs, -⟩ := Run.exists_of_bind_ok h
      obtain ⟨us, hlen, hus, told⟩ := visitAll_tells (fun w hw => by
        refine ih severalCost w (by decide) (fun h0 => ?_) (hexact w hw) level
        exact Nat.lt_of_le_of_lt (Nat.le_trans (weight_le_heaviest hw)
          (heaviest_several_le hes h0)) (weight_lt_of_form hu hparts h0)) hrs
      have hitem : (Value.list us).IsItem := .list fun w hw => (hus w hw).1
      refine ⟨.list us, ⟨hitem, rfl⟩, hitem, listed_list_eq_self fun w hw => (hus w hw).2,
        fun b hb => ?_⟩
      simp only [Walk.drawn_eq hb]
      exact filterSteps_sequence hlen (told b hb)
  | chunk body =>
    rw [hform] at h
    cases body with
    | none => cases h
    | some body =>
      have hparts : form table u = .table body ∨ form table u = .statement body ∨
          form table u = .chunk (some body) := Or.inr (Or.inr hform)
      obtain ⟨first, hfirst, h⟩ := Run.exists_of_bind_ok h
      rw [Run.outcome_ofExcept] at hfirst
      simp only [hfirst, Run.ofExcept_ok_bind]
      cases first with
      | none => cases h
      | some node =>
        refine ih chunkCost node (by decide) (fun h0 => ?_)
          ((hv.form hu hparts).firstStatement hfirst) level r h
        exact Nat.lt_trans (weight_firstStatement?_lt hfirst h0)
          (weight_lt_of_form hu hparts h0)
  | _ => rw [hform] at h; cases h

/-! ## Whole trees -/

/-- The data that a tree stands for, which every builder that draws all items is told. -/
theorem walk_tells (hb : b.limit = none) {tree : Document} (ht : Exact tree.table tree.root)
    {r : β} (h : (walk b limit tree).outcome = .ok r) :
    ∃ u : Value, u.IsData ∧ u.listed = u ∧ ∀ {α β : Type} (b : Builder α β), b.limit = none →
      (walk b limit tree).filterSteps Step.event? =
        ⟨u.events b ++ [.root (u.fold b)], b.finish (u.fold b)⟩ := by
  obtain ⟨r', hr, -⟩ := Run.exists_of_bind_ok h
  obtain ⟨u, hd, -, hu, tells⟩ := visit_tells hb fullReach tree.root ht 0 r' hr
  refine ⟨u, hd, hu, fun b hb => ?_⟩
  have htell : (visit b tree.table limit fullReach 0 tree.root).filterSteps Step.event? = _ :=
    tells b hb
  rw [walk, Run.filterSteps_bind, htell]
  rfl

/-- A walk over a tree makes the calls, and ends with the answer, of the walk over the value that
the tree is read as, where no mapping holds a key twice. -/
theorem walk_eq_walk_read {tree : Document} {v : Value} {m : WithTop Int}
    (exact : Exact tree.table tree.root) (hread : (read limit tree).outcome = .ok v)
    (once : (walk .keysOnce limit tree).outcome = .ok true)
    (deep : (v.nesting : WithTop Int) ≤ m) :
    (∀ {α β : Type} (b : Builder α β), b.limit = none →
      (walk b limit tree).filterSteps Step.event? =
        (Document.ofValue v).walk b (Document.limitOf m)) ∧
    ∀ source f, (Format.ofSource source).outcome = .ok f →
      (walk f.printer limit tree).outcome =
        ((Document.ofValue v).write source [] (Document.limitOf m)).outcome := by
  obtain ⟨u, hd, hu, told⟩ := walk_tells rfl exact hread
  have outcome : ∀ {α β : Type} (b : Builder α β), b.limit = none →
      (walk b limit tree).outcome = b.finish (u.fold b) := fun b hb => by
    rw [← Run.outcome_filterSteps Step.event?, told b hb]
  have hkeys : u.keysOnce := by
    have := outcome Builder.keysOnce rfl
    rw [once] at this
    exact (Except.ok.inj this).symm
  have huv : v = u := by
    have := outcome Builder.values rfl
    rw [Value.fold_values hd.1 hkeys, hu] at this
    have hr : (walk Builder.values limit tree).outcome = .ok v := hread
    rw [hr] at this
    exact Except.ok.inj this
  subst huv
  have same : ∀ {α β : Type} (b : Builder α β), b.limit = none →
      (walk b limit tree).filterSteps Step.event? =
        (Document.ofValue v).walk b (Document.limitOf m) := fun b hb => by
    rw [told b hb, Document.walk_ofValue hb hd
      (Document.fits_limitOf.2 (le_trans deep (le_max_left m 0)))]
  refine ⟨same, fun source f hf => ?_⟩
  have hlim : f.printer.limit = none := by
    unfold Format.printer
    split <;> rfl
  rw [Document.write, Run.outcome_bind, hf, ok_bind, Format.override]
  simp only [List.isEmpty_nil, if_true, Run.outcome_bind, Run.pure_eq, ok_bind,
    Run.outcome_ofExcept]
  rw [← same f.printer hlim, Run.outcome_filterSteps]

/-- A table with one named field, which is a mapping. -/
theorem walk_eq_walk_read_named :
    let tree := Document.ofValue (chunk [returnStatement
      [tableConstructor [namedField (.text "a") (numeral (.int 1))]]])
    (walk (Printer.compact .single) (.int 5) tree).filterSteps Step.event? =
      (Document.ofValue (.map [(.text "a", .int 1)])).walk (Printer.compact .single)
        (Document.limitOf (1 : Int)) := by
  intro tree
  have exact : Exact tree.table tree.root := by
    have hnumeral : Exact [] (numeral (.int 1)) := by
      have hone : Exact [] (.int 1) :=
        exact_of_parts (fun c hc => by cases hc) fun w hw => by cases hw
      refine exact_node (fun c hc => ?_) (List.forall_mem_cons.2 ⟨hone,
        List.forall_mem_singleton.2 (exact_text _ _)⟩)
      rw [← numeral, scalarForm_numeral] at hc
      cases hc; rfl
    have hname : Exact [] (identifier (.text "a")) := by
      refine exact_node (fun c hc => ?_) (List.forall_mem_singleton.2 (exact_text _ _))
      rw [← identifier, scalarForm_identifier] at hc
      cases hc; rfl
    have hfield : Exact [] (namedField (.text "a") (numeral (.int 1))) :=
      exact_node_of_not_isScalar rfl
        (List.forall_mem_cons.2 ⟨hname, List.forall_mem_singleton.2 hnumeral⟩)
    have htable : Exact [] (tableConstructor [namedField (.text "a") (numeral (.int 1))]) :=
      exact_node_of_not_isScalar rfl
        (List.forall_mem_singleton.2 (exact_list (List.forall_mem_singleton.2 hfield)))
    have hreturn : Exact []
        (returnStatement [tableConstructor [namedField (.text "a") (numeral (.int 1))]]) :=
      exact_node_of_not_isScalar rfl
        (List.forall_mem_singleton.2 (exact_list (List.forall_mem_singleton.2 htable)))
    exact exact_node_of_not_isScalar rfl (List.forall_mem_cons.2
      ⟨exact_list (List.forall_mem_singleton.2 hreturn),
        List.forall_mem_singleton.2 (exact_list fun w hw => by cases hw)⟩)
  have outcome : ∀ {α β : Type} (b : Builder α β), b.limit = none →
      (walk b (.int 5) tree).outcome = b.finish (b.mapping [(.text "a", b.constant (.int 1))]) := by
    intro α β b hb
    have hfields : tableFields [] (.int 5) (fullReach - chunkCost - singleCost) 1
        (.list [namedField (.text "a") (numeral (.int 1))]) =
        .ok [.keyed (.text "a") (numeral (.int 1))] := by
      have hkey : isKey (.text "a") = true := rfl
      have hc : (Value.int 5).checkLevel 1 = .ok () := rfl
      rw [tableFields, hc, ok_bind, elements, follow_nil, ok_bind]
      simp only [Value.elements?, Value.base, ok_bind, readFields, readField, follow_nil,
        fieldForm_namedField, scalar_of_form (scalarForm_identifier "a"), if_pos hkey]
      rfl
    have htable : Table.ofFields [] [.keyed (.text "a") (numeral (.int 1))] =
      .mapping [(.text "a", numeral (.int 1))] := rfl
    have hscalar : (numeral (.int 1)).tag?.any Tag.isScalar = true := by
      rw [numeral, tag?_node]; rfl
    simp only [walk, tree, Document.ofValue, visit_returned]
    rw [visit_eq, follow_nil, Run.ofExcept_ok_bind, form_tableConstructor]
    simp only [hfields, Run.ofExcept_ok_bind, htable, visitTable, Walk.drawn_eq hb, visitEntries,
      visitValue, Document.deref_nil, if_pos hscalar, scalar_of_form (scalarForm_numeral _)]
    rfl
  exact (walk_eq_walk_read exact (outcome _ rfl) (outcome _ rfl) (le_refl _)).1 _ rfl

end Node

end LuaData
