import LuaData.Proofs.Document.Graph

/-
  The walk over a document and the value that the document is when it is written out. A walk
  that draws all items succeeds exactly if that value is data which the limit allows, and then
  it makes the calls for it, in their order, and ends with the result for it
  (`visit_told`, `visit_ok`).
-/

namespace LuaData

open Document (unfold Stuck Linked)
open Value (IsSequence)

namespace Walk

variable {α β : Type} {b : Builder α β} {table : List Value} {limit : Value}

/-- A limit allows `n` more containers to nest inside of `depth` ones. -/
def Fits (limit : Value) (depth n : Nat) : Prop :=
  ∀ j < n, limit.checkDepth (depth + j) = .ok ()

theorem fits_zero (limit : Value) (depth : Nat) : Fits limit depth 0 :=
  fun _ h => absurd h (Nat.not_lt_zero _)

theorem fits_succ {depth n : Nat} :
    Fits limit depth (1 + n) ↔ limit.checkDepth depth = .ok () ∧ Fits limit (depth + 1) n := by
  constructor
  · intro h
    refine ⟨h 0 (by omega), fun j hj => ?_⟩
    have := h (1 + j) (by omega)
    rwa [← Nat.add_assoc] at this
  · rintro ⟨h0, h⟩ j hj
    cases j with
    | zero => exact h0
    | succ j =>
      have := h j (by omega)
      rwa [Nat.add_assoc, Nat.add_comm 1 j] at this

theorem fits_largest {depth : Nat} {ns : List Nat} :
    Fits limit depth (Value.largest ns) ↔ ∀ n ∈ ns, Fits limit depth n := by
  constructor
  · intro h n hn j hj
    exact h j (Nat.lt_of_lt_of_le hj (Value.le_largest hn))
  · intro h j hj
    by_cases hc : ∃ n ∈ ns, j < n
    · obtain ⟨n, hn, hlt⟩ := hc
      exact h n hn j hlt
    · have hle : Value.largest ns ≤ j := Value.largest_le.2 fun n hn =>
        Nat.le_of_not_lt fun hlt => hc ⟨n, hn, hlt⟩
      omega

theorem drawn_eq {γ : Type} (hb : b.limit = none) (items : List γ) : b.drawn items = items := by
  rw [Builder.drawn, hb]

theorem visitEntries_cons (path : List Nat) (depth : Nat) (k v : Value)
    (rest : List (Value × Value)) :
    visitEntries b table limit path depth ((k, v) :: rest) =
      if isMapKey k then do
        let result ← visit b table limit path depth v
        .step (.item k result)
        let results ← visitEntries b table limit path depth rest
        return (k, result) :: results
      else refuse .tableKey (Document.deref table k) := by
  rw [visitEntries]
  cases isMapKey k <;> rfl

theorem visitItem_property (path : List Nat) (depth : Nat) (k v : Value) :
    visitItem b table limit path depth (.property k v) =
      if isPropertyKey k then do
        let result ← visit b table limit path depth v
        .step (.property k result)
        return b.property k result
      else refuse .propertyKey (Document.deref table k) := by
  rw [visitItem]
  cases isPropertyKey k <;> rfl

theorem refuse_ne_ok {ρ : Type} {problem : ValueProblem} {v : Value} {r : ρ} :
    (refuse problem v : Run (Event α) ρ).outcome ≠ .ok r := nofun

/-- What is no data is refused. -/
theorem visit_stuck {path : List Nat} {v : Value} (h : Stuck table path v) (depth : Nat) :
    (∀ r, (visit b table limit path depth v).outcome ≠ .ok r) ∧
      ∀ r, (visitItem b table limit path depth v).outcome ≠ .ok r := by
  cases h with
  | foreign name form =>
    simp only [visitItem, visit]
    exact ⟨fun _ => refuse_ne_ok, fun _ => refuse_ne_ok⟩
  | derived name v =>
    simp only [visitItem, visit]
    exact ⟨fun _ => refuse_ne_ok, fun _ => refuse_ne_ok⟩
  | onPath kind hi =>
    cases kind <;> simp only [visitItem, visit, dif_pos hi] <;>
      exact ⟨fun _ => refuse_ne_ok, fun _ => refuse_ne_ok⟩
  | dangling kind hi hlt =>
    cases kind <;> simp only [visitItem, visit, dif_neg hi, dif_neg hlt] <;>
      exact ⟨fun _ => refuse_ne_ok, fun _ => refuse_ne_ok⟩

/-! ## What a walk that succeeds has done -/

/-- A visit made the calls for `u` and ended with the result for it, and the limit allows it. -/
def Told (b : Builder α β) (limit : Value) (depth : Nat) (x : Run (Event α) α) (u : Value) :
    Prop :=
  u.IsItem ∧ Fits limit depth u.nesting ∧ x = ⟨u.events b, .ok (u.fold b)⟩

theorem visitItems_told {path : List Nat} {depth : Nat} {items : List Value}
    (ih : ∀ v ∈ items, ∀ r, (visitItem b table limit path depth v).outcome = .ok r →
      Told b limit depth (visitItem b table limit path depth v) (unfold table path v))
    {rs : List α} (h : (visitItems b table limit path depth items).outcome = .ok rs) :
    (∀ u ∈ items.map (unfold table path), u.IsItem ∧ Fits limit depth u.nesting) ∧
      visitItems b table limit path depth items =
        ⟨Value.eventsAll b (items.map (unfold table path)),
          .ok ((items.map (unfold table path)).map (Value.fold b))⟩ := by
  induction items generalizing rs with
  | nil => exact ⟨by simp, by rw [visitItems]; rfl⟩
  | cons v rest ihr =>
    rw [visitItems] at h
    obtain ⟨r, hv, h⟩ := Run.exists_of_bind_ok h
    obtain ⟨rs', hrest, -⟩ := Run.exists_of_bind_ok h
    obtain ⟨hi, hf, he⟩ := ih v List.mem_cons_self r hv
    obtain ⟨hall, hes⟩ := ihr (fun w hw => ih w (List.mem_cons_of_mem _ hw)) hrest
    refine ⟨List.forall_mem_cons.2 ⟨⟨hi, hf⟩, hall⟩, ?_⟩
    rw [visitItems, he, hes]
    simp only [Run.bind_ok, Run.pure_eq, List.append_nil]
    rfl

theorem visitEntries_told {path : List Nat} {depth : Nat} {entries : List (Value × Value)}
    (ih : ∀ e ∈ entries, ∀ r, (visit b table limit path depth e.2).outcome = .ok r →
      Told b limit depth (visit b table limit path depth e.2) (unfold table path e.2) ∧
        (unfold table path e.2).isProperty = false)
    {rs : List (Value × α)} (h : (visitEntries b table limit path depth entries).outcome = .ok rs) :
    let us := entries.map fun e => (unfold table path e.1, unfold table path e.2)
    (∀ e ∈ us, isMapKey e.1 ∧ e.2.IsData ∧ Fits limit depth e.2.nesting) ∧
      visitEntries b table limit path depth entries =
        ⟨Value.eventsEntries b us, .ok (us.map fun e => (e.1, e.2.fold b))⟩ := by
  induction entries generalizing rs with
  | nil => exact ⟨by simp, by rw [visitEntries]; rfl⟩
  | cons e rest ihr =>
    obtain ⟨k, v⟩ := e
    rw [visitEntries_cons] at h
    have hkey : isMapKey k = true := by
      cases hc : isMapKey k with
      | true => rfl
      | false => rw [hc] at h; cases h
    rw [if_pos hkey] at h
    obtain ⟨r, hv, h⟩ := Run.exists_of_bind_ok h
    obtain ⟨⟨⟩, -, h⟩ := Run.exists_of_bind_ok h
    obtain ⟨rs', hrest, -⟩ := Run.exists_of_bind_ok h
    have hleaf : unfold table path k = k := by
      obtain ⟨s, rfl⟩ := Value.eq_text_of_isMapKey hkey
      exact Document.unfold_leaf rfl
    obtain ⟨⟨hi, hf, he⟩, hp⟩ := ih (k, v) List.mem_cons_self r hv
    obtain ⟨hall, hes⟩ := ihr (fun w hw => ih w (List.mem_cons_of_mem _ hw)) hrest
    refine ⟨List.forall_mem_cons.2 ⟨⟨?_, ⟨hi, hp⟩, hf⟩, hall⟩, ?_⟩
    · show isMapKey (unfold table path k) = true
      rw [hleaf]; exact hkey
    · rw [visitEntries_cons, if_pos hkey, he, hes]
      simp only [Run.pure_eq, Run.bind_ok, Run.step_bind, List.map_cons, hleaf,
        Value.eventsEntries, List.append_nil]

theorem visitItem_eq_visit {path : List Nat} {depth : Nat} {v : Value}
    (hp : v.isProperty = false) (hs : ∀ i, v ≠ .shared .property i) :
    visitItem b table limit path depth v = visit b table limit path depth v := by
  cases v with
  | property k v => cases hp
  | shared kind i =>
    cases kind with
    | property => exact absurd rfl (hs i)
    | _ => simp only [visitItem]
  | _ => simp only [visitItem]

theorem visit_sequence (hb : b.limit = none) {mk : List Value → Value} (hm : IsSequence mk)
    (path : List Nat) (depth : Nat) (items : List Value) :
    visit b table limit path depth (mk items) = (do
      .ofExcept (limit.checkDepth depth)
      .step (.startSequence items.length)
      let results ← visitItems b table limit path (depth + 1) items
      .step (.endSequence (b.sequence results))
      return b.sequence results) := by
  cases hm <;> simp only [visit, drawn_eq hb]

theorem isProperty_sequence {mk : List Value → Value} (hm : IsSequence mk) (items : List Value) :
    (mk items).isProperty = false := by
  cases hm <;> rfl

theorem ne_shared_sequence {mk : List Value → Value} (hm : IsSequence mk) (items : List Value)
    (i : Nat) : mk items ≠ .shared .property i := by
  cases hm <;> nofun

theorem visit_map (hb : b.limit = none) (path : List Nat) (depth : Nat)
    (entries : List (Value × Value)) :
    visit b table limit path depth (.map entries) = (do
      .ofExcept (limit.checkDepth depth)
      .step (.startMapping entries.length)
      let results ← visitEntries b table limit path (depth + 1) entries
      .step .endMapping
      return b.mapping results) := by
  simp only [visit, drawn_eq hb]

theorem visit_leaf {v : Value} (hl : v.isLeaf) (path : List Nat) (depth : Nat) :
    visit b table limit path depth v = ⟨[.constant v], .ok (b.constant v)⟩ := by
  cases v <;> first | (simp only [visit]; rfl) | cases hl

theorem visitItem_leaf {v : Value} (hl : v.isLeaf) (path : List Nat) (depth : Nat) :
    visitItem b table limit path depth v = visit b table limit path depth v :=
  visitItem_eq_visit (Value.isData_of_isLeaf hl).2 fun i h => by rw [h] at hl; cases hl

theorem visitItem_sequence {mk : List Value → Value} (hm : IsSequence mk) (path : List Nat)
    (depth : Nat) (items : List Value) :
    visitItem b table limit path depth (mk items) = visit b table limit path depth (mk items) :=
  visitItem_eq_visit (isProperty_sequence hm items) (ne_shared_sequence hm items)

theorem visitItem_map (path : List Nat) (depth : Nat) (entries : List (Value × Value)) :
    visitItem b table limit path depth (.map entries) =
      visit b table limit path depth (.map entries) :=
  visitItem_eq_visit rfl fun _ h => by cases h

/-- A reference to a property is no value on its own, and as an item it stands for the property;
any other reference stands for what it names. -/
theorem visit_shared {path : List Nat} {i : Nat} (hi : i ∉ path) (hlt : i < table.length)
    (kind : SharedKind) (depth : Nat) :
    (kind = .property ∧
      visit b table limit path depth (.shared kind i) =
        refuse .misplacedProperty (.shared kind i) ∧
      visitItem b table limit path depth (.shared kind i) =
        visitItem b table limit (i :: path) depth table[i]) ∨
    (kind ≠ .property ∧
      visit b table limit path depth (.shared kind i) =
        visit b table limit (i :: path) depth table[i] ∧
      visitItem b table limit path depth (.shared kind i) =
        visit b table limit (i :: path) depth table[i]) := by
  cases kind with
  | property => exact Or.inl ⟨rfl, by rw [visit], by rw [visitItem, dif_neg hi, dif_pos hlt]⟩
  | _ =>
    rw [visitItem_eq_visit rfl fun _ h => by cases h]
    simp only [visit, dif_neg hi, dif_pos hlt]
    exact Or.inr ⟨(fun h => by cases h), trivial, trivial⟩

theorem sequence_told (hb : b.limit = none) {mk : List Value → Value} (hm : IsSequence mk)
    {path : List Nat} {depth : Nat} {items : List Value}
    (ih : ∀ v ∈ items, ∀ r, (visitItem b table limit path (depth + 1) v).outcome = .ok r →
      Told b limit (depth + 1) (visitItem b table limit path (depth + 1) v)
        (unfold table path v))
    {r : α} (h : (visit b table limit path depth (mk items)).outcome = .ok r) :
    Told b limit depth (visit b table limit path depth (mk items))
      (unfold table path (mk items)) := by
  rw [visit_sequence hb hm] at h ⊢
  obtain ⟨⟨⟩, hc, h⟩ := Run.exists_of_bind_ok h
  obtain ⟨⟨⟩, -, h⟩ := Run.exists_of_bind_ok h
  obtain ⟨rs, hrs, -⟩ := Run.exists_of_bind_ok h
  obtain ⟨hall, hes⟩ := visitItems_told ih hrs
  rw [Run.outcome_ofExcept] at hc
  rw [Document.unfold_sequence hm]
  refine ⟨(Value.isItem_sequence hm).2 fun u hu => (hall u hu).1, ?_, ?_⟩
  · rw [Value.nesting_sequence hm]
    refine fits_succ.2 ⟨hc, fits_largest.2 fun n hn => ?_⟩
    obtain ⟨u, hu, rfl⟩ := List.mem_map.1 hn
    exact (hall u hu).2
  · rw [hes, hc, Run.ofExcept_ok_bind, Value.fold_sequence b hm, Value.events_sequence b hm]
    simp only [Run.step_bind, Run.bind_ok, Run.pure_eq, List.length_map]

theorem map_told (hb : b.limit = none) {path : List Nat} {depth : Nat}
    {entries : List (Value × Value)}
    (ih : ∀ e ∈ entries, ∀ r, (visit b table limit path (depth + 1) e.2).outcome = .ok r →
      Told b limit (depth + 1) (visit b table limit path (depth + 1) e.2)
        (unfold table path e.2) ∧ (unfold table path e.2).isProperty = false)
    {r : α} (h : (visit b table limit path depth (.map entries)).outcome = .ok r) :
    Told b limit depth (visit b table limit path depth (.map entries))
      (unfold table path (.map entries)) := by
  rw [visit_map hb] at h ⊢
  obtain ⟨⟨⟩, hc, h⟩ := Run.exists_of_bind_ok h
  obtain ⟨⟨⟩, -, h⟩ := Run.exists_of_bind_ok h
  obtain ⟨rs, hrs, -⟩ := Run.exists_of_bind_ok h
  obtain ⟨hall, hes⟩ := visitEntries_told ih hrs
  rw [Run.outcome_ofExcept] at hc
  rw [Document.unfold_map]
  refine ⟨Value.isItem_map.2 fun e he => ⟨(hall e he).1, (hall e he).2.1⟩, ?_, ?_⟩
  · rw [Value.nesting_map]
    refine fits_succ.2 ⟨hc, fits_largest.2 fun n hn => ?_⟩
    obtain ⟨e, he, rfl⟩ := List.mem_map.1 hn
    exact (hall e he).2.2
  · rw [hes, hc, Run.ofExcept_ok_bind, Value.fold_map, Value.events]
    simp only [Run.step_bind, Run.bind_ok, Run.pure_eq, List.length_map]

theorem property_told {path : List Nat} {depth : Nat} {k v : Value}
    (ih : ∀ r, (visit b table limit path depth v).outcome = .ok r →
      Told b limit depth (visit b table limit path depth v) (unfold table path v) ∧
        (unfold table path v).isProperty = false)
    {r : α} (h : (visitItem b table limit path depth (.property k v)).outcome = .ok r) :
    Told b limit depth (visitItem b table limit path depth (.property k v))
      (unfold table path (.property k v)) := by
  rw [visitItem_property] at h ⊢
  have hkey : isPropertyKey k = true := by
    by_contra hc
    rw [if_neg hc] at h
    exact refuse_ne_ok h
  rw [if_pos hkey] at h ⊢
  obtain ⟨s, hv, -⟩ := Run.exists_of_bind_ok h
  obtain ⟨⟨hi, hf, he⟩, hp⟩ := ih s hv
  rw [Document.unfold_property, Document.unfold_leaf (Value.isLeaf_of_isPropertyKey hkey)]
  refine ⟨.property hkey hp hi, by rw [Value.nesting_property]; exact hf, ?_⟩
  rw [he, Value.fold_property, Value.events]
  simp only [Run.step_bind, Run.bind_ok, Run.pure_eq]

/-- A walk that draws all items and succeeds has found data, and has told it. -/
theorem visit_told (hb : b.limit = none) : ∀ path v depth,
    (∀ r, (visit b table limit path depth v).outcome = .ok r →
      Told b limit depth (visit b table limit path depth v) (unfold table path v) ∧
        (unfold table path v).isProperty = false) ∧
    ∀ r, (visitItem b table limit path depth v).outcome = .ok r →
      Told b limit depth (visitItem b table limit path depth v) (unfold table path v) := by
  refine Document.unfold_induction table ?leaf ?sequence ?map ?property ?shared ?stuck
  case leaf =>
    intro path v hl depth
    have ht : Told b limit depth ⟨[.constant v], .ok (b.constant v)⟩ v := by
      refine ⟨.leaf hl, by rw [Value.nesting_leaf hl]; exact fits_zero _ _, ?_⟩
      rw [Value.events_leaf b hl, Value.fold_leaf b hl]
    rw [visitItem_leaf hl, visit_leaf hl, Document.unfold_leaf hl]
    exact ⟨fun _ _ => ⟨ht, (Value.isData_of_isLeaf hl).2⟩, fun _ _ => ht⟩
  case sequence =>
    intro path mk items hm ih depth
    have told := fun r => sequence_told (r := r) hb hm fun w hw => (ih w hw (depth + 1)).2
    have hp : (unfold table path (mk items)).isProperty = false := by
      rw [Document.unfold_sequence hm, isProperty_sequence hm]
    rw [visitItem_sequence hm]
    exact ⟨fun r h => ⟨told r h, hp⟩, told⟩
  case map =>
    intro path entries ih depth
    have told := fun r => map_told (r := r) hb fun e he => ((ih e he).2 (depth + 1)).1
    have hp : (unfold table path (.map entries)).isProperty = false := by
      rw [Document.unfold_map]; rfl
    rw [visitItem_map]
    exact ⟨fun r h => ⟨told r h, hp⟩, told⟩
  case property =>
    intro path k v _ ihv depth
    refine ⟨fun r h => ?_, fun r h => property_told (ihv depth).1 h⟩
    rw [visit] at h
    exact absurd h refuse_ne_ok
  case shared =>
    intro path kind i hi hlt ih depth
    rw [Document.unfold_shared kind hi hlt]
    obtain ⟨-, hv, hitem⟩ | ⟨-, hv, hitem⟩ :=
      visit_shared hi hlt kind depth
    · rw [hv, hitem]
      exact ⟨fun r h => absurd h refuse_ne_ok, (ih depth).2⟩
    · rw [hv, hitem]
      exact ⟨(ih depth).1, fun r h => ((ih depth).1 r h).1⟩
  case stuck =>
    intro path v hs depth
    exact ⟨fun r h => absurd h ((visit_stuck hs depth).1 r),
      fun r h => absurd h ((visit_stuck hs depth).2 r)⟩

/-! ## Which walks succeed -/

theorem isLeaf_of_unfold {path : List Nat} {v : Value} (hl : Linked table v)
    (h : (unfold table path v).isLeaf) : v.isLeaf := by
  cases v with
  | list items => rw [Document.unfold_sequence .list] at h; cases h
  | tuple items => rw [Document.unfold_sequence .tuple] at h; cases h
  | map entries => rw [Document.unfold_map] at h; cases h
  | property k v => rw [Document.unfold_property] at h; cases h
  | foreign name form => simp only [unfold] at h; cases h
  | derived name v => simp only [unfold] at h; cases h
  | shared kind i =>
    by_cases hi : i ∈ path
    · rw [unfold, dif_pos hi] at h; cases h
    · by_cases hlt : i < table.length
      · have hk := hl.kind?_eq hlt
        rw [Document.unfold_shared kind hi hlt] at h
        cases hv : table[i] with
        | list items => rw [hv, Document.unfold_sequence .list] at h; cases h
        | tuple items => rw [hv, Document.unfold_sequence .tuple] at h; cases h
        | map entries => rw [hv, Document.unfold_map] at h; cases h
        | property k v => rw [hv, Document.unfold_property] at h; cases h
        | _ => rw [hv] at hk; cases hk
      · rw [unfold, dif_neg hi, dif_neg hlt] at h; cases h
  | _ => rfl

theorem visitItems_ok {path : List Nat} {depth : Nat} {items : List Value}
    (h : ∀ v ∈ items, ∃ r, (visitItem b table limit path depth v).outcome = .ok r) :
    ∃ rs, (visitItems b table limit path depth items).outcome = .ok rs := by
  induction items with
  | nil => exact ⟨[], by rw [visitItems]; rfl⟩
  | cons v rest ih =>
    obtain ⟨r, hr⟩ := h v List.mem_cons_self
    obtain ⟨rs, hrs⟩ := ih fun w hw => h w (List.mem_cons_of_mem _ hw)
    refine ⟨r :: rs, ?_⟩
    rw [visitItems, Run.outcome_bind, hr]
    simp only [ok_bind, Run.outcome_bind, hrs, Run.pure_eq]

theorem visitEntries_ok {path : List Nat} {depth : Nat} {entries : List (Value × Value)}
    (hk : ∀ e ∈ entries, isMapKey e.1)
    (h : ∀ e ∈ entries, ∃ r, (visit b table limit path depth e.2).outcome = .ok r) :
    ∃ rs, (visitEntries b table limit path depth entries).outcome = .ok rs := by
  induction entries with
  | nil => exact ⟨[], by rw [visitEntries]; rfl⟩
  | cons e rest ih =>
    obtain ⟨k, v⟩ := e
    obtain ⟨r, hr⟩ := h (k, v) List.mem_cons_self
    obtain ⟨rs, hrs⟩ := ih (fun e he => hk e (List.mem_cons_of_mem _ he))
      fun w hw => h w (List.mem_cons_of_mem _ hw)
    refine ⟨(k, r) :: rs, ?_⟩
    rw [visitEntries_cons, if_pos (hk (k, v) List.mem_cons_self), Run.outcome_bind, hr]
    simp only [ok_bind, Run.outcome_bind, Run.outcome_step, hrs, Run.pure_eq]

theorem sequence_ok (hb : b.limit = none) {mk : List Value → Value} (hm : IsSequence mk)
    {path : List Nat} {depth : Nat} {items : List Value} (hc : limit.checkDepth depth = .ok ())
    (ih : ∀ v ∈ items, ∃ r, (visitItem b table limit path (depth + 1) v).outcome = .ok r) :
    ∃ r, (visit b table limit path depth (mk items)).outcome = .ok r := by
  obtain ⟨rs, hrs⟩ := visitItems_ok ih
  refine ⟨b.sequence rs, ?_⟩
  rw [visit_sequence hb hm, Run.outcome_bind, Run.outcome_ofExcept, hc]
  simp only [ok_bind, Run.outcome_bind, Run.outcome_step, hrs, Run.pure_eq]

theorem map_ok (hb : b.limit = none) {path : List Nat} {depth : Nat}
    {entries : List (Value × Value)} (hc : limit.checkDepth depth = .ok ())
    (hk : ∀ e ∈ entries, isMapKey e.1)
    (ih : ∀ e ∈ entries, ∃ r, (visit b table limit path (depth + 1) e.2).outcome = .ok r) :
    ∃ r, (visit b table limit path depth (.map entries)).outcome = .ok r := by
  obtain ⟨rs, hrs⟩ := visitEntries_ok hk ih
  refine ⟨b.mapping rs, ?_⟩
  rw [visit_map hb, Run.outcome_bind, Run.outcome_ofExcept, hc]
  simp only [ok_bind, Run.outcome_bind, Run.outcome_step, hrs, Run.pure_eq]

/-- What a reference to no property names is no property. -/
theorem isProperty_of_kind? {path : List Nat} {v : Value} {kind : SharedKind}
    (hk : Document.kind? v = some kind) :
    (unfold table path v).isProperty = false ↔ kind ≠ .property := by
  cases v with
  | list items =>
    cases hk
    rw [Document.unfold_sequence .list]
    exact iff_of_true rfl (by decide)
  | tuple items =>
    cases hk
    rw [Document.unfold_sequence .tuple]
    exact iff_of_true rfl (by decide)
  | map entries =>
    cases hk
    rw [Document.unfold_map]
    exact iff_of_true rfl (by decide)
  | property k v =>
    cases hk
    rw [Document.unfold_property]
    exact iff_of_false (fun h => by cases h) fun h => h rfl
  | _ => cases hk

/-- A walk succeeds on what is data when it is written out, if the limit allows it. -/
theorem visit_ok (hb : b.limit = none) : ∀ path v depth,
    Linked table v → Fits limit depth (unfold table path v).nesting →
    ((unfold table path v).IsData →
      ∃ r, (visit b table limit path depth v).outcome = .ok r) ∧
    ((unfold table path v).IsItem →
      ∃ r, (visitItem b table limit path depth v).outcome = .ok r) := by
  refine Document.unfold_induction table ?leaf ?sequence ?map ?property ?shared ?stuck
  case leaf =>
    intro path v hl depth _ _
    rw [visitItem_leaf hl, visit_leaf hl]
    exact ⟨fun _ => ⟨_, rfl⟩, fun _ => ⟨_, rfl⟩⟩
  case sequence =>
    intro path mk items hm ih depth hl hf
    rw [Document.unfold_sequence hm, Value.nesting_sequence hm] at hf
    obtain ⟨hc, hf⟩ := fits_succ.1 hf
    have ok : (unfold table path (mk items)).IsItem →
        ∃ r, (visit b table limit path depth (mk items)).outcome = .ok r := fun hi => by
      rw [Document.unfold_sequence hm] at hi
      exact sequence_ok hb hm hc fun v hv =>
        (ih v hv (depth + 1) (hl.of_part ((Document.part_sequence hm).2 hv))
          (fits_largest.1 hf _ (List.mem_map_of_mem (List.mem_map_of_mem hv)))).2
          ((Value.isItem_sequence hm).1 hi _ (List.mem_map_of_mem hv))
    rw [visitItem_sequence hm]
    exact ⟨fun h => ok h.1, ok⟩
  case map =>
    intro path entries ih depth hl hf
    rw [Document.unfold_map, Value.nesting_map] at hf
    obtain ⟨hc, hf⟩ := fits_succ.1 hf
    have ok : (unfold table path (.map entries)).IsItem →
        ∃ r, (visit b table limit path depth (.map entries)).outcome = .ok r := fun hi => by
      rw [Document.unfold_map] at hi
      have hall := Value.isItem_map.1 hi
      refine map_ok hb hc (fun e he => ?_) fun e he =>
        ((ih e he).2 (depth + 1) (hl.of_part (Document.part_map_value he))
          (fits_largest.1 hf _ (List.mem_map_of_mem (List.mem_map_of_mem he)))).1
          (hall _ (List.mem_map_of_mem he)).2
      have hk : isMapKey (unfold table path e.1) := (hall _ (List.mem_map_of_mem he)).1
      rwa [Document.unfold_leaf (isLeaf_of_unfold (hl.of_part (Document.part_map_key he))
        (Value.isLeaf_of_isMapKey hk))] at hk
    rw [visitItem_map]
    exact ⟨fun h => ok h.1, ok⟩
  case property =>
    intro path k v _ ihv depth hl hf
    rw [Document.unfold_property] at hf ⊢
    rw [Value.nesting_property] at hf
    refine ⟨(fun h => by cases h.2), fun h => ?_⟩
    obtain ⟨hk, hd⟩ := Value.isItem_property.1 h
    rw [Document.unfold_leaf (isLeaf_of_unfold (hl.of_part (Document.part_property_key k v))
      (Value.isLeaf_of_isPropertyKey hk))] at hk
    obtain ⟨r, hr⟩ := (ihv depth (hl.of_part (Document.part_property_value k v)) hf).1 hd
    refine ⟨b.property k r, ?_⟩
    rw [visitItem_property, if_pos hk, Run.outcome_bind, hr]
    rfl
  case shared =>
    intro path kind i hi hlt ih depth hl hf
    rw [Document.unfold_shared kind hi hlt] at hf ⊢
    have hk : (unfold table (i :: path) table[i]).isProperty = false ↔ kind ≠ .property :=
      isProperty_of_kind? (hl.kind?_eq hlt)
    obtain ⟨ih1, ih2⟩ := ih depth (hl.named hlt) hf
    obtain ⟨hkind, hv, hitem⟩ | ⟨hkind, hv, hitem⟩ := visit_shared hi hlt kind depth
    · rw [hv, hitem]
      exact ⟨fun h => absurd hkind (hk.1 h.2), ih2⟩
    · rw [hv, hitem]
      exact ⟨ih1, fun h => ih1 ⟨h, hk.2 hkind⟩⟩
  case stuck =>
    intro path v hs depth _ _
    exact ⟨fun h => absurd h.1 hs.not_isItem, fun h => absurd h hs.not_isItem⟩

/-! ## How walks fail -/

/-- A failure that says what in the data, or that its depth, is refused. -/
def IsRefusal : Failure → Prop
  | .value .. | .tooDeep _ => True
  | _ => False

/-- Where all parts fail with refusals only, so does the whole. -/
theorem isRefusal_of_bind {σ ρ ρ' : Type} {x : Run σ ρ} {f : ρ → Run σ ρ'} {e : Failure}
    (h : (x >>= f).outcome = .error e) (hx : ∀ e, x.outcome = .error e → IsRefusal e)
    (hf : ∀ r, (f r).outcome = .error e → IsRefusal e) : IsRefusal e := by
  rw [Run.outcome_bind] at h
  cases hr : x.outcome with
  | error e' =>
    rw [hr] at h
    cases h
    exact hx _ hr
  | ok r =>
    rw [hr, ok_bind] at h
    exact hf r h

theorem isRefusal_of_refuse {ρ : Type} {problem : ValueProblem} {v : Value} {e : Failure}
    (h : (refuse problem v : Run (Event α) ρ).outcome = .error e) : IsRefusal e := by
  cases h; trivial

theorem visitItems_error {path : List Nat} {depth : Nat} {items : List Value}
    (h : ∀ v ∈ items, ∀ e, (visitItem b table limit path depth v).outcome = .error e →
      IsRefusal e) {e : Failure}
    (he : (visitItems b table limit path depth items).outcome = .error e) : IsRefusal e := by
  induction items generalizing e with
  | nil => rw [visitItems] at he; cases he
  | cons v rest ih =>
    rw [visitItems] at he
    refine isRefusal_of_bind he (h v List.mem_cons_self) fun r he => ?_
    exact isRefusal_of_bind he (fun e he => ih (fun w hw => h w (List.mem_cons_of_mem _ hw)) he)
      fun rs he => by cases he

theorem visitEntries_error {path : List Nat} {depth : Nat} {entries : List (Value × Value)}
    (h : ∀ e ∈ entries, ∀ f, (visit b table limit path depth e.2).outcome = .error f →
      IsRefusal f) {f : Failure}
    (hf : (visitEntries b table limit path depth entries).outcome = .error f) :
    IsRefusal f := by
  induction entries generalizing f with
  | nil => rw [visitEntries] at hf; cases hf
  | cons e rest ih =>
    obtain ⟨k, v⟩ := e
    rw [visitEntries_cons] at hf
    split at hf
    · refine isRefusal_of_bind hf (h (k, v) List.mem_cons_self) fun r hf => ?_
      refine isRefusal_of_bind hf (fun e he => by cases he) fun _ hf => ?_
      exact isRefusal_of_bind hf (fun e he => ih (fun w hw => h w (List.mem_cons_of_mem _ hw)) he)
        fun rs hf => by cases hf
    · exact isRefusal_of_refuse hf

theorem visit_stuck_error {path : List Nat} {v : Value} (h : Stuck table path v) (depth : Nat) :
    (∀ e, (visit b table limit path depth v).outcome = .error e → IsRefusal e) ∧
      ∀ e, (visitItem b table limit path depth v).outcome = .error e → IsRefusal e := by
  cases h with
  | foreign name form =>
    simp only [visitItem, visit]
    exact ⟨fun _ => isRefusal_of_refuse, fun _ => isRefusal_of_refuse⟩
  | derived name v =>
    simp only [visitItem, visit]
    exact ⟨fun _ => isRefusal_of_refuse, fun _ => isRefusal_of_refuse⟩
  | onPath kind hi =>
    cases kind <;> simp only [visitItem, visit, dif_pos hi] <;>
      exact ⟨fun _ => isRefusal_of_refuse, fun _ => isRefusal_of_refuse⟩
  | dangling kind hi hlt =>
    cases kind <;> simp only [visitItem, visit, dif_neg hi, dif_neg hlt] <;>
      exact ⟨fun _ => isRefusal_of_refuse, fun _ => isRefusal_of_refuse⟩

/-- A walk fails with a refusal only, where the limit is a number. -/
theorem visit_error (hb : b.limit = none)
    (hlim : ∀ depth e, limit.checkDepth depth = .error e → IsRefusal e) : ∀ path v depth,
    (∀ e, (visit b table limit path depth v).outcome = .error e → IsRefusal e) ∧
      ∀ e, (visitItem b table limit path depth v).outcome = .error e → IsRefusal e := by
  refine Document.unfold_induction table ?leaf ?sequence ?map ?property ?shared ?stuck
  case leaf =>
    intro path v hl depth
    rw [visitItem_leaf hl, visit_leaf hl]
    exact ⟨(fun e he => by cases he), fun e he => by cases he⟩
  case sequence =>
    intro path mk items hm ih depth
    have key : ∀ e, (visit b table limit path depth (mk items)).outcome = .error e →
        IsRefusal e := by
      intro e he
      rw [visit_sequence hb hm] at he
      refine isRefusal_of_bind he (hlim depth) fun _ he => ?_
      refine isRefusal_of_bind he (fun e he => by cases he) fun _ he => ?_
      exact isRefusal_of_bind he
        (fun e he => visitItems_error (fun w hw => (ih w hw (depth + 1)).2) he)
        fun rs he => by cases he
    rw [visitItem_sequence hm]
    exact ⟨key, key⟩
  case map =>
    intro path entries ih depth
    have key : ∀ e, (visit b table limit path depth (.map entries)).outcome = .error e →
        IsRefusal e := by
      intro e he
      rw [visit_map hb] at he
      refine isRefusal_of_bind he (hlim depth) fun _ he => ?_
      refine isRefusal_of_bind he (fun e he => by cases he) fun _ he => ?_
      exact isRefusal_of_bind he
        (fun e he => visitEntries_error (fun w hw => ((ih w hw).2 (depth + 1)).1) he)
        fun rs he => by cases he
    rw [visitItem_map]
    exact ⟨key, key⟩
  case property =>
    intro path k v _ ihv depth
    constructor
    · intro e he
      rw [visit] at he
      exact isRefusal_of_refuse he
    · intro e he
      rw [visitItem_property] at he
      split at he
      · exact isRefusal_of_bind he (ihv depth).1 fun r he => by cases he
      · exact isRefusal_of_refuse he
  case shared =>
    intro path kind i hi hlt ih depth
    obtain ⟨-, hv, hitem⟩ | ⟨-, hv, hitem⟩ := visit_shared hi hlt kind depth
    · rw [hv, hitem]
      exact ⟨fun _ => isRefusal_of_refuse, (ih depth).2⟩
    · rw [hv, hitem]
      exact ⟨(ih depth).1, (ih depth).1⟩
  case stuck => exact fun path v hs depth => visit_stuck_error hs depth

end Walk

/-! ## Whole documents -/

namespace Document

variable {α β : Type} {b : Builder α β}

/-- What a walk that succeeds says about a document. -/
theorem walk_told (hb : b.limit = none) {d : Document} {limit : Value} {s : β}
    (h : (d.walk b limit).outcome = .ok s) :
    d.unfolded.IsData ∧ Walk.Fits limit 0 d.unfolded.nesting ∧
      b.finish (d.unfolded.fold b) = .ok s := by
  rw [walk] at h
  obtain ⟨r, hr, h⟩ := Run.exists_of_bind_ok h
  obtain ⟨⟨⟩, -, h⟩ := Run.exists_of_bind_ok h
  obtain ⟨⟨hi, hf, he⟩, hp⟩ := (Walk.visit_told hb [] d.root 0).1 r hr
  rw [he] at hr
  cases hr
  exact ⟨⟨hi, hp⟩, hf, h⟩

/-- The walk over a document that is data. -/
theorem walk_eq (hb : b.limit = none) {d : Document} {limit : Value}
    (hl : Linked d.table d.root) (hd : d.unfolded.IsData)
    (hf : Walk.Fits limit 0 d.unfolded.nesting) :
    d.walk b limit =
      ⟨d.unfolded.events b ++ [.root (d.unfolded.fold b)], b.finish (d.unfolded.fold b)⟩ := by
  obtain ⟨r, hr⟩ := (Walk.visit_ok hb [] d.root 0 hl hf).1 hd
  obtain ⟨⟨-, -, he⟩, -⟩ := (Walk.visit_told hb [] d.root 0).1 r hr
  rw [walk, he, Run.bind_ok]
  rfl

theorem unfolded_ofValue (v : Value) : (ofValue v).unfolded = v := unfold_nil [] v

theorem linked_ofValue (v : Value) : Linked (ofValue v).table v :=
  fun _ _ _ _ h => by cases h

/-- The walk over a value without references. -/
theorem walk_ofValue (hb : b.limit = none) {v limit : Value} (hd : v.IsData)
    (hf : Walk.Fits limit 0 v.nesting) :
    (ofValue v).walk b limit =
      ⟨v.events b ++ [.root (v.fold b)], b.finish (v.fold b)⟩ := by
  have h := walk_eq (d := ofValue v) hb (linked_ofValue v)
    (by rwa [unfolded_ofValue]) (by rwa [unfolded_ofValue])
  rwa [unfolded_ofValue] at h

end Document

end LuaData
