import LuaData.Proofs.Document.Walk

/-
  Which graphs of values a walk accepts, said without a walk: `Document.Acceptable` looks at what
  can be reached from the root and at nothing else. A walk keeps the shared values that are open
  and how many containers are, and both go with the path to the value at hand; so a value that
  two containers share is accepted, and one that encloses itself is not.
-/

namespace LuaData

open Relation (ReflTransGen TransGen)
open Value (IsSequence)
open Walk (isPropertyKey isMapKey)

namespace Document

/-- A limit on nesting: a whole number, or the infinite one. -/
def limitOf : WithTop Int → Value
  | some n => .int n
  | none => .number (.float (.infinite false))

/-- How many containers a path passes through. -/
def containersOn (table : List Value) (path : List Value) : Nat :=
  path.countP fun v => (deref table v).isContainer

/-- What a graph of values is like that can be written inside of a limit. -/
structure Acceptable (d : Document) (limit : WithTop Int) : Prop where
  /-- Leaves and containers are of their exact types. -/
  exact : ∀ v, d.Reaches v → v.isLeaf ∨ (kind? (deref d.table v)).isSome
  /-- The whole is no property. -/
  root : (deref d.table d.root).isProperty = false
  /-- A property is an item of a list or tuple. -/
  placed : ∀ v w, d.Reaches v → Part d.table v w → (deref d.table w).isProperty →
    ∃ mk items, IsSequence mk ∧ deref d.table v = mk items
  propertyKeys : ∀ v k w, d.Reaches v → deref d.table v = .property k w → isPropertyKey k
  mapKeys : ∀ v entries, d.Reaches v → deref d.table v = .map entries →
    ∀ e ∈ entries, isMapKey e.1
  /-- No container encloses itself. -/
  acyclic : ∀ v, d.Reaches v → (deref d.table v).isContainer → ¬ TransGen (Part d.table) v v
  /-- No path passes through more containers than the limit says. -/
  shallow : ∀ path, (d.root :: path).IsChain (Part d.table) →
    (containersOn d.table (d.root :: path) : WithTop Int) ≤ limit

/-! ## Limits -/

theorem checkDepth_limitOf (m : WithTop Int) (depth : Nat) :
    (limitOf m).checkDepth depth =
      if (depth : WithTop Int) < m then .ok () else .error (.tooDeep (limitOf m)) := by
  cases m with
  | top => rw [if_pos (WithTop.natCast_lt_top depth)]; rfl
  | coe n =>
    have e : ((depth : WithTop Int) < (n : WithTop Int)) ↔ (depth : Int) < n := by
      rw [← WithTop.coe_natCast, WithTop.coe_lt_coe]
    have r : (limitOf (n : WithTop Int)).checkDepth depth =
        if (Number.int n).reachedBy depth then .error (.tooDeep (limitOf n)) else .ok () := rfl
    rw [r, if_congr e rfl rfl, Number.reachedBy]
    by_cases h : (depth : Int) < n
    · rw [if_pos h, if_neg (by rw [decide_eq_true_eq]; omega)]
    · rw [if_neg h, if_pos (by rw [decide_eq_true_eq]; omega)]

/-- A limit below zero refuses the same as zero does. -/
theorem fits_limitOf {m : WithTop Int} {n : Nat} :
    Walk.Fits (limitOf m) 0 n ↔ (n : WithTop Int) ≤ max m 0 := by
  have each : ∀ j, (limitOf m).checkDepth (0 + j) = .ok () ↔ (j : WithTop Int) < m := by
    intro j
    rw [Nat.zero_add, checkDepth_limitOf]
    split
    · exact ⟨fun _ => by assumption, fun _ => rfl⟩
    · exact ⟨nofun, fun h => absurd h (by assumption)⟩
  constructor
  · intro h
    cases n with
    | zero => exact le_max_right _ _
    | succ n =>
      have hn := (each n).1 (h n (Nat.lt_succ_self n))
      refine le_trans ?_ (le_max_left _ _)
      cases m with
      | top => exact le_top
      | coe m =>
        rw [← WithTop.coe_natCast, WithTop.coe_lt_coe] at hn
        rw [← WithTop.coe_natCast, WithTop.coe_le_coe]
        push_cast
        omega
  · intro h j hj
    refine (each j).2 ?_
    cases m with
    | top => exact WithTop.natCast_lt_top j
    | coe m =>
      rw [← WithTop.coe_zero, ← WithTop.coe_max, ← WithTop.coe_natCast, WithTop.coe_le_coe] at h
      rw [← WithTop.coe_natCast, WithTop.coe_lt_coe]
      omega

/-! ## From what is written out to the graph

What a value is written out as says which kinds its parts are of, and each part is written out
as something that weighs less. A value that encloses itself would weigh less than itself. -/

variable {table : List Value} {path : List Nat}

/-- Data is written out in one way only, whatever the path to it. -/
theorem unfold_unique : ∀ path v q, (unfold table path v).IsItem → (unfold table q v).IsItem →
    unfold table path v = unfold table q v := by
  refine unfold_induction table ?leaf ?sequence ?map ?property ?shared ?stuck
  case leaf =>
    intro path v hl q _ _
    rw [unfold_leaf hl, unfold_leaf hl]
  case sequence =>
    intro path mk items hm ih q hp hq
    rw [unfold_sequence hm] at hp hq ⊢
    rw [unfold_sequence hm, List.map_congr_left fun v hv => ih v hv q
      ((Value.isItem_sequence hm).1 hp _ (List.mem_map_of_mem hv))
      ((Value.isItem_sequence hm).1 hq _ (List.mem_map_of_mem hv))]
  case map =>
    intro path entries ih q hp hq
    rw [unfold_map] at hp hq ⊢
    rw [unfold_map, List.map_congr_left fun e he => ?_]
    obtain ⟨hkp, hvp⟩ := Value.isItem_map.1 hp _ (List.mem_map_of_mem he)
    obtain ⟨hkq, hvq⟩ := Value.isItem_map.1 hq _ (List.mem_map_of_mem he)
    rw [(ih e he).1 q (.leaf (Value.isLeaf_of_isMapKey hkp))
      (.leaf (Value.isLeaf_of_isMapKey hkq)), (ih e he).2 q hvp.1 hvq.1]
  case property =>
    intro path k v ihk ihv q hp hq
    rw [unfold_property] at hp hq ⊢
    obtain ⟨hkp, hvp⟩ := Value.isItem_property.1 hp
    obtain ⟨hkq, hvq⟩ := Value.isItem_property.1 hq
    rw [unfold_property, ihk q (.leaf (Value.isLeaf_of_isPropertyKey hkp))
      (.leaf (Value.isLeaf_of_isPropertyKey hkq)), ihv q hvp.1 hvq.1]
  case shared =>
    intro path kind i hi hlt ih q hp hq
    have hiq : i ∉ q := fun h => by
      rw [unfold, dif_pos h] at hq
      exact Value.not_isItem_shared hq
    rw [unfold_shared kind hi hlt] at hp ⊢
    rw [unfold_shared kind hiq hlt] at hq ⊢
    exact ih (i :: q) hp hq
  case stuck =>
    intro path v hs q hp _
    exact absurd hp hs.not_isItem

/-- A value that is written out as data is written out as the value that it names, and the parts
of this one are written out as its parts. -/
theorem unfold_deref {v : Value} (hl : Linked table v) (h : (unfold table path v).IsItem) :
    v.isLeaf ∨ (kind? (deref table v)).isSome ∧
      ∃ q, unfold table path v = unfold table q (deref table v) := by
  cases v with
  | list items => exact Or.inr ⟨rfl, path, rfl⟩
  | tuple items => exact Or.inr ⟨rfl, path, rfl⟩
  | map entries => exact Or.inr ⟨rfl, path, rfl⟩
  | property k v => exact Or.inr ⟨rfl, path, rfl⟩
  | foreign name form => exact absurd h (Stuck.foreign name form).not_isItem
  | derived name v => exact absurd h (Stuck.derived name v).not_isItem
  | shared kind i =>
    by_cases hi : i ∈ path
    · exact absurd h (Stuck.onPath kind hi).not_isItem
    · by_cases hlt : i < table.length
      · rw [deref_shared kind hlt, hl.kind?_eq hlt]
        exact Or.inr ⟨rfl, i :: path, unfold_shared kind hi hlt⟩
      · exact absurd h (Stuck.dangling kind hi hlt).not_isItem
  | _ => exact Or.inl rfl

theorem deref_of_isLeaf {v : Value} (h : v.isLeaf) : deref table v = v := by
  cases v <;> first | rfl | cases h

theorem not_part_of_isLeaf {v w : Value} (h : v.isLeaf) : ¬ Part table v w := by
  rw [Part, deref_of_isLeaf h]
  cases v <;> first | exact List.not_mem_nil | cases h

/-- The count of one node of a path. -/
theorem containersOn_cons (v : Value) (path : List Value) :
    containersOn table (v :: path) =
      containersOn table path + if (deref table v).isContainer then 1 else 0 :=
  List.countP_cons

theorem unfold_part_sequence {mk : List Value → Value} (hm : IsSequence mk) {items : List Value}
    {w : Value} (h : (unfold table path (mk items)).IsItem) (hw : w ∈ items) :
    (unfold table path w).IsItem ∧
      (unfold table path w).weight < (unfold table path (mk items)).weight ∧
      (unfold table path w).nesting + 1 ≤ (unfold table path (mk items)).nesting := by
  rw [unfold_sequence hm] at h ⊢
  have hmem := List.mem_map_of_mem (f := unfold table path) hw
  have hweight : (mk (items.map (unfold table path))).weight =
      1 + Value.weightAll (items.map (unfold table path)) := by
    cases hm <;> rw [Value.weight]
  have hle := Value.weight_le_of_mem hmem
  have hn := Value.le_largest (List.mem_map_of_mem (f := Value.nesting) hmem)
  rw [hweight, Value.nesting_sequence hm]
  exact ⟨(Value.isItem_sequence hm).1 h _ hmem, by omega, by omega⟩

theorem unfold_part_map {entries : List (Value × Value)} {e : Value × Value}
    (h : (unfold table path (.map entries)).IsItem) (he : e ∈ entries) :
    let u := unfold table path (.map entries)
    (isMapKey (unfold table path e.1) ∧ (unfold table path e.1).weight < u.weight ∧
      (unfold table path e.1).nesting + 1 ≤ u.nesting) ∧
    ((unfold table path e.2).IsData ∧ (unfold table path e.2).weight < u.weight ∧
      (unfold table path e.2).nesting + 1 ≤ u.nesting) := by
  intro u
  have hu : u = _ := unfold_map entries
  have hmem := List.mem_map_of_mem (f := fun e => (unfold table path e.1, unfold table path e.2)) he
  have hle := Value.weight_le_of_mem_entries hmem
  have hn := Value.le_largest (List.mem_map_of_mem (f := fun e => e.2.nesting) hmem)
  rw [unfold_map] at h
  obtain ⟨hk, hd⟩ := Value.isItem_map.1 h _ hmem
  have hleaf := Value.nesting_leaf (Value.isLeaf_of_isMapKey hk)
  have := (unfold table path e.1).weight_pos
  have := (unfold table path e.2).weight_pos
  rw [hu, Value.nesting_map, Value.weight]
  simp only at hn hleaf
  exact ⟨⟨hk, by omega, by omega⟩, hd, by omega, by omega⟩

theorem unfold_part_property {k v : Value} (h : (unfold table path (.property k v)).IsItem) :
    let u := unfold table path (.property k v)
    (isPropertyKey (unfold table path k) ∧ (unfold table path k).weight < u.weight ∧
      (unfold table path k).nesting ≤ u.nesting) ∧
    ((unfold table path v).IsData ∧ (unfold table path v).weight < u.weight ∧
      (unfold table path v).nesting ≤ u.nesting) := by
  intro u
  have hu : u = _ := unfold_property k v
  rw [unfold_property] at h
  obtain ⟨hk, hd⟩ := Value.isItem_property.1 h
  have hleaf := Value.nesting_leaf (Value.isLeaf_of_isPropertyKey hk)
  rw [hu, Value.nesting_property, Value.weight]
  exact ⟨⟨hk, by omega, by omega⟩, hd, by omega, by omega⟩

/-- A part of data is data, weighs less, and nests less where it is in a container. -/
theorem unfold_part {v w : Value} (hl : Linked table v) (h : (unfold table path v).IsItem)
    (hw : Part table v w) :
    ∃ q, (unfold table q w).IsItem ∧
      (unfold table q w).weight < (unfold table path v).weight ∧
      (unfold table q w).nesting + (if (deref table v).isContainer then 1 else 0) ≤
        (unfold table path v).nesting := by
  rcases unfold_deref hl h with hleaf | ⟨hk, q, hq⟩
  · exact absurd hw (not_part_of_isLeaf hleaf)
  · rw [hq] at h ⊢
    rw [Part] at hw
    refine ⟨q, ?_⟩
    cases hv : deref table v with
    | list items => rw [hv] at h hw; exact unfold_part_sequence .list h hw
    | tuple items => rw [hv] at h hw; exact unfold_part_sequence .tuple h hw
    | map entries =>
      rw [hv] at h hw
      obtain ⟨e, he, hw⟩ := List.mem_flatMap.1 hw
      obtain ⟨⟨hk, hkw, hkn⟩, hd, hvw, hvn⟩ := unfold_part_map h he
      rcases List.mem_cons.1 hw with rfl | hw
      · exact ⟨.leaf (Value.isLeaf_of_isMapKey hk), hkw, hkn⟩
      · rw [List.mem_singleton.1 hw]
        exact ⟨hd.1, hvw, hvn⟩
    | property k u =>
      rw [hv] at h hw
      obtain ⟨⟨hk, hkw, hkn⟩, hd, hvw, hvn⟩ := unfold_part_property h
      rcases List.mem_cons.1 hw with rfl | hw
      · exact ⟨.leaf (Value.isLeaf_of_isPropertyKey hk), hkw, hkn⟩
      · rw [List.mem_singleton.1 hw]
        exact ⟨hd.1, hvw, hvn⟩
    | _ => rw [hv] at hk; cases hk

theorem unfold_reaches {v w : Value} (hl : Linked table v) (h : (unfold table path v).IsItem)
    (hw : ReflTransGen (Part table) v w) : ∃ q, (unfold table q w).IsItem := by
  induction hw with
  | refl => exact ⟨path, h⟩
  | tail hvu huw ih =>
    obtain ⟨q, hq⟩ := ih
    obtain ⟨r, hr, -⟩ := unfold_part (hl.of_reaches hvu) hq huw
    exact ⟨r, hr⟩

theorem not_encloses {v : Value} (hl : Linked table v) (h : (unfold table path v).IsItem) :
    ¬ TransGen (Part table) v v := by
  intro hc
  have lighter : ∀ w, TransGen (Part table) v w →
      ∃ q, (unfold table q w).IsItem ∧
        (unfold table q w).weight < (unfold table path v).weight := by
    intro w hw
    induction hw with
    | single hvw =>
      obtain ⟨q, hq, hlt, -⟩ := unfold_part hl h hvw
      exact ⟨q, hq, hlt⟩
    | tail hvu huw ih =>
      obtain ⟨q, hq, hlt⟩ := ih
      obtain ⟨r, hr, hlt', -⟩ := unfold_part (hl.of_reaches hvu.to_reflTransGen) hq huw
      exact ⟨r, hr, Nat.lt_trans hlt' hlt⟩
  obtain ⟨q, hq, hlt⟩ := lighter v hc
  rw [unfold_unique q v path hq h] at hlt
  exact Nat.lt_irrefl _ hlt

theorem containersOn_le_nesting {chain : List Value} : ∀ {v : Value} {path : List Nat},
    Linked table v → (unfold table path v).IsItem → (v :: chain).IsChain (Part table) →
    containersOn table (v :: chain) ≤ (unfold table path v).nesting := by
  induction chain with
  | nil =>
    intro v path hl h _
    have hone : (deref table v).isContainer → 1 ≤ (unfold table path v).nesting := by
      intro hc
      rcases unfold_deref hl h with hleaf | ⟨hk, q, hq⟩
      · rw [deref_of_isLeaf hleaf] at hc
        cases v <;> first | (cases hc; done) | cases hleaf
      · rw [hq]
        cases hv : deref table v with
        | list items => rw [unfold_sequence .list, Value.nesting_sequence .list]; omega
        | tuple items => rw [unfold_sequence .tuple, Value.nesting_sequence .tuple]; omega
        | map entries => rw [unfold_map, Value.nesting_map]; omega
        | property k w => rw [hv] at hc; cases hc
        | _ => rw [hv] at hk; cases hk
    rw [containersOn_cons]
    split
    · exact hone (by assumption)
    · exact Nat.zero_le _
  | cons w rest ih =>
    intro v path hl h hc
    obtain ⟨hvw, hc⟩ := List.isChain_cons_cons.1 hc
    obtain ⟨q, hq, -, hn⟩ := unfold_part hl h hvw
    have := ih (hl.of_part hvw) hq hc
    rw [containersOn_cons]
    omega

theorem isProperty_unfold {v : Value} (hl : Linked table v) (h : (unfold table path v).IsItem) :
    (unfold table path v).isProperty = (deref table v).isProperty := by
  rcases unfold_deref hl h with hleaf | ⟨hk, q, hq⟩
  · rw [unfold_leaf hleaf, deref_of_isLeaf hleaf]
  · rw [hq]
    cases hv : deref table v with
    | list items => rw [unfold_sequence .list]; rfl
    | tuple items => rw [unfold_sequence .tuple]; rfl
    | map entries => rw [unfold_map]; rfl
    | property k w => rw [unfold_property]; rfl
    | _ => rw [hv] at hk; cases hk

/-- A document that is written out as data is acceptable. -/
theorem acceptable_of_isData {d : Document} {limit : WithTop Int} (wf : d.WellFormed)
    (h : d.unfolded.IsData) (hn : (d.unfolded.nesting : WithTop Int) ≤ limit) :
    d.Acceptable limit := by
  have item : ∀ v, d.Reaches v → ∃ q, (unfold d.table q v).IsItem := fun v hv =>
    unfold_reaches wf.linked h.1 hv
  have named : ∀ v, d.Reaches v → ∀ u, deref d.table v = u → (kind? u).isSome →
      ∃ q, (unfold d.table q u).IsItem := by
    intro v hv u hu hk
    obtain ⟨q, hq⟩ := item v hv
    rcases unfold_deref (wf.linked.of_reaches hv) hq with hleaf | ⟨-, r, hr⟩
    · rw [deref_of_isLeaf hleaf] at hu
      exact ⟨q, hu ▸ hq⟩
    · exact ⟨r, hu ▸ hr ▸ hq⟩
  constructor
  case exact =>
    intro v hv
    obtain ⟨q, hq⟩ := item v hv
    exact (unfold_deref (wf.linked.of_reaches hv) hq).imp id And.left
  case root => rw [← isProperty_unfold wf.linked h.1]; exact h.2
  case placed =>
    intro v w hv hw hp
    have hlw := wf.linked.of_reaches (hv.tail hw)
    have data : ∀ q, (unfold d.table q w).IsData → False := fun q hd => by
      rw [← isProperty_unfold hlw hd.1, hd.2] at hp
      cases hp
    have hk := (unfold_deref (wf.linked.of_reaches hv) (item v hv).choose_spec).resolve_left
      fun hleaf => not_part_of_isLeaf hleaf hw
    rw [Part] at hw
    cases hu : deref d.table v with
    | list items => exact ⟨_, items, .list, rfl⟩
    | tuple items => exact ⟨_, items, .tuple, rfl⟩
    | map entries =>
      obtain ⟨q, hq⟩ := named v hv _ hu rfl
      rw [hu] at hw
      obtain ⟨e, he, hw⟩ := List.mem_flatMap.1 hw
      obtain ⟨⟨hkey, -⟩, hd, -⟩ := unfold_part_map hq he
      rcases List.mem_cons.1 hw with rfl | hw
      · exact (data q (Value.isData_of_isLeaf (Value.isLeaf_of_isMapKey hkey))).elim
      · rw [List.mem_singleton.1 hw] at data
        exact (data q hd).elim
    | property k u =>
      obtain ⟨q, hq⟩ := named v hv _ hu rfl
      rw [hu] at hw
      obtain ⟨⟨hkey, -⟩, hd, -⟩ := unfold_part_property hq
      rcases List.mem_cons.1 hw with rfl | hw
      · exact (data q (Value.isData_of_isLeaf (Value.isLeaf_of_isPropertyKey hkey))).elim
      · rw [List.mem_singleton.1 hw] at data
        exact (data q hd).elim
    | _ => rw [hu] at hk; cases hk.1
  case propertyKeys =>
    intro v k w hv hd
    obtain ⟨q, hq⟩ := named v hv _ hd rfl
    have hk := (unfold_part_property hq).1.1
    have hp : Part d.table v k := by rw [Part, hd]; exact List.mem_cons_self
    rwa [unfold_leaf (Walk.isLeaf_of_unfold (wf.linked.of_reaches (hv.tail hp))
      (Value.isLeaf_of_isPropertyKey hk))] at hk
  case mapKeys =>
    intro v entries hv hd e he
    obtain ⟨q, hq⟩ := named v hv _ hd rfl
    have hk := (unfold_part_map hq he).1.1
    have hp : Part d.table v e.1 := by
      rw [Part, hd]
      exact List.mem_flatMap.2 ⟨e, he, List.mem_cons_self⟩
    rwa [unfold_leaf (Walk.isLeaf_of_unfold (wf.linked.of_reaches (hv.tail hp))
      (Value.isLeaf_of_isMapKey hk))] at hk
  case acyclic =>
    intro v hv _
    obtain ⟨q, hq⟩ := item v hv
    exact not_encloses (wf.linked.of_reaches hv) hq
  case shallow =>
    intro path hc
    refine le_trans ?_ hn
    rw [← WithTop.coe_natCast, ← WithTop.coe_natCast, WithTop.coe_le_coe]
    exact Int.ofNat_le.2 (containersOn_le_nesting wf.linked h.1 hc)

/-! ## From the graph to what is written out

The shared values of a path enclose the value at hand, so in a graph without cycles none of them
is met again. -/

/-- That `v` is written out for the node `n`, inside of the shared values of `path`. -/
structure Stands (d : Document) (path : List Nat) (n v : Value) : Prop where
  reached : d.Reaches n
  /-- The node is the value, or names it. -/
  names : n = v ∨ ∃ kind i, n = .shared kind i ∧ d.table[i]? = some v
  inside : ∀ j ∈ path, ∃ kind, d.Reaches (.shared kind j) ∧
    ReflTransGen (Part d.table) (.shared kind j) n
  off : ∀ kind j, v = .shared kind j → j ∉ path

variable {d : Document} {limit : WithTop Int}

theorem Stands.deref_eq (wf : d.WellFormed) {n v : Value} (h : Stands d path n v) :
    deref d.table n = deref d.table v := by
  rcases h.names with rfl | ⟨kind, i, rfl, hi⟩
  · rfl
  · obtain ⟨hlt, rfl⟩ := List.getElem?_eq_some_iff.1 hi
    rw [deref_shared kind hlt,
      deref_of_kind? ((wf.linked.of_reaches h.reached).kind?_eq hlt)]

theorem Stands.part_iff (wf : d.WellFormed) {n v w : Value} (h : Stands d path n v) :
    Part d.table n w ↔ Part d.table v w := by
  rw [Part, Part, h.deref_eq wf]

theorem Acceptable.kind?_eq (ha : d.Acceptable limit) (wf : d.WellFormed) {kind : SharedKind}
    {i : Nat} (h : d.Reaches (.shared kind i)) :
    ∃ hlt : i < d.table.length, kind? d.table[i] = some kind := by
  have hlt : i < d.table.length := by
    by_cases hlt : i < d.table.length
    · exact hlt
    · have hd : deref d.table (.shared kind i) = .shared kind i := by
        rw [deref, List.getElem?_eq_none (Nat.le_of_not_lt hlt)]; rfl
      rcases ha.exact _ h with hl | hk
      · cases hl
      · rw [hd] at hk; cases hk
  exact ⟨hlt, (wf.linked.of_reaches h).kind?_eq hlt⟩

/-- Only a list or tuple has a part that is a property. -/
theorem Acceptable.isProperty_part (ha : d.Acceptable limit) {n w : Value} (hn : d.Reaches n)
    (hw : Part d.table n w)
    (hd : ∀ mk items, IsSequence mk → deref d.table n ≠ mk items) :
    (deref d.table w).isProperty = false := by
  by_contra hp
  obtain ⟨mk, items, hm, h⟩ := ha.placed n w hn hw (Bool.not_eq_false _ ▸ hp)
  exact hd mk items hm h

/-- A property encloses itself only together with a container, so nothing encloses itself. -/
theorem Acceptable.not_encloses (ha : d.Acceptable limit) {v : Value} (h : d.Reaches v) :
    ¬ TransGen (Part d.table) v v := by
  intro hc
  have container : ∀ w, d.Reaches w → TransGen (Part d.table) w w →
      ¬ w.isLeaf ∧ (deref d.table w).isProperty := by
    intro w hw hc
    obtain ⟨u, hu, -⟩ := TransGen.head'_iff.1 hc
    have hleaf : ¬ w.isLeaf := fun hl => not_part_of_isLeaf hl hu
    refine ⟨hleaf, ?_⟩
    have hk := (ha.exact w hw).resolve_left hleaf
    have hn := fun hcont => ha.acyclic w hw hcont hc
    cases hd : deref d.table w with
    | property k x => rfl
    | list items => rw [hd] at hn; exact absurd rfl hn
    | tuple items => rw [hd] at hn; exact absurd rfl hn
    | map entries => rw [hd] at hn; exact absurd rfl hn
    | _ => rw [hd] at hk; cases hk
  -- The part of `v` on the cycle is a property as well, but it is no item of a list.
  obtain ⟨u, hu, huv⟩ := TransGen.head'_iff.1 hc
  obtain ⟨-, hp⟩ := container v h hc
  obtain ⟨-, hpu⟩ := container u (h.tail hu) (TransGen.tail' huv hu)
  obtain ⟨mk, items, hm, hd⟩ := ha.placed v u h hu hpu
  rw [hd, Walk.isProperty_sequence hm] at hp
  cases hp

theorem Stands.root (d : Document) : Stands d [] d.root d.root :=
  ⟨.refl, Or.inl rfl, fun _ h => absurd h List.not_mem_nil, fun _ _ _ => List.not_mem_nil⟩

theorem Stands.part (ha : d.Acceptable limit) (wf : d.WellFormed) {n v w : Value}
    (h : Stands d path n v) (hw : Part d.table v w) : Stands d path w w := by
  have hnw := (h.part_iff wf).2 hw
  have hr := h.reached.tail hnw
  refine ⟨hr, Or.inl rfl, fun j hj => ?_, ?_⟩
  · obtain ⟨kind, hk, hn⟩ := h.inside j hj
    exact ⟨kind, hk, hn.tail hnw⟩
  · rintro kind j rfl hj
    obtain ⟨kind', hk, hn⟩ := h.inside j hj
    obtain ⟨_, e⟩ := ha.kind?_eq wf hr
    obtain ⟨_, e'⟩ := ha.kind?_eq wf hk
    rw [e] at e'
    cases e'
    exact ha.not_encloses hr (TransGen.tail' hn hnw)

theorem Stands.named (wf : d.WellFormed) {n : Value} {kind : SharedKind} {i : Nat}
    (h : Stands d path n (.shared kind i)) (hlt : i < d.table.length) :
    Stands d (i :: path) n d.table[i] := by
  have hn : n = .shared kind i := by
    rcases h.names with hn | ⟨kind', j, rfl, hj⟩
    · exact hn
    · cases wf.linked kind' j _ h.reached hj
  refine ⟨h.reached, Or.inr ⟨kind, i, hn, List.getElem?_eq_getElem hlt⟩, ?_, ?_⟩
  · intro j hj
    rcases List.mem_cons.1 hj with rfl | hj
    · exact ⟨kind, hn ▸ h.reached, hn ▸ .refl⟩
    · exact h.inside j hj
  · intro kind' j hj
    have hk := (wf.linked.of_reaches (hn ▸ h.reached)).kind?_eq hlt
    rw [hj] at hk
    cases hk

/-- No path from a node passes through more than `m` containers. -/
def NestsIn (table : List Value) (m : Nat) (n : Value) : Prop :=
  ∀ chain, (n :: chain).IsChain (Part table) → containersOn table (n :: chain) ≤ m

theorem NestsIn.part {m : Nat} {n w : Value} (h : NestsIn table m n) (hw : Part table n w) :
    NestsIn table m w := by
  intro chain hc
  have := h (w :: chain) (List.isChain_cons_cons.2 ⟨hw, hc⟩)
  rw [containersOn_cons] at this
  omega

theorem NestsIn.container {m : Nat} {n : Value} (h : NestsIn table m n)
    (hn : (deref table n).isContainer) :
    ∃ k, m = 1 + k ∧ ∀ w, Part table n w → NestsIn table k w := by
  have hone := h [] (.singleton n)
  rw [containersOn_cons, if_pos hn] at hone
  refine ⟨m - 1, by omega, fun w hw chain hc => ?_⟩
  have := h (w :: chain) (List.isChain_cons_cons.2 ⟨hw, hc⟩)
  rw [containersOn_cons, if_pos hn] at this
  omega

/-- What stands for a node of an acceptable graph is written out as data, and nests no deeper
than the paths from that node do. -/
theorem isItem_of_acceptable (ha : d.Acceptable limit) (wf : d.WellFormed) : ∀ path v n,
    Stands d path n v →
    (unfold d.table path v).IsItem ∧
      ∀ m, NestsIn d.table m n → (unfold d.table path v).nesting ≤ m := by
  refine unfold_induction d.table ?leaf ?sequence ?map ?property ?shared ?stuck
  case leaf =>
    intro path v hl n _
    rw [unfold_leaf hl]
    exact ⟨.leaf hl, fun m _ => by rw [Value.nesting_leaf hl]; exact Nat.zero_le m⟩
  case sequence =>
    intro path mk items hm ih n hs
    have hd : deref d.table n = mk items := by
      rw [hs.deref_eq wf]; cases hm <;> rfl
    have part : ∀ v ∈ items, Stands d path v v := fun v hv =>
      hs.part ha wf ((part_sequence hm).2 hv)
    rw [unfold_sequence hm]
    refine ⟨(Value.isItem_sequence hm).2 fun u hu => ?_, fun m hn => ?_⟩
    · obtain ⟨v, hv, rfl⟩ := List.mem_map.1 hu
      exact (ih v hv v (part v hv)).1
    · obtain ⟨k, rfl, hk⟩ := hn.container (by rw [hd]; cases hm <;> rfl)
      rw [Value.nesting_sequence hm, Nat.add_le_add_iff_left, Value.largest_le]
      intro j hj
      obtain ⟨u, hu, rfl⟩ := List.mem_map.1 hj
      obtain ⟨v, hv, rfl⟩ := List.mem_map.1 hu
      exact (ih v hv v (part v hv)).2 k (hk v ((hs.part_iff wf).2 ((part_sequence hm).2 hv)))
  case map =>
    intro path entries ih n hs
    have hd : deref d.table n = .map entries := hs.deref_eq wf
    have key : ∀ e ∈ entries, isMapKey e.1 := ha.mapKeys n entries hs.reached hd
    have part : ∀ e ∈ entries, Stands d path e.2 e.2 := fun e he =>
      hs.part ha wf (part_map_value he)
    have value : ∀ e ∈ entries, Part d.table n e.2 := fun e he =>
      (hs.part_iff wf).2 (part_map_value he)
    rw [unfold_map]
    refine ⟨Value.isItem_map.2 fun f hf => ?_, fun m hn => ?_⟩
    · obtain ⟨e, he, rfl⟩ := List.mem_map.1 hf
      have hi := ((ih e he).2 e.2 (part e he)).1
      rw [unfold_leaf (Value.isLeaf_of_isMapKey (key e he))]
      refine ⟨key e he, hi, ?_⟩
      rw [isProperty_unfold (wf.linked.of_reaches (part e he).reached) hi]
      refine ha.isProperty_part hs.reached (value e he) fun mk items hm h => ?_
      rw [hd] at h
      cases hm <;> cases h
    · obtain ⟨k, rfl, hk⟩ := hn.container (by rw [hd]; rfl)
      rw [Value.nesting_map, Nat.add_le_add_iff_left, Value.largest_le]
      intro j hj
      obtain ⟨f, hf, rfl⟩ := List.mem_map.1 hj
      obtain ⟨e, he, rfl⟩ := List.mem_map.1 hf
      exact ((ih e he).2 e.2 (part e he)).2 k (hk e.2 (value e he))
  case property =>
    intro path k v _ ihv n hs
    have hd : deref d.table n = .property k v := hs.deref_eq wf
    have value : Part d.table n v := (hs.part_iff wf).2 (part_property_value k v)
    have part := hs.part ha wf (part_property_value k v)
    have key := ha.propertyKeys n k v hs.reached hd
    obtain ⟨hi, hnest⟩ := ihv v part
    rw [unfold_property, unfold_leaf (Value.isLeaf_of_isPropertyKey key)]
    refine ⟨.property key ?_ hi, fun m hn => ?_⟩
    · rw [isProperty_unfold (wf.linked.of_reaches part.reached) hi]
      refine ha.isProperty_part hs.reached value fun mk items hm h => ?_
      rw [hd] at h
      cases hm <;> cases h
    · rw [Value.nesting_property]
      exact hnest m (hn.part value)
  case shared =>
    intro path kind i hi hlt ih n hs
    rw [unfold_shared kind hi hlt]
    exact ih n (hs.named wf hlt)
  case stuck =>
    intro path v hv n hs
    have hd := hs.deref_eq wf
    have exact : (deref d.table v).isLeaf ∨ (kind? (deref d.table v)).isSome := by
      rw [← hd]
      exact (ha.exact n hs.reached).imp (fun hl => by rwa [deref_of_isLeaf hl]) id
    cases hv with
    | foreign name form => rcases exact with h | h <;> cases h
    | derived name v => rcases exact with h | h <;> cases h
    | onPath kind hi => exact absurd hi (hs.off kind _ rfl)
    | @dangling kind i hi hlt =>
      rw [deref, List.getElem?_eq_none (Nat.le_of_not_lt hlt)] at exact
      rcases exact with h | h <;> cases h

/-- A graph of values is acceptable exactly if it is written out as data that nests no deeper
than the limit says. -/
theorem acceptable_iff (wf : d.WellFormed) (hlim : 0 ≤ limit) :
    d.Acceptable limit ↔ d.unfolded.IsData ∧ (d.unfolded.nesting : WithTop Int) ≤ limit := by
  refine ⟨fun ha => ?_, fun h => acceptable_of_isData wf h.1 h.2⟩
  obtain ⟨hi, hn⟩ := isItem_of_acceptable ha wf [] d.root d.root (Stands.root d)
  refine ⟨⟨hi, ?_⟩, ?_⟩
  · rw [unfolded, isProperty_unfold wf.linked hi]
    exact ha.root
  · cases limit with
    | top => exact le_top
    | coe m =>
      rw [← WithTop.coe_zero, WithTop.coe_le_coe] at hlim
      have hm : NestsIn d.table m.toNat d.root := fun chain hc => by
        have := ha.shallow chain hc
        rw [← WithTop.coe_natCast, WithTop.coe_le_coe] at this
        omega
      have := hn m.toNat hm
      rw [unfolded, ← WithTop.coe_natCast, WithTop.coe_le_coe]
      omega

/-! ## The walk -/

/-- Maps that hold a key once still do so when they are written out. -/
theorem keysOnce_unfold : ∀ path v, Linked table v →
    (∀ w entries, ReflTransGen (Part table) v w → deref table w = .map entries →
      distinctKeys (entries.map Prod.fst)) →
    (unfold table path v).IsItem → (unfold table path v).keysOnce := by
  refine unfold_induction table ?leaf ?sequence ?map ?property ?shared ?stuck
  case leaf =>
    intro path v hl _ _ _
    rw [unfold_leaf hl]
    exact Value.fold_leaf _ hl
  case sequence =>
    intro path mk items hm ih hl hd hi
    rw [unfold_sequence hm] at hi ⊢
    refine (Value.keysOnce_sequence hm).2 fun u hu => ?_
    have hu' := (Value.isItem_sequence hm).1 hi u hu
    obtain ⟨v, hv, rfl⟩ := List.mem_map.1 hu
    have hp : Part table (mk items) v := (part_sequence hm).2 hv
    exact ih v hv (hl.of_part hp) (fun w es hw => hd w es (.head hp hw)) hu'
  case map =>
    intro path entries ih hl hd hi
    rw [unfold_map] at hi ⊢
    have hall := Value.isItem_map.1 hi
    refine Value.keysOnce_map.2 ⟨?_, fun f hf => ?_⟩
    · have hkeys : (entries.map fun e => (unfold table path e.1, unfold table path e.2)).map
          Prod.fst = entries.map Prod.fst := by
        rw [List.map_map]
        refine List.map_congr_left fun e he => ?_
        have hk : isMapKey (unfold table path e.1) := (hall _ (List.mem_map_of_mem he)).1
        exact unfold_leaf (Walk.isLeaf_of_unfold (hl.of_part (part_map_key he))
          (Value.isLeaf_of_isMapKey hk))
      rw [hkeys]
      exact hd _ entries .refl rfl
    · have hf' := (hall f hf).2.1
      obtain ⟨e, he, rfl⟩ := List.mem_map.1 hf
      have hp : Part table (.map entries) e.2 := part_map_value he
      exact (ih e he).2 (hl.of_part hp) (fun w es hw => hd w es (.head hp hw)) hf'
  case property =>
    intro path k v _ ihv hl hd hi
    rw [unfold_property] at hi ⊢
    have hp : Part table (.property k v) v := part_property_value k v
    rw [Value.keysOnce_property]
    exact ihv (hl.of_part hp) (fun w es hw => hd w es (.head hp hw))
      (Value.isItem_property.1 hi).2.1
  case shared =>
    intro path kind i hi hlt ih hl hd
    rw [unfold_shared kind hi hlt]
    refine ih (hl.named hlt) fun w es hw hes => ?_
    rcases reaches_of_named hl hlt hw with rfl | hw
    · refine hd _ es .refl ?_
      rw [deref_shared kind hlt, ← deref_of_kind? (hl.kind?_eq hlt)]
      exact hes
    · exact hd w es hw hes
  case stuck =>
    intro path v hs _ _ hi
    exact absurd hi hs.not_isItem

theorem distinct_of_keysOnce {v : Value} (hi : v.IsItem) : v.keysOnce →
    ∀ w entries, ReflTransGen (Part []) v w → deref [] w = .map entries →
      distinctKeys (entries.map Prod.fst) := by
  -- What is reached from `v` is `v`, or is reached from one of its parts.
  have head : ∀ {v w : Value} {entries : List (Value × Value)},
      (∀ es, v = .map es → distinctKeys (es.map Prod.fst)) →
      (∀ u, Part [] v u → ReflTransGen (Part []) u w → distinctKeys (entries.map Prod.fst)) →
      ReflTransGen (Part []) v w → deref [] w = .map entries →
      distinctKeys (entries.map Prod.fst) := by
    intro v w entries hv hpart hw hd
    rcases hw.cases_head with rfl | ⟨u, hu, huw⟩
    · rw [deref_nil] at hd
      exact hv entries hd
    · exact hpart u hu huw
  have leaf : ∀ {k w : Value} {entries : List (Value × Value)}, k.isLeaf →
      ReflTransGen (Part []) k w → deref [] w = .map entries →
      distinctKeys (entries.map Prod.fst) := fun hl =>
    head (fun es h => by rw [h] at hl; cases hl) fun u hu _ =>
      absurd hu (not_part_of_isLeaf hl)
  induction hi with
  | leaf hl => exact fun _ w es => leaf hl
  | list h ih =>
    intro hk w es hw hd
    refine head (fun _ h => by cases h) (fun u hu huw => ?_) hw hd
    have hu := (part_sequence .list).1 hu
    exact ih u hu ((Value.keysOnce_sequence .list).1 hk u hu) w es huw hd
  | tuple h ih =>
    intro hk w es hw hd
    refine head (fun _ h => by cases h) (fun u hu huw => ?_) hw hd
    have hu := (part_sequence .tuple).1 hu
    exact ih u hu ((Value.keysOnce_sequence .tuple).1 hk u hu) w es huw hd
  | map hkeys _ h ih =>
    intro hk w es hw hd
    obtain ⟨hdist, hk⟩ := Value.keysOnce_map.1 hk
    refine head (fun es h => by cases h; exact hdist) (fun u hu huw => ?_) hw hd
    obtain ⟨e, he, hu⟩ := List.mem_flatMap.1 hu
    rcases List.mem_cons.1 hu with rfl | hu
    · exact leaf (Value.isLeaf_of_isMapKey (hkeys e he)) huw hd
    · rw [List.mem_singleton.1 hu] at huw
      exact ih e he (hk e he) w es huw hd
  | property hkey _ h ih =>
    intro hk w es hw hd
    rw [Value.keysOnce_property] at hk
    refine head (fun _ h => by cases h) (fun u hu huw => ?_) hw hd
    rcases List.mem_cons.1 hu with rfl | hu
    · exact leaf (Value.isLeaf_of_isPropertyKey hkey) huw hd
    · rw [List.mem_singleton.1 hu] at huw
      exact ih hk w es huw hd

/-- Data in which each map holds a key once is well-formed. -/
theorem wellFormed_ofValue {v : Value} (hi : v.IsItem) (hk : v.keysOnce) :
    (ofValue v).WellFormed :=
  ⟨linked_ofValue v, distinct_of_keysOnce hi hk⟩

theorem WellFormed.keysOnce (wf : d.WellFormed) (h : d.unfolded.IsData) :
    d.unfolded.keysOnce :=
  keysOnce_unfold [] d.root wf.linked (fun w entries hw => wf.distinct w entries hw) h.1

/-- Every walk over a graph of values ends. The values are rebuilt exactly if the graph is
acceptable inside of the limit, a limit below zero counting as zero, and then as what it is
written out as, each tuple as a list. A walk that does not succeed has refused a value or the
depth, or its builder has failed with the whole. -/
theorem walk_values (wf : d.WellFormed) (m : WithTop Int) :
    ((∃ r, (d.walk .values (limitOf m)).outcome = .ok r) ↔ d.Acceptable (max m 0)) ∧
      (∀ r, (d.walk .values (limitOf m)).outcome = .ok r →
        d.unfolded.IsData ∧ r = d.unfolded.listed) ∧
      ∀ {α β : Type} (b : Builder α β), b.limit = none → ∀ e,
        (d.walk b (limitOf m)).outcome = .error e →
          Walk.IsRefusal e ∨ ∃ a, b.finish a = .error e := by
  have accepted : d.Acceptable (max m 0) ↔
      d.unfolded.IsData ∧ Walk.Fits (limitOf m) 0 d.unfolded.nesting := by
    rw [acceptable_iff wf (le_max_right m 0), fits_limitOf]
  refine ⟨?_, ?_, ?_⟩
  · rw [accepted]
    constructor
    · rintro ⟨r, hr⟩
      obtain ⟨hd, hf, -⟩ := walk_told rfl hr
      exact ⟨hd, hf⟩
    · rintro ⟨hd, hf⟩
      rw [walk_eq rfl wf.linked hd hf]
      exact ⟨_, rfl⟩
  · intro r hr
    obtain ⟨hd, -, hfin⟩ := walk_told rfl hr
    rw [Value.fold_values hd.1 (wf.keysOnce hd)] at hfin
    exact ⟨hd, (Except.ok.inj hfin).symm⟩
  · intro α β b hb e he
    have hlim : ∀ depth e, (limitOf m).checkDepth depth = .error e → Walk.IsRefusal e := by
      intro depth e he
      rw [checkDepth_limitOf] at he
      split at he <;> cases he
      trivial
    rw [walk, Run.outcome_bind] at he
    cases hv : (Walk.visit b d.table (limitOf m) [] 0 d.root).outcome with
    | error e' =>
      rw [hv] at he
      cases he
      exact Or.inl ((Walk.visit_error hb hlim [] d.root 0).1 _ hv)
    | ok r => rw [hv] at he; exact Or.inr ⟨r, he⟩

/-- A list that is two items of another one is rebuilt for each of them. -/
theorem walk_values_shared :
    let d : Document := ⟨[.list [.int 1]], .list [.shared .list 0, .shared .list 0]⟩
    d.WellFormed ∧ d.Acceptable (max 2 0) ∧
      (d.walk .values (limitOf 2)).outcome = .ok (.list [.list [.int 1], .list [.int 1]]) := by
  intro d
  have reached : ∀ v, d.Reaches v → v = d.root ∨ v = .shared .list 0 ∨ v = .int 1 := by
    intro v hv
    induction hv with
    | refl => exact Or.inl rfl
    | tail _ hw ih =>
      rcases ih with rfl | rfl | rfl
      · simp only [Part, Value.parts, d, deref, Value.base, List.mem_cons, List.not_mem_nil,
          or_false, or_self] at hw
        exact Or.inr (Or.inl hw)
      · exact Or.inr (Or.inr (List.mem_singleton.1 hw))
      · cases hw
  have wf : d.WellFormed := by
    constructor
    · intro kind i w hv hi
      rcases reached _ hv with h | h | h <;> cases h
      cases hi
      rfl
    · intro v entries hv hd
      rcases reached _ hv with rfl | rfl | rfl <;> cases hd
  have hu : d.unfolded = .list [.list [.int 1], .list [.int 1]] := by
    simp [unfolded, unfold, unfoldAll, d, Value.int]
  have hd : d.unfolded.IsData := by
    rw [hu]
    refine ⟨.list fun v hv => ?_, rfl⟩
    simp only [List.mem_cons, List.not_mem_nil, or_false, or_self] at hv
    exact hv ▸ .list fun w hw => List.mem_singleton.1 hw ▸ .leaf rfl
  obtain ⟨accepted, rebuilt, -⟩ := walk_values wf 2
  have ha : d.Acceptable (max 2 0) := (acceptable_iff wf (le_max_right 2 0)).2
    ⟨hd, by rw [hu]; decide⟩
  obtain ⟨r, hr⟩ := accepted.2 ha
  obtain ⟨-, rfl⟩ := rebuilt r hr
  rw [hu] at hr
  exact ⟨wf, ha, hr⟩

/-- Below zero a limit does not refuse what holds no container. -/
theorem not_acceptable_below_zero :
    let d : Document := ofValue (.int 5)
    d.WellFormed ∧ ¬ ((∃ r, (d.walk .values (limitOf (-1 : Int))).outcome = .ok r) ↔
      d.Acceptable (-1 : Int)) := by
  intro d
  refine ⟨⟨linked_ofValue _, fun v entries hv hd => ?_⟩, fun h => ?_⟩
  · rcases hv.cases_head with rfl | ⟨u, hu, -⟩
    · cases hd
    · cases hu
  · have hw : (d.walk .values (limitOf (-1 : Int))).outcome = .ok (.int 5) := by
      simp [walk, Walk.visit, d, ofValue, Value.int, Builder.values]
    have := (h.1 ⟨_, hw⟩).shallow [] (.singleton _)
    rw [← WithTop.coe_natCast, WithTop.coe_le_coe] at this
    omega

end Document

end LuaData
