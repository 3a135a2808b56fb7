import LuaData.Proofs.Node.ReadBack
import LuaData.Proofs.Node.Recognition

/-
  The limit on nesting when data is written and when its expression is read. Writing counts the
  containers around a value; reading counts the operator before a number with a sign as well. So
  data that nests as deep as the limit allows is read under the same limit if there is no such
  number in its innermost containers (`Node.read_expression_iff`).
-/

namespace LuaData

open Value (IsSequence)
open Walk (isPropertyKey isMapKey)

/-! ## Numbers with a sign -/

/-- Whether a value is a number with a sign, which a zero can have as well. -/
def Value.isSigned : Value → Bool
  | .number m => m.isNegative
  | _ => false

/-- Gathers how many containers there are around each number with a sign. -/
def Builder.signDepths : Builder (List Nat) (List Nat) where
  limit := none
  constant := ofLeaf
  sequence items := items.flatten.map (· + 1)
  mapping entries := (entries.flatMap Prod.snd).map (· + 1)
  property k depths := ofLeaf k ++ depths
  finish := .ok
where
  ofLeaf (c : Value) : List Nat := if c.isSigned then [0] else []

namespace Value

variable {n : Int} {level : Nat} {v : Value}

/-- How many containers there are around each number with a sign, keys of properties being
numbers as well. -/
def signDepths (v : Value) : List Nat := v.fold .signDepths

theorem signDepths_sequence {mk : List Value → Value} (hm : IsSequence mk) (items : List Value) :
    signDepths (mk items) = (items.flatMap signDepths).map (· + 1) := by
  rw [signDepths, fold_sequence _ hm, List.flatMap_def]
  rfl

theorem signDepths_map (entries : List (Value × Value)) :
    signDepths (.map entries) =
      ((entries.map Prod.snd).flatMap signDepths).map (· + 1) := by
  rw [signDepths, fold_map, List.flatMap_map]
  simp only [Builder.signDepths, List.flatMap_map]
  rfl

theorem signDepths_property (k v : Value) :
    signDepths (.property k v) = Builder.signDepths.ofLeaf k ++ v.signDepths :=
  fold_property _ k v

theorem signDepths_leaf (h : v.isLeaf) : v.signDepths = Builder.signDepths.ofLeaf v :=
  fold_leaf _ h

theorem forall_mem_ofLeaf {c : Value} {P : Nat → Prop} :
    (∀ k ∈ Builder.signDepths.ofLeaf c, P k) ↔ (c.isSigned → P 0) := by
  rw [Builder.signDepths.ofLeaf]
  split
  · rename_i h
    rw [List.forall_mem_singleton]
    exact ⟨fun h0 _ => h0, fun h0 => h0 h⟩
  · rename_i h
    exact ⟨fun _ hs => absurd hs h, fun _ k hk => absurd hk List.not_mem_nil⟩

/-! ## Limits -/

/-- That a value at a level nests no deeper than a limit, its signs included. -/
def Within (n : Int) (level : Nat) (v : Value) : Prop :=
  (v.nesting = 0 ∨ ((level + v.nesting : Nat) : Int) ≤ n) ∧
    ∀ k ∈ v.signDepths, ((level + k : Nat) : Int) < n

theorem within_leaf (h : v.isLeaf) :
    Within n level v ↔ (v.isSigned → ((level + 1 : Nat) : Int) ≤ n) := by
  rw [Within, nesting_leaf h, signDepths_leaf h, forall_mem_ofLeaf]
  exact (and_iff_right (Or.inl rfl)).trans (imp_congr_right fun _ => by omega)

theorem within_property {k : Value} : Within n level (.property k v) ↔
    (k.isSigned → ((level + 1 : Nat) : Int) ≤ n) ∧ Within n level v := by
  have hsign : (k.isSigned → ((level + 0 : Nat) : Int) < n) ↔
      (k.isSigned → ((level + 1 : Nat) : Int) ≤ n) := imp_congr_right fun _ => by omega
  rw [Within, nesting_property, signDepths_property, List.forall_mem_append, forall_mem_ofLeaf,
    hsign, and_left_comm]
  rfl

/-- A container is within a limit if it is allowed itself and its parts are, one level further
in. -/
theorem within_of_parts {parts : List Value} (hn : v.nesting = 1 + largest (parts.map nesting))
    (hs : v.signDepths = (parts.flatMap signDepths).map (· + 1)) :
    Within n level v ↔ ((level + 1 : Nat) : Int) ≤ n ∧ ∀ w ∈ parts, Within n (level + 1) w := by
  rw [Within, hn, hs]
  constructor
  · rintro ⟨hnest, hsigns⟩
    have hnest : ((level + (1 + largest (parts.map nesting)) : Nat) : Int) ≤ n := by omega
    refine ⟨by omega, fun w hw => ⟨Or.inr ?_, fun k hk => ?_⟩⟩
    · have := le_largest (List.mem_map_of_mem (f := nesting) hw)
      omega
    · have := hsigns (k + 1) (List.mem_map_of_mem (List.mem_flatMap.2 ⟨w, hw, hk⟩))
      omega
  · rintro ⟨hlevel, hparts⟩
    have hdeep : largest (parts.map nesting) ≤ (n - (level + 1 : Nat)).toNat := by
      refine largest_le.2 fun j hj => ?_
      obtain ⟨w, hw, rfl⟩ := List.mem_map.1 hj
      have := (hparts w hw).1
      omega
    refine ⟨Or.inr (by omega), fun j hj => ?_⟩
    obtain ⟨k, hk, rfl⟩ := List.mem_map.1 hj
    obtain ⟨w, hw, hk⟩ := List.mem_flatMap.1 hk
    have := (hparts w hw).2 k hk
    omega

theorem within_sequence {mk : List Value → Value} (hm : IsSequence mk) {items : List Value} :
    Within n level (mk items) ↔
      ((level + 1 : Nat) : Int) ≤ n ∧ ∀ w ∈ items, Within n (level + 1) w :=
  within_of_parts (nesting_sequence hm items) (signDepths_sequence hm items)

theorem within_map {entries : List (Value × Value)} :
    Within n level (.map entries) ↔
      ((level + 1 : Nat) : Int) ≤ n ∧ ∀ e ∈ entries, Within n (level + 1) e.2 := by
  have hn : nesting (.map entries) = 1 + largest ((entries.map Prod.snd).map nesting) := by
    rw [nesting_map, List.map_map]
    rfl
  rw [within_of_parts hn (signDepths_map entries), List.forall_mem_map]

/-- Every value is within some limit. -/
theorem exists_within (v : Value) : ∃ n, Within n 0 v := by
  refine ⟨(v.nesting + largest v.signDepths + 1 : Nat), Or.inr (by omega), fun k hk => ?_⟩
  have := le_largest hk
  omega

end Value

namespace Node

variable {n : Int} {level : Nat} {v e : Value}

/-! ## Expressions -/

/-- A node that stands for a constant, at the levels that are left for its sign. -/
structure Constant (c e : Value) : Prop where
  shaped : Shaped [] e
  scalar : form [] e = .scalar
  iff : ∀ n level d, Scalar [] n level e d ↔
    (c.isSigned → ((level + 1 : Nat) : Int) ≤ n) ∧ d = c

/-- A node that stands for a value at the levels that the value is within the limit at. -/
structure Expresses (v e : Value) : Prop where
  shaped : Shaped [] e
  iff : ∀ n level, Reducible [] n level e ↔ v.Within n level

/-- A field that stands for an item of a list in the same way. -/
structure FieldExpresses (v e : Value) : Prop where
  shaped : Shaped [] e
  iff : ∀ n level, ReducibleField [] n level e ↔ v.Within n level

theorem constant_of_form {c : Value} (hc : c.isSigned = false) (shaped : Shaped [] e)
    (hscalar : form [] e = .scalar) (h : ∀ n level d, Scalar [] n level e d ↔ d = c) :
    Constant c e := by
  refine ⟨shaped, hscalar, fun n level d => ?_⟩
  rw [h, hc]
  exact (and_iff_right fun hs => by cases hs).symm

/-- The node of a finite leaf stands for it. -/
theorem literal_constant {c : Value} (hl : c.isLeaf) (hf : c.isFinite) :
    ∃ e, literal c = .ok e ∧ Constant c e := by
  cases c with
  | nil =>
    refine ⟨nil, rfl, constant_of_form rfl (shaped_constant rfl rfl) (form_of_isScalar rfl _)
      fun n level d => ?_⟩
    rw [scalar_iff, Document.deref_nil, scalarForm_nil]
  | bool b =>
    exact ⟨_, rfl, constant_of_form rfl (shaped_constant rfl rfl) (form_of_isScalar rfl _)
      fun n level d => scalar_of_leaf (scalarForm_boolean _) rfl⟩
  | text s =>
    exact ⟨_, rfl, constant_of_form rfl (shaped_constant rfl rfl) (form_of_isScalar rfl _)
      fun n level d => scalar_of_leaf (scalarForm_string _ _) rfl⟩
  | number m =>
    refine ⟨_, number_ok hf, ?_⟩
    split
    · rename_i hs
      refine ⟨shaped_neg (shaped_constant rfl rfl), form_of_isScalar rfl _, fun n level d => ?_⟩
      rw [scalar_neg_numeral, negate_negate_number]
      exact and_congr_left fun _ => ⟨fun h _ => h, fun h => h hs⟩
    · rename_i hs
      exact constant_of_form (Bool.eq_false_of_not_eq_true hs) (shaped_constant rfl rfl)
        (form_of_isScalar rfl _) fun n level d => scalar_of_leaf (scalarForm_numeral _) rfl
  | _ => cases hl

theorem Constant.expresses {c : Value} (hl : c.isLeaf) (h : Constant c e) : Expresses c e := by
  refine ⟨h.shaped, fun n level => ?_⟩
  rw [reducible_iff, Document.deref_nil, h.scalar, Value.within_leaf hl]
  simp only [h.iff, exists_and_left, exists_eq, and_true]

theorem Expresses.positional (h : Expresses v e) : FieldExpresses v (positionalField e) :=
  ⟨shaped_positionalField h.shaped,
    fun n level => reducibleField_positionalField.trans (h.iff n level)⟩

theorem Expresses.keyed {k kn : Value} (hk : isPropertyKey k) (hkn : Constant k kn)
    (h : Expresses v e) : FieldExpresses (.property k v) (keyedField kn e) := by
  have hkey : isKey k := by cases k <;> first | rfl | cases hk
  refine ⟨shaped_keyedField hkn.shaped h.shaped, fun n level => ?_⟩
  rw [reducibleField_keyedField, h.iff, Value.within_property]
  refine and_congr_left fun _ => ⟨fun ⟨c, hc, _⟩ => ((hkn.iff n level c).1 hc).1, fun hs => ?_⟩
  exact ⟨k, (hkn.iff n level k).2 ⟨hs, rfl⟩, hkey⟩

theorem FieldExpresses.of_property {s : String}
    (h : FieldExpresses (.property (.text s) v) e) : FieldExpresses v e := by
  refine ⟨h.shaped, fun n level => (h.iff n level).trans ?_⟩
  rw [Value.within_property]
  exact and_iff_right fun hs => by cases hs

theorem entryFieldOf_expresses {k : Value} (hk : isMapKey k)
    (h : ∃ e, expression v = .ok e ∧ Expresses v e) :
    ∃ f, entryFieldOf k v = .ok f ∧ FieldExpresses v f := by
  obtain ⟨s, rfl⟩ := Value.eq_text_of_isMapKey hk
  obtain ⟨e, he, hexp⟩ := h
  by_cases hname : (Value.text s).isNamed
  · refine ⟨namedField (.text s) e, ?_, shaped_namedField rfl hexp.shaped, fun n level => ?_⟩
    · rw [entryFieldOf, if_pos hname, he]
      rfl
    · rw [reducibleField_namedField, hexp.iff]
  · obtain ⟨kn, hkn, hconst⟩ := literal_constant (c := .text s) rfl rfl
    have hkn : string (.text s) = .ok kn := hkn
    refine ⟨keyedField kn e, ?_, (hexp.keyed rfl hconst).of_property⟩
    rw [entryFieldOf, if_neg hname, hkn, he]
    rfl

/-- A table made of fields for the parts of a container stands for the container. -/
theorem tableConstructor_expresses {γ : Type} {items : List γ} {part : γ → Value}
    {build : γ → Except Failure Value}
    (hv : ∀ n level, v.Within n level ↔ ((level + 1 : Nat) : Int) ≤ n ∧
      ∀ x ∈ items, (part x).Within n (level + 1))
    (h : ∀ x ∈ items, ∃ f, build x = .ok f ∧ FieldExpresses (part x) f) :
    ∃ nodes, items.mapM build = .ok nodes ∧ Expresses v (tableConstructor nodes) := by
  have fields : ∃ nodes, items.mapM build = .ok nodes ∧ (∀ f ∈ nodes, Shaped [] f) ∧
      ∀ n level, (∀ f ∈ nodes, ReducibleField [] n level f) ↔
        ∀ x ∈ items, (part x).Within n level := by
    clear hv
    induction items with
    | nil =>
      exact ⟨[], rfl, fun f hf => absurd hf List.not_mem_nil,
        fun n level => iff_of_true (fun f hf => absurd hf List.not_mem_nil)
          fun x hx => absurd hx List.not_mem_nil⟩
    | cons x rest ih =>
      obtain ⟨f, hf, hexp⟩ := h x List.mem_cons_self
      obtain ⟨nodes, hns, shaped, iff⟩ := ih fun y hy => h y (List.mem_cons_of_mem _ hy)
      refine ⟨f :: nodes, ?_, List.forall_mem_cons.2 ⟨hexp.shaped, shaped⟩, fun n level => ?_⟩
      · rw [List.mapM_cons, hf, hns]
        rfl
      · rw [List.forall_mem_cons, List.forall_mem_cons, hexp.iff, iff]
  obtain ⟨nodes, hns, shaped, iff⟩ := fields
  refine ⟨nodes, hns, shaped_tableConstructor shaped, fun n level => ?_⟩
  rw [reducible_tableConstructor, hv, iff]

/-- That the expression of an item, if it has one, and its field stand for it. -/
structure Expressible (v : Value) : Prop where
  whole : v.isProperty = false → ∃ e, expression v = .ok e ∧ Expresses v e
  field : ∃ f, fieldOf v = .ok f ∧ FieldExpresses v f

theorem expressible_of_data (hd : v.IsData) (h : ∃ e, expression v = .ok e ∧ Expresses v e) :
    Expressible v := by
  refine ⟨fun _ => h, ?_⟩
  obtain ⟨e, he, hexp⟩ := h
  refine ⟨positionalField e, ?_, hexp.positional⟩
  rw [fieldOf_data hd, he]
  rfl

theorem expressible_sequence {mk : List Value → Value} (hm : IsSequence mk) {items : List Value}
    (hd : (mk items).IsData) (hf : ∀ c ∈ (mk items).leaves, c.isFinite)
    (ih : ∀ v ∈ items, (∀ c ∈ v.leaves, c.isFinite) → Expressible v) :
    Expressible (mk items) := by
  rw [Value.leaves_sequence hm] at hf
  obtain ⟨nodes, hns, hexp⟩ := tableConstructor_expresses
    (fun _ _ => Value.within_sequence hm) fun v hv =>
      (ih v hv fun c hc => hf c (List.mem_flatMap.2 ⟨v, hv, hc⟩)).field
  refine expressible_of_data hd ⟨tableConstructor nodes, ?_, hexp⟩
  rw [expression_sequence hm, hns]
  rfl

/-- Data with finite numbers has an expression, which stands for it where it is within the
limit. -/
theorem expressible_of_isItem {v : Value} (hi : v.IsItem) :
    (∀ c ∈ v.leaves, c.isFinite) → Expressible v := by
  induction hi with
  | @leaf v hl =>
    intro hf
    rw [Value.leaves_leaf hl, List.forall_mem_singleton] at hf
    obtain ⟨e, he, hconst⟩ := literal_constant hl hf
    exact expressible_of_data (Value.isData_of_isLeaf hl)
      ⟨e, (expression_leaf hl).trans he, hconst.expresses hl⟩
  | list h ih => exact fun hf => expressible_sequence .list ⟨.list h, rfl⟩ hf ih
  | tuple h ih => exact fun hf => expressible_sequence .tuple ⟨.tuple h, rfl⟩ hf ih
  | @map entries hkeys hp h ih =>
    intro hf
    rw [Value.leaves_map] at hf
    obtain ⟨nodes, hns, hexp⟩ := tableConstructor_expresses (fun _ _ => Value.within_map)
      fun e he => entryFieldOf_expresses (hkeys e he) ((ih e he fun c hc =>
        hf c (List.mem_flatMap.2 ⟨e, he, List.mem_cons_of_mem _ hc⟩)).whole (hp e he))
    refine expressible_of_data ⟨.map hkeys hp h, rfl⟩ ⟨tableConstructor nodes, ?_, hexp⟩
    rw [expression, entryFieldsOf_eq_mapM, hns]
    rfl
  | @property k v hkey hp h ih =>
    intro hf
    rw [Value.leaves_property, List.forall_mem_cons] at hf
    obtain ⟨e, he, hexp⟩ := (ih hf.2).whole hp
    obtain ⟨kn, hkn, hconst⟩ := literal_constant (Value.isLeaf_of_isPropertyKey hkey) hf.1
    refine ⟨(fun h => by cases h), keyedField kn e, ?_, hexp.keyed hkey hconst⟩
    rw [fieldOf, hkn, he]
    rfl

/-! ## Chunks -/

/-- How the reading of an expression ends. -/
theorem read_ends (h : Expresses v e) :
    Ends False n (fun _ => True) (fun m => v.Within m 0)
      (read (.int n) (.ofValue (chunk [returnStatement [e]]))).outcome := by
  rw [read, Run.outcome_filterSteps]
  refine (walk_ends_ofValue Builder.complete_values (shaped_returned h.shaped)).of_iff fun m => ?_
  exact reducible_returned.trans (h.iff m 0)

/-- Data that a walk accepts under a limit is read back under that limit exactly if there are
fewer containers than the limit around each number with a sign, and is too deep otherwise. -/
theorem read_expression_iff {d : Document} {w : Value}
    (accepted : (d.walk .values (.int n)).outcome = .ok w)
    (finite : ∀ c ∈ d.unfolded.leaves, c.isFinite) :
    ∃ e, expression d.unfolded = .ok e ∧
      ((∃ r, (read (.int n) (.ofValue (chunk [returnStatement [e]]))).outcome = .ok r) ↔
        ∀ k ∈ d.unfolded.signDepths, (k : Int) < n) ∧
      ((∃ k ∈ d.unfolded.signDepths, n ≤ (k : Int)) →
        (read (.int n) (.ofValue (chunk [returnStatement [e]]))).outcome =
          .error (.tooDeep (.int n))) := by
  obtain ⟨hd, hfits, -⟩ := Document.walk_told rfl accepted
  obtain ⟨e, he, hexp⟩ := (expressible_of_isItem hd.1 finite).whole hd.2
  have hnest : d.unfolded.nesting = 0 ∨ ((0 + d.unfolded.nesting : Nat) : Int) ≤ n := by
    have hmax : ((d.unfolded.nesting : Nat) : WithTop Int) ≤ max (n : WithTop Int) 0 :=
      Document.fits_limitOf.1 hfits
    rcases le_max_iff.1 hmax with h | h
    · rw [← WithTop.coe_natCast, WithTop.coe_le_coe] at h
      exact Or.inr (by omega)
    · exact Or.inl (Nat.le_zero.1 (by exact_mod_cast h))
  have within : d.unfolded.Within n 0 ↔ ∀ k ∈ d.unfolded.signDepths, (k : Int) < n := by
    rw [Value.Within, and_iff_right hnest]
    simp only [Nat.zero_add]
  refine ⟨e, he, (read_ends hexp).exists_ok_iff.trans within, fun ⟨k, hk, hn⟩ => ?_⟩
  obtain ⟨m, hm⟩ := d.unfolded.exists_within
  refine (read_ends hexp).eq_tooDeep hm fun h => ?_
  have := within.1 h k hk
  omega

/-- A negative number beside a list that nests as deep as the limit allows. -/
theorem read_expression_iff_beside :
    let v : Value := .list [.int (-1), .list [.int 2]]
    ∃ e, expression v = .ok e ∧
      ∃ r, (read (.int 2) (.ofValue (chunk [returnStatement [e]]))).outcome = .ok r := by
  intro v
  have hi : v.IsItem := by
    refine .list (List.forall_mem_cons.2 ⟨.leaf rfl, List.forall_mem_singleton.2 ?_⟩)
    exact .list (List.forall_mem_singleton.2 (.leaf rfl))
  have hfits : Walk.Fits (.int 2) 0 v.nesting :=
    show Walk.Fits (Document.limitOf (2 : Int)) 0 v.nesting from
      Document.fits_limitOf.2 (by decide)
  obtain ⟨w, accepted⟩ : ∃ w, ((Document.ofValue v).walk .values (.int 2)).outcome = .ok w :=
    ⟨_, by rw [Document.walk_ofValue rfl ⟨hi, rfl⟩ hfits]; rfl⟩
  have finite : ∀ c ∈ (Document.ofValue v).unfolded.leaves, c.isFinite := by
    rw [Document.unfolded_ofValue]
    decide +kernel
  obtain ⟨e, he, iff, -⟩ := read_expression_iff accepted finite
  rw [Document.unfolded_ofValue] at he iff
  exact ⟨e, he, iff.2 (by decide)⟩

/-- A negative number in a container that nests as deep as the limit allows is not read back. -/
theorem not_read_under_limit_of_walk :
    ¬ ∀ (d : Document) (n : Int) (w : Value), (d.walk .values (.int n)).outcome = .ok w →
      (∀ c ∈ d.unfolded.leaves, c.isFinite) →
      ∃ e r, expression d.unfolded = .ok e ∧
        (read (.int n) (.ofValue (chunk [returnStatement [e]]))).outcome = .ok r := by
  intro reads_back
  let v : Value := .list [.int (-1)]
  have hi : v.IsItem := .list (List.forall_mem_singleton.2 (.leaf rfl))
  have hfits : Walk.Fits (.int 1) 0 v.nesting :=
    show Walk.Fits (Document.limitOf (1 : Int)) 0 v.nesting from
      Document.fits_limitOf.2 (by decide)
  have accepted : ((Document.ofValue v).walk .values (.int 1)).outcome = .ok v := by
    rw [Document.walk_ofValue rfl ⟨hi, rfl⟩ hfits]
    rfl
  have finite : ∀ c ∈ v.leaves, c.isFinite := by decide +kernel
  obtain ⟨e, r, he, hr⟩ := reads_back (.ofValue v) 1 v accepted
    (by rw [Document.unfolded_ofValue]; exact finite)
  rw [Document.unfolded_ofValue] at he
  obtain ⟨e', he', hexp⟩ := (expressible_of_isItem hi finite).whole rfl
  obtain rfl : e' = e := Except.ok.inj (he'.symm.trans he)
  have within : v.Within 1 0 := (read_ends hexp).exists_ok_iff.1 ⟨r, hr⟩
  exact absurd (within.2 1 (by decide)) (by decide)

end Node

end LuaData
