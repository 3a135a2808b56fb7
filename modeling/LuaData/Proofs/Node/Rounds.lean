import LuaData.Proofs.Node.Tables

/-
  Writing data and reading it back, again and again. The first round leaves values that tables
  come to (`Value.Tabled`): nil is gone from lists. A list that has lost its nil can consist of
  named properties only, so that the second round makes a map of it. After that no table is read
  in another way than it was written (`Value.Settled`), and the third round changes nothing.
-/

namespace LuaData

open Value (IsSequence largest)
open Walk (isPropertyKey isMapKey)

/-! ## Keys of entries -/

theorem distinctKeys_putEntry {α : Type} (key : Value) (value : α) {entries : List (Value × α)}
    (h : distinctKeys (entries.map Prod.fst)) :
    distinctKeys ((putEntry key value entries).map Prod.fst) := by
  induction entries with
  | nil => rfl
  | cons e rest ih =>
    obtain ⟨k, v⟩ := e
    rw [List.map_cons, distinctKeys_cons] at h
    rw [putEntry]
    split
    · exact distinctKeys_cons.2 h
    · rename_i hne
      have others : ∀ f ∈ putEntry key value rest, k.sameKey f.1 = false ∧ True :=
        forall_mem_putEntry (P := fun l => k.sameKey l = false) (Q := fun _ => True)
          (Bool.eq_false_iff.2 hne) trivial
          fun f hf => ⟨h.1 f.1 (List.mem_map_of_mem hf), trivial⟩
      exact distinctKeys_cons.2 ⟨List.forall_mem_map.2 fun f hf => (others f hf).1, ih h.2⟩

/-- The entries that are left have different keys. -/
theorem distinctKeys_mergeEntries {α : Type} (entries : List (Value × α)) :
    distinctKeys ((mergeEntries entries).map Prod.fst) := by
  have keep : ∀ done : List (Value × α), distinctKeys (done.map Prod.fst) →
      distinctKeys ((entries.foldl (fun done e => putEntry e.1 e.2 done) done).map Prod.fst) := by
    induction entries with
    | nil => exact fun done hdone => hdone
    | cons f rest ih => exact fun done hdone => ih _ (distinctKeys_putEntry f.1 f.2 hdone)
  exact keep [] rfl

/-! ## Constants that last -/

/-- Gathers the constants; keys are none. -/
def Builder.constants : Builder (List Value) (List Value) where
  limit := none
  constant c := [c]
  sequence := List.flatten
  mapping entries := entries.flatMap Prod.snd
  property _ cs := cs
  finish := .ok

namespace Value

/-- The leaves of a value that are no keys. -/
def constants (v : Value) : List Value := v.fold .constants

theorem constants_sequence {mk : List Value → Value} (hm : IsSequence mk) (items : List Value) :
    constants (mk items) = items.flatMap constants :=
  (fold_sequence _ hm items).trans List.flatMap_def.symm

theorem constants_map (entries : List (Value × Value)) :
    constants (.map entries) = entries.flatMap fun e => e.2.constants := by
  rw [constants, fold_map]
  simp only [Builder.constants, List.flatMap_map]
  rfl

theorem constants_property (k v : Value) : constants (.property k v) = v.constants :=
  fold_property _ k v

theorem constants_leaf {v : Value} (h : v.isLeaf) : v.constants = [v] := fold_leaf _ h

/-- Data that can be written and read back with all its constants: its numbers are finite, no
map holds a key twice, and escaping changes nothing. -/
structure Lasting (v : Value) : Prop where
  once : v.keysOnce
  finite : ∀ c ∈ v.leaves, c.isFinite
  kept : ∀ c ∈ v.constants, c.escaped = c

theorem lasting_sequence {mk : List Value → Value} (hm : IsSequence mk) {items : List Value} :
    (mk items).Lasting ↔ ∀ v ∈ items, v.Lasting := by
  constructor
  · rintro ⟨once, finite, kept⟩ v hv
    rw [leaves_sequence hm] at finite
    rw [constants_sequence hm] at kept
    exact ⟨(keysOnce_sequence hm).1 once v hv,
      fun c hc => finite c (List.mem_flatMap_of_mem hv hc),
      fun c hc => kept c (List.mem_flatMap_of_mem hv hc)⟩
  · intro h
    refine ⟨(keysOnce_sequence hm).2 fun v hv => (h v hv).once, fun c hc => ?_, fun c hc => ?_⟩
    · rw [leaves_sequence hm] at hc
      obtain ⟨v, hv, hc⟩ := List.mem_flatMap.1 hc
      exact (h v hv).finite c hc
    · rw [constants_sequence hm] at hc
      obtain ⟨v, hv, hc⟩ := List.mem_flatMap.1 hc
      exact (h v hv).kept c hc

theorem lasting_property {k v : Value} :
    (Value.property k v).Lasting ↔ k.isFinite ∧ v.Lasting := by
  constructor
  · rintro ⟨once, finite, kept⟩
    rw [leaves_property, List.forall_mem_cons] at finite
    rw [constants_property] at kept
    rw [keysOnce_property] at once
    exact ⟨finite.1, once, finite.2, kept⟩
  · rintro ⟨hk, once, finite, kept⟩
    refine ⟨by rwa [keysOnce_property], ?_, by rwa [constants_property]⟩
    rw [leaves_property]
    exact List.forall_mem_cons.2 ⟨hk, finite⟩

theorem isPropertyKey_of_isMapKey {k : Value} (h : isMapKey k) : isPropertyKey k := by
  obtain ⟨s, rfl⟩ := eq_text_of_isMapKey h
  rfl

theorem isFinite_of_isMapKey {k : Value} (h : isMapKey k) : k.isFinite := by
  obtain ⟨s, rfl⟩ := eq_text_of_isMapKey h
  rfl

theorem lasting_map {entries : List (Value × Value)} (hk : ∀ e ∈ entries, isMapKey e.1) :
    (Value.map entries).Lasting ↔
      distinctKeys (entries.map Prod.fst) ∧ ∀ e ∈ entries, e.2.Lasting := by
  constructor
  · rintro ⟨once, finite, kept⟩
    obtain ⟨distinct, once⟩ := keysOnce_map.1 once
    rw [leaves_map] at finite
    rw [constants_map] at kept
    exact ⟨distinct, fun e he => ⟨once e he,
      fun c hc => finite c (List.mem_flatMap_of_mem he (List.mem_cons_of_mem _ hc)),
      fun c hc => kept c (List.mem_flatMap_of_mem he hc)⟩⟩
  · rintro ⟨distinct, h⟩
    refine ⟨keysOnce_map.2 ⟨distinct, fun e he => (h e he).once⟩, fun c hc => ?_, fun c hc => ?_⟩
    · rw [leaves_map] at hc
      obtain ⟨e, he, hc⟩ := List.mem_flatMap.1 hc
      rcases List.mem_cons.1 hc with rfl | hc
      · exact isFinite_of_isMapKey (hk e he)
      · exact (h e he).finite c hc
    · rw [constants_map] at hc
      obtain ⟨e, he, hc⟩ := List.mem_flatMap.1 hc
      exact (h e he).kept c hc

/-! ## Kinds that come back -/

/-- What comes back is of the same kind, lists, tuples and maps being one kind here: a test that
does not look into them, into texts or at the values of properties has the same answer. -/
theorem apply_normal {γ : Type} {f : Value → γ} {container text : γ} {property : Value → γ}
    (list : ∀ items, f (.list items) = container) (tuple : ∀ items, f (.tuple items) = container)
    (map : ∀ entries, f (.map entries) = container) (text : ∀ s, f (.text s) = text)
    (property : ∀ k v, f (.property k v) = property k) (v : Value) : f v.normal = f v := by
  cases v with
  | text s => rw [normal, text, text]
  | property k v => rw [normal, property, property]
  | list items => rw [normal]; split <;> simp only [list, map]
  | tuple items => rw [normal]; split <;> simp only [list, map, tuple]
  | map entries => rw [normal]; split <;> [skip; split] <;> simp only [list, map]
  | _ => rfl

theorem isLeaf_normal (v : Value) : v.normal.isLeaf = v.isLeaf :=
  apply_normal (fun _ => rfl) (fun _ => rfl) (fun _ => rfl) (fun _ => rfl) (fun _ _ => rfl) v

theorem isProperty_normal (v : Value) : v.normal.isProperty = v.isProperty :=
  apply_normal (fun _ => rfl) (fun _ => rfl) (fun _ => rfl) (fun _ => rfl) (fun _ _ => rfl) v

theorem isNamedProperty_normal (v : Value) : v.normal.isNamedProperty = v.isNamedProperty :=
  apply_normal (fun _ => rfl) (fun _ => rfl) (fun _ => rfl) (fun _ => rfl) (fun _ _ => rfl) v

theorem normal_ne_nil {v : Value} (h : v ≠ .nil) : v.normal ≠ .nil := by
  intro hnil
  have hleaf : v.isLeaf := by rw [← isLeaf_normal, hnil]; rfl
  rw [normal_leaf hleaf] at hnil
  exact h (eq_nil_of_escaped hleaf hnil)

theorem mem_normalAll {items : List Value} {w : Value} :
    w ∈ normalAll items ↔ ∃ v ∈ items, v ≠ .nil ∧ v.normal = w := by
  induction items with
  | nil => rw [normalAll]; simp
  | cons v rest ih =>
    by_cases h : v = .nil
    · subst h
      rw [normalAll, ih]
      simp
    · rw [normalAll_cons h, List.mem_cons, ih]
      simp [h, eq_comm]

theorem normalAll_eq_map {items : List Value} (h : .nil ∉ items) :
    normalAll items = items.map normal := by
  induction items with
  | nil => rw [normalAll]; rfl
  | cons v rest ih =>
    rw [List.mem_cons, not_or] at h
    rw [normalAll_cons (Ne.symm h.1), ih h.2, List.map_cons]

/-! ## Lists of named properties -/

/-- The entries made of properties are as the keys and the values of those properties are. -/
theorem forall_mem_keyed {P Q : Value → Prop} {ws : List Value}
    (h : ∀ k x, .property k x ∈ ws → P k ∧ Q x) :
    ∀ e ∈ mergeEntries (ws.filterMap keyed?), P e.1 ∧ Q e.2 := by
  refine forall_mem_mergeEntries fun e he => ?_
  obtain ⟨w, hw, hk⟩ := List.mem_filterMap.1 he
  cases w with
  | property k x => cases hk; exact h k x hw
  | _ => cases hk

theorem keyed_ne_nil {ws : List Value} (hne : ws ≠ []) (hall : ws.all isNamedProperty) :
    mergeEntries (ws.filterMap keyed?) ≠ [] := by
  refine mergeEntries_ne_nil ?_
  cases ws with
  | nil => exact absurd rfl hne
  | cons w rest =>
    have hw := List.all_eq_true.1 hall w List.mem_cons_self
    cases w with
    | property k x => exact List.cons_ne_nil _ _
    | _ => cases hw

/-- Named properties come back as named properties. -/
theorem normalAll_named {items : List Value}
    (h : (!items.isEmpty && items.all isNamedProperty) = true) :
    normalAll items ≠ [] ∧ (normalAll items).all isNamedProperty := by
  obtain ⟨hne, hall⟩ := Bool.and_eq_true_iff.1 h
  have named : ∀ v ∈ items, v.isNamedProperty := List.all_eq_true.1 hall
  constructor
  · cases items with
    | nil => cases hne
    | cons v rest =>
      have hv : v ≠ .nil := by
        rintro rfl
        cases named .nil List.mem_cons_self
      rw [normalAll_cons hv]
      exact List.cons_ne_nil _ _
  · refine List.all_eq_true.2 fun w hw => ?_
    obtain ⟨v, hv, -, rfl⟩ := mem_normalAll.1 hw
    rw [isNamedProperty_normal]
    exact named v hv

/-! ## The first round -/

theorem tabled_property {k v : Value} :
    (Value.property k v).Tabled ↔ isPropertyKey k ∧ v.isProperty = false ∧ v.Tabled := by
  constructor
  · intro h
    cases h with
    | leaf h => cases h
    | property key plain h => exact ⟨key, plain, h⟩
  · exact fun ⟨key, plain, h⟩ => .property key plain h

/-- What data that nests at most `m` containers comes back as: tables come to it, it lasts, and
it nests no deeper. -/
structure Returned (m : Nat) (w : Value) : Prop where
  tabled : w.Tabled
  lasting : w.Lasting
  nesting : w.nesting ≤ m

theorem returned_list {m : Nat} {ws : List Value} (present : .nil ∉ ws)
    (h : ∀ w ∈ ws, Returned m w) : Returned (1 + m) (.list ws) := by
  have hle := largest_le.2 (List.forall_mem_map.2 fun w hw => (h w hw).nesting)
  refine ⟨.list present fun w hw => (h w hw).tabled,
    (lasting_sequence .list).2 fun w hw => (h w hw).lasting, ?_⟩
  rw [nesting_sequence .list]
  omega

theorem returned_map {m : Nat} {entries : List (Value × Value)} (some : entries ≠ [])
    (distinct : distinctKeys (entries.map Prod.fst))
    (named : ∀ e ∈ entries, isMapKey e.1 ∧ e.1.isNamed)
    (h : ∀ e ∈ entries, e.2.isProperty = false ∧ Returned m e.2) :
    Returned (1 + m) (.map entries) := by
  have hle := largest_le.2 (List.forall_mem_map.2 fun e he => (h e he).2.nesting)
  refine ⟨.map some named (fun e he => (h e he).1) fun e he => (h e he).2.tabled,
    (lasting_map fun e he => (named e he).1).2 ⟨distinct, fun e he => (h e he).2.lasting⟩, ?_⟩
  rw [nesting_map]
  omega

theorem returned_property {m : Nat} {k v : Value} : Returned m (.property k v) ↔
    (isPropertyKey k ∧ k.isFinite) ∧ v.isProperty = false ∧ Returned m v := by
  constructor
  · rintro ⟨tabled, lasting, nesting⟩
    obtain ⟨key, plain, tabled⟩ := tabled_property.1 tabled
    obtain ⟨finite, lasting⟩ := lasting_property.1 lasting
    rw [nesting_property] at nesting
    exact ⟨⟨key, finite⟩, plain, tabled, lasting, nesting⟩
  · rintro ⟨⟨key, finite⟩, plain, tabled, lasting, nesting⟩
    refine ⟨.property key plain tabled, lasting_property.2 ⟨finite, lasting⟩, ?_⟩
    rwa [nesting_property]

theorem Returned.mono {m n : Nat} {w : Value} (h : Returned m w) (hmn : m ≤ n) : Returned n w :=
  ⟨h.tabled, h.lasting, Nat.le_trans h.nesting hmn⟩

theorem returned_normal_property {k v : Value} (key : isPropertyKey k) (finite : k.isFinite)
    (plain : v.isProperty = false) (h : Returned v.nesting v.normal) :
    Returned (Value.property k v).nesting (Value.property k v).normal := by
  have hnormal : (Value.property k v).normal = .property k v.normal := by rw [normal]
  rw [hnormal, nesting_property]
  exact returned_property.2 ⟨⟨key, finite⟩, (isProperty_normal v).trans plain, h⟩

theorem returned_normal_list {items : List Value} (h : ∀ v ∈ items, Returned v.nesting v.normal) :
    Returned (Value.list items).nesting (Value.list items).normal := by
  have results : ∀ w ∈ normalAll items, Returned (largest (items.map nesting)) w := fun w hw => by
    obtain ⟨v, hv, -, rfl⟩ := mem_normalAll.1 hw
    exact (h v hv).mono (le_largest (List.mem_map_of_mem hv))
  rw [nesting_sequence .list, normal_sequence .list]
  split
  · rename_i hm
    obtain ⟨hne, hall⟩ := normalAll_named hm
    have entries : ∀ e ∈ mergeEntries ((normalAll items).filterMap keyed?),
        (isMapKey e.1 ∧ e.1.isNamed) ∧
          e.2.isProperty = false ∧ Returned (largest (items.map nesting)) e.2 := by
      refine forall_mem_keyed (P := fun k => isMapKey k ∧ k.isNamed)
        (Q := fun x => x.isProperty = false ∧ Returned (largest (items.map nesting)) x)
        fun k x hx => ?_
      obtain ⟨⟨key, -⟩, held⟩ := returned_property.1 (results _ hx)
      have named : k.isNamed := List.all_eq_true.1 hall _ hx
      exact ⟨⟨Node.isMapKey_of_isNamed (isLeaf_of_isPropertyKey key) named, named⟩, held⟩
    exact returned_map (keyed_ne_nil hne hall) (distinctKeys_mergeEntries _)
      (fun e he => (entries e he).1) fun e he => (entries e he).2
  · refine returned_list (fun hnil => ?_) results
    obtain ⟨v, -, hne, hv⟩ := mem_normalAll.1 hnil
    exact normal_ne_nil hne hv

/-- What data that lasts comes back as. -/
theorem returned_normal {v : Value} (h : v.IsItem) :
    v.Lasting → Returned v.nesting v.normal := by
  induction h with
  | @leaf v h =>
    intro lasting
    have kept := lasting.kept v (by rw [constants_leaf h]; exact List.mem_cons_self)
    have tabled := tabled_escaped h
    rw [kept] at tabled
    rw [normal_leaf h, kept]
    exact ⟨tabled, lasting, Nat.le_refl _⟩
  | list _ ih =>
    exact fun lasting => returned_normal_list fun v hv =>
      ih v hv ((lasting_sequence .list).1 lasting v hv)
  | tuple _ ih =>
    intro lasting
    rw [normal_sequence .tuple, ← normal_sequence .list, nesting_sequence .tuple,
      ← nesting_sequence .list]
    exact returned_normal_list fun v hv => ih v hv ((lasting_sequence .tuple).1 lasting v hv)
  | @map entries hk hp _ ih =>
    intro lasting
    obtain ⟨distinct, lasting⟩ := (lasting_map hk).1 lasting
    rw [normal_map distinct, ← nesting_properties]
    exact returned_normal_list (List.forall_mem_map.2 fun e he =>
      returned_normal_property (isPropertyKey_of_isMapKey (hk e he))
        (isFinite_of_isMapKey (hk e he)) (hp e he) (ih e he (lasting e he)))
  | property hk hp _ ih =>
    intro lasting
    obtain ⟨hf, lasting⟩ := lasting_property.1 lasting
    exact returned_normal_property hk hf hp (ih lasting)

/-! ## The second round -/

/-- Values that come back as they are: no list of them consists of named properties only. -/
inductive Settled : Value → Prop
  | leaf {c : Value} (h : c.isLeaf) (kept : c.escaped = c) : Settled c
  | list {items : List Value} (present : .nil ∉ items)
      (mixed : (!items.isEmpty && items.all isNamedProperty) = false)
      (h : ∀ v ∈ items, Settled v) : Settled (.list items)
  | map {entries : List (Value × Value)} (some : entries ≠ [])
      (named : ∀ e ∈ entries, e.1.isNamed) (h : ∀ e ∈ entries, Settled e.2) :
      Settled (.map entries)
  | property {k v : Value} (h : Settled v) : Settled (.property k v)

theorem normal_named {entries : List (Value × Value)} (hne : entries ≠ [])
    (hnamed : ∀ e ∈ entries, e.1.isNamed) :
    (Value.map entries).normal = .map (entries.map fun e => (e.1, e.2.normal)) := by
  rw [normal, if_neg (by rwa [List.isEmpty_iff]), if_pos (List.all_eq_true.2 hnamed),
    normalEntries_eq_map]

theorem Settled.normal_eq {v : Value} (h : v.Settled) : v.normal = v := by
  induction h with
  | leaf h kept => rw [normal_leaf h, kept]
  | list present mixed _ ih =>
    rw [normal_sequence .list, if_neg (Bool.eq_false_iff.1 mixed), normalAll_eq_map present,
      List.map_congr_left ih, List.map_id']
  | map some named _ ih =>
    rw [normal_named some named,
      List.map_congr_left fun e he => congrArg (Prod.mk e.1) (ih e he), List.map_id']
  | property _ ih => rw [normal, ih]

theorem settled_list {items : List Value} (present : .nil ∉ items)
    (h : ∀ v ∈ items, v.normal.Settled) : (Value.list items).normal.Settled := by
  rw [normal_sequence .list]
  split
  · rename_i hm
    obtain ⟨hne, hall⟩ := normalAll_named hm
    have entries : ∀ e ∈ mergeEntries ((normalAll items).filterMap keyed?),
        e.1.isNamed ∧ e.2.Settled := by
      refine forall_mem_keyed (P := fun k => k.isNamed) (Q := Settled) fun k x hx => ?_
      obtain ⟨v, hv, -, hvx⟩ := mem_normalAll.1 hx
      have settled := h v hv
      rw [hvx] at settled
      cases settled with
      | leaf h => cases h
      | property h => exact ⟨List.all_eq_true.1 hall _ hx, h⟩
    exact .map (keyed_ne_nil hne hall) (fun e he => (entries e he).1) fun e he => (entries e he).2
  · -- What is not named stays so, and no nil is dropped: the next round finds a list again.
    rename_i hm
    have hnamed : (items.map normal).all isNamedProperty = items.all isNamedProperty := by
      rw [List.all_map]
      exact congrArg items.all (funext isNamedProperty_normal)
    rw [normalAll_eq_map present]
    refine .list (fun hnil => ?_) ?_ (List.forall_mem_map.2 h)
    · obtain ⟨v, hv, hnil⟩ := List.mem_map.1 hnil
      exact normal_ne_nil (fun h => present (h ▸ hv)) hnil
    · rw [List.isEmpty_map, hnamed]
      exact Bool.eq_false_iff.2 hm

/-- What tables come to settles in one round. -/
theorem settled_normal {v : Value} (h : v.Tabled) : v.Lasting → v.normal.Settled := by
  induction h with
  | @leaf v h =>
    intro lasting
    have kept := lasting.kept v (by rw [constants_leaf h]; exact List.mem_cons_self)
    rw [normal_leaf h, kept]
    exact .leaf h kept
  | list present _ ih =>
    exact fun lasting => settled_list present fun v hv =>
      ih v hv ((lasting_sequence .list).1 lasting v hv)
  | map some named plain h ih =>
    intro lasting
    have lasting := ((lasting_map fun e he => (named e he).1).1 lasting).2
    rw [normal_named some fun e he => (named e he).2]
    exact .map (fun h => some (List.map_eq_nil_iff.1 h))
      (List.forall_mem_map.2 fun e he => (named e he).2)
      (List.forall_mem_map.2 fun e he => ih e he (lasting e he))
  | property _ _ _ ih =>
    intro lasting
    rw [normal]
    exact .property (ih (lasting_property.1 lasting).2)

end Value

namespace Node

/-! ## Rounds -/

/-- Writes the expression of a value in a chunk that returns it, and reads the chunk. -/
def roundTrip (n : Int) (v : Value) : Except Failure Value := do
  let e ← expression v
  (read (.int n) (.ofValue (chunk [returnStatement [e]]))).outcome

theorem roundTrip_normalForm {v : Value} (data : v.IsData) (once : v.keysOnce)
    (finite : ∀ c ∈ v.leaves, c.isFinite) {n : Int} (deep : (v.nesting : Int) < n) :
    roundTrip n v = .ok v.normalForm := by
  obtain ⟨e, he, reads⟩ := (expression_reads (n := n) data.1 once finite).1 data.2
  rw [roundTrip, he]
  exact reads.returned deep

/-- A list, a tuple or a map that can be written and lasts. -/
structure LastingTable (v : Value) : Prop where
  data : v.IsData
  lasting : v.Lasting
  table : ¬ v.isLeaf

theorem LastingTable.normal {v : Value} (h : LastingTable v) : LastingTable v.normal := by
  have returned := Value.returned_normal h.data.1 h.lasting
  exact ⟨⟨returned.tabled.isItem, (Value.isProperty_normal v).trans h.data.2⟩, returned.lasting,
    by rw [Value.isLeaf_normal]; exact h.table⟩

theorem LastingTable.roundTrip_eq {v : Value} (h : LastingTable v) {n : Int}
    (deep : (v.nesting : Int) < n) : roundTrip n v = .ok v.normal := by
  rw [roundTrip_normalForm h.data h.lasting.once h.lasting.finite deep, Value.normalForm,
    if_neg h.table]

/-- Writing data and reading it back settles after two rounds, under every limit above the
nesting of the data, which no round makes larger. -/
theorem roundTrip_settles {d : Document} (wf : d.WellFormed) {limit w : Value}
    (accepted : (d.walk .values limit).outcome = .ok w)
    (finite : ∀ c ∈ d.unfolded.leaves, c.isFinite)
    (kept : ¬ d.unfolded.isLeaf → ∀ c ∈ d.unfolded.constants, c.escaped = c) :
    ∃ x y : Value, y.nesting ≤ x.nesting ∧ x.nesting ≤ d.unfolded.nesting ∧
      (∀ n : Int, (d.unfolded.nesting : Int) < n → roundTrip n d.unfolded = .ok x) ∧
      (∀ n : Int, (x.nesting : Int) < n → roundTrip n x = .ok y) ∧
      ∀ n : Int, (y.nesting : Int) < n → roundTrip n y = .ok y := by
  obtain ⟨data, -, -⟩ := Document.walk_told rfl accepted
  have once := wf.keysOnce data
  generalize d.unfolded = v at *
  by_cases hleaf : v.isLeaf
  · -- A leaf is not inside of a table, so nothing in it is escaped.
    have same : ∀ n : Int, (v.nesting : Int) < n → roundTrip n v = .ok v := fun n deep => by
      rw [roundTrip_normalForm data once finite deep, Value.normalForm_leaf hleaf]
    exact ⟨v, v, Nat.le_refl _, Nat.le_refl _, same, same, same⟩
  · have hv : LastingTable v := ⟨data, ⟨once, finite, kept hleaf⟩, hleaf⟩
    have hx := hv.normal
    have first := Value.returned_normal data.1 hv.lasting
    have second := Value.returned_normal hx.data.1 hx.lasting
    have settled := (Value.settled_normal first.tabled first.lasting).normal_eq
    refine ⟨v.normal, v.normal.normal, second.nesting, first.nesting,
      fun n deep => hv.roundTrip_eq deep, fun n deep => hx.roundTrip_eq deep, fun n deep => ?_⟩
    rw [hx.normal.roundTrip_eq deep, settled]

/-- A list without its nil comes back as a map in the second round. -/
theorem roundTrip_settles_nil :
    let v : Value := .list [.nil, .property (.text "a") (.int 1)]
    let x : Value := .list [.property (.text "a") (.int 1)]
    let y : Value := .map [(.text "a", .int 1)]
    roundTrip 2 v = .ok x ∧ roundTrip 2 x = .ok y ∧ roundTrip 2 y = .ok y := by
  intro v x y
  have hx : x.IsItem := .list (List.forall_mem_singleton.2 (.property rfl rfl (.leaf rfl)))
  have hv : v.IsItem := .list (List.forall_mem_cons.2 ⟨.leaf rfl,
    List.forall_mem_singleton.2 (.property rfl rfl (.leaf rfl))⟩)
  have hfits : Walk.Fits (Document.limitOf (2 : Int)) 0 v.nesting :=
    Document.fits_limitOf.2 (by decide)
  have hunfolded : (Document.ofValue v).unfolded = v := Document.unfolded_ofValue v
  obtain ⟨x', y', -, -, first, second, third⟩ := roundTrip_settles
    (Document.wellFormed_ofValue hv rfl) (by rw [Document.walk_ofValue rfl ⟨hv, rfl⟩ hfits]; rfl)
    (by rw [hunfolded]; decide +kernel) (fun _ => by
      rw [hunfolded]
      exact List.forall_mem_cons.2 ⟨rfl, List.forall_mem_singleton.2 rfl⟩)
  rw [hunfolded] at first
  have hone : roundTrip 2 v = .ok x :=
    roundTrip_normalForm ⟨hv, rfl⟩ rfl (by decide +kernel) (by decide)
  have htwo : roundTrip 2 x = .ok y :=
    roundTrip_normalForm ⟨hx, rfl⟩ rfl (by decide +kernel) (by decide)
  obtain rfl : x = x' := Except.ok.inj (hone.symm.trans (first 2 (by decide)))
  obtain rfl : y = y' := Except.ok.inj (htwo.symm.trans (second 2 (by decide)))
  exact ⟨hone, htwo, third 2 (by decide)⟩

end Node

end LuaData
