import LuaData.Proofs.Node.Fields
import LuaData.Proofs.Printer.Written

/-
  Options given anew. A format is overridden by way of entries: its own ones and then those that
  are given, put one after the other into a map that is read as a source of options again. In
  that map each name stands once, where it was given first, with the value that was given last
  (`LastWins`), and the only name that the format does not bring along is the other spelling of
  the quote option. It comes last, whatever the order of the overrides, and so it wins.
  What the format brings along is normal: reading it once more changes nothing. So an option
  without an override is what it was.
-/

namespace LuaData

namespace Format

/-! ## What is given for options -/

/-- The line end that a value stands for. -/
def eolOf (v : Value) : String := v.text?.getD defaultEol

/-- The quote style that a value stands for. -/
def quotesOf : Value → QuoteMark
  | .bool false => .double
  | _ => .single

/-- The unit of indentation that a value stands for, if it is not a negative number. -/
def spacesOf (v : Value) : Spaces :=
  match v.base with
  | .nil | .bool false => .none
  | .number (.int n) => .count n.toNat
  | .text s => .unit s
  | _ => defaultSpaces

/-- The value that is given last under a name. -/
def given? (name : String) (overrides : List (Value × Value)) : Option Value :=
  lookupKey (.text name) overrides.reverse

/-- The names under which options are given. -/
def optionNames : List String := ["eol", "single_quote", "singleQuote", "spaces"]

/-- Each entry is under the name of an option. -/
def Known (overrides : List (Value × Value)) : Prop :=
  ∀ e ∈ overrides, ∃ name ∈ optionNames, e.1.text? = some name

/-- The format with those options replaced that are given. -/
def replace (f : Format) (overrides : List (Value × Value)) : Format where
  eol := ((given? "eol" overrides).map eolOf).getD f.eol
  quotes :=
    (((given? "singleQuote" overrides).or (given? "single_quote" overrides)).map quotesOf).getD
      f.quotes
  spaces := ((given? "spaces" overrides).map spacesOf).getD f.spaces

/-! ## Reading a value -/

theorem outcome_readEol (v : Value) : (readEol (some v)).outcome = .ok (eolOf v) := by
  rw [readEol, eolOf]
  cases v.text? <;> rfl

theorem outcome_readQuotes (v : Value) : (readQuotes (some v)).outcome = .ok (quotesOf v) := by
  cases v with
  | bool b => cases b <;> rfl
  | _ => rfl

theorem outcome_readSpaces {v : Value} (h : ∀ n : Int, v.base = .int n → 0 ≤ n) :
    (readSpaces (some v)).outcome = .ok (spacesOf v) := by
  rw [readSpaces, spacesOf]
  generalize v.base = w at h
  cases w with
  | bool b => cases b <;> rfl
  | number n =>
    cases n with
    | int n =>
      have hn : ¬ n < 0 := not_lt.2 (h n rfl)
      simp only [if_neg hn, Run.pure_eq]
    | float x => rfl
  | _ => rfl

theorem outcome_ofSettings {e q s : Value} (h : ∀ n : Int, s.base = .int n → 0 ≤ n) :
    (ofSettings ⟨some e, some q, some s⟩).outcome = .ok ⟨eolOf e, quotesOf q, spacesOf s⟩ := by
  rw [ofSettings, Run.outcome_bind, outcome_readEol, ok_bind, Run.outcome_bind,
    outcome_readQuotes, ok_bind, Run.outcome_bind, outcome_readSpaces h]
  rfl

/-! ## What a format brings along -/

variable (f : Format)

theorem quotesOf_quotes : quotesOf (.bool (f.quotes = .single)) = f.quotes := by
  cases f.quotes <;> rfl

theorem spacesOf_toValue (s : Spaces) : spacesOf s.toValue = s := by
  cases s <;> rfl

theorem toValue_nonneg (s : Spaces) (n : Int) (h : s.toValue.base = .int n) : 0 ≤ n := by
  cases s with
  | count m =>
    cases h
    exact Int.natCast_nonneg m
  | none | unit => cases h

/-- Reading a format back from its own options gives the same format, and nothing is noted. -/
theorem ofEntries_entries : ofEntries f.entries = ⟨[], .ok f⟩ := by
  obtain ⟨eol, quotes, spaces⟩ := f
  cases quotes <;> cases spaces <;> rfl

/-! ## The entries that are left -/

theorem lookupKey_append {α : Type} (key : Value) (before after : List (Value × α)) :
    lookupKey key (before ++ after) = (lookupKey key before).or (lookupKey key after) := by
  induction before with
  | nil => rfl
  | cons e rest ih =>
    obtain ⟨k, v⟩ := e
    rw [List.cons_append, lookupKey, lookupKey, ih]
    split <;> rfl

theorem addAll_cons {s t : Settings} {k v : Value} {rest : List (Value × Value)} {name : String}
    (hk : k.text? = some name) (ht : s.set? name v = some t) :
    s.addAll ((k, v) :: rest) = t.addAll rest := by
  rw [Settings.addAll, hk, Option.bind_some, ht]

variable {overrides left : List (Value × Value)}

/-- The names that are left are those of the format, and then the other spelling if it is given. -/
theorem eraseDups_names {names : List (Option String)}
    (known : ∀ name ∈ names, name ∈ optionNames.map some) :
    ([some "eol", some "single_quote", some "spaces"] ++ names).eraseDups =
      [some "eol", some "single_quote", some "spaces"] ++
        if some "singleQuote" ∈ names then [some "singleQuote"] else [] := by
  induction names using List.reverseRecOn with
  | nil => rfl
  | append_singleton names name ih =>
    obtain ⟨hbefore, hname⟩ := List.forall_mem_append.1 known
    have hname : name ∈ optionNames.map some := hname name List.mem_cons_self
    rw [← List.append_assoc, eraseDups_concat, ih hbefore]
    simp only [optionNames, List.map_cons, List.map_nil, List.mem_cons, List.not_mem_nil,
      or_false] at hname
    -- only the other spelling can be new, and only the first time
    obtain rfl | rfl | rfl | rfl := hname
    · simp
    · simp
    · by_cases other : some "singleQuote" ∈ names <;> simp [other]
    · simp

/-- What is read from entries under these names. The other spelling wins, for it comes last. -/
theorem ofEntries_of_keys {others : List (Option String)}
    (hothers : others = [some "singleQuote"] ∨ others = [])
    (keys : left.map (fun e => e.1.text?) =
      [some "eol", some "single_quote", some "spaces"] ++ others) :
    Settings.ofEntries left = .ok
      ⟨lookupKey (.text "eol") left,
        (lookupKey (.text "singleQuote") left).or (lookupKey (.text "single_quote") left),
        lookupKey (.text "spaces") left⟩ := by
  obtain ⟨⟨k1, v1⟩, left, rfl, h1, keys⟩ := List.map_eq_cons_iff.1 keys
  obtain ⟨⟨k2, v2⟩, left, rfl, h2, keys⟩ := List.map_eq_cons_iff.1 keys
  obtain ⟨⟨k3, v3⟩, left, rfl, h3, keys⟩ := List.map_eq_cons_iff.1 keys
  rw [Settings.ofEntries, addAll_cons h1 rfl, addAll_cons h2 rfl, addAll_cons h3 rfl]
  simp only [lookupKey_cons h1, lookupKey_cons h2, lookupKey_cons h3]
  obtain rfl | rfl := hothers
  · obtain ⟨⟨k4, v4⟩, left, rfl, h4, keys⟩ := List.map_eq_cons_iff.1 keys
    obtain rfl := List.map_eq_nil_iff.1 keys
    rw [addAll_cons h4 rfl]
    simp only [lookupKey_cons h4]
    rfl
  · obtain rfl := List.map_eq_nil_iff.1 keys
    rfl

/-- What is read from the entries that are left: what is given, or else what the format has. -/
theorem ofEntries_override (known : Known overrides) :
    Settings.ofEntries (mergeEntries (f.entries ++ overrides)) = .ok
      ⟨some ((given? "eol" overrides).getD (.text f.eol)),
        some (((given? "singleQuote" overrides).or (given? "single_quote" overrides)).getD
          (.bool (f.quotes = .single))),
        some ((given? "spaces" overrides).getD f.spaces.toValue)⟩ := by
  have names : ∀ name ∈ overrides.map (fun e => e.1.text?), name ∈ optionNames.map some := by
    intro name hname
    obtain ⟨e, he, rfl⟩ := List.mem_map.1 hname
    obtain ⟨name, hmem, hkey⟩ := known e he
    rw [hkey]
    exact List.mem_map_of_mem hmem
  have texts : ∀ e ∈ f.entries ++ overrides, e.1.text?.isSome := by
    refine List.forall_mem_append.2 ⟨?_, fun e he => ?_⟩
    · simp [entries, Value.text?, Value.base]
    · obtain ⟨name, -, hkey⟩ := known e he
      rw [hkey]
      rfl
  -- which names are left, and under each of them the value that was put there last
  obtain ⟨keys, values⟩ := lastWins_mergeEntries texts
  rw [List.map_append] at keys
  rw [ofEntries_of_keys (by split <;> simp) (keys.trans (eraseDups_names names))]
  have own : lookupKey (.text "eol") f.entries.reverse = some (.text f.eol) ∧
      lookupKey (.text "singleQuote") f.entries.reverse = none ∧
      lookupKey (.text "single_quote") f.entries.reverse =
        some (.bool (f.quotes = .single)) ∧
      lookupKey (.text "spaces") f.entries.reverse = some f.spaces.toValue := by
    simp [entries, lookupKey]
  obtain ⟨own_eol, own_other, own_quote, own_spaces⟩ := own
  simp only [values, List.reverse_append, lookupKey_append, own_eol, own_other, own_quote,
    own_spaces, Option.or_none, Option.or_some, Option.getD_or, given?]

/-! ## Overrides -/

theorem outcome_override (known : Known overrides)
    (nonneg : ∀ (v : Value) (n : Int), given? "spaces" overrides = some v → v.base = .int n →
      0 ≤ n) : (f.override overrides).outcome = .ok (f.replace overrides) := by
  cases hne : overrides.isEmpty with
  | true =>
    -- the format is handed on and not read again
    obtain rfl := List.isEmpty_iff.1 hne
    rfl
  | false =>
    have spaces : ∀ n : Int,
        ((given? "spaces" overrides).getD f.spaces.toValue).base = .int n → 0 ≤ n := by
      cases hgiven : given? "spaces" overrides with
      | none => exact toValue_nonneg f.spaces
      | some v => exact fun n => nonneg v n hgiven
    rw [override, hne, if_neg Bool.false_ne_true, ofEntries, ofEntries_override f known,
      Run.ofExcept_ok_bind, outcome_ofSettings spaces, ← Option.getD_map eolOf,
      ← Option.getD_map quotesOf, ← Option.getD_map spacesOf, quotesOf_quotes, spacesOf_toValue]
    rfl

/-- Whatever options are accepted and whichever of them are given anew, the printer is that of
the format whose options are, one by one, what is given or else what was accepted. Options that
are read from the format itself are those of the format. -/
theorem override_replaces {source : FormatSource} (hf : (ofSource source).outcome = .ok f)
    (known : Known overrides)
    (nonneg : ∀ (v : Value) (n : Int), given? "spaces" overrides = some v → v.base = .int n →
      0 ≤ n) :
    (f.override overrides).outcome = .ok (f.replace overrides) ∧
      (∀ (d : Document) (limit : Value), (d.write source overrides limit).outcome =
        (d.walk (f.replace overrides).printer limit).outcome) ∧
      ofEntries f.entries = ⟨[], .ok f⟩ := by
  have hg := outcome_override f known nonneg
  exact ⟨hg, fun d limit => Document.outcome_write hf hg, ofEntries_entries f⟩

/-- Both spellings of the quote option and a unit of indentation that is none, given anew for
options that have everything of their own. -/
theorem override_replaces_spellings :
    let f : Format := ⟨"\r\n", .double, .unit "\t"⟩
    let source : FormatSource := .value (.map [(.text "singleQuote", .bool false),
      (.text "spaces", .text "\t"), (.text "eol", .text "\r\n")])
    let overrides : List (Value × Value) := [(.text "singleQuote", .bool true),
      (.text "spaces", .list []), (.text "single_quote", .bool false)]
    (ofSource source).outcome = .ok f ∧
      (f.override overrides).outcome = .ok ⟨"\r\n", .single, .count 2⟩ ∧
      (∀ (d : Document) (limit : Value), (d.write source overrides limit).outcome =
        (d.walk (Printer.tall .single "  " "\r\n") limit).outcome) ∧
      ofEntries f.entries = ⟨[], .ok f⟩ := by
  intro f source overrides
  have hf : (ofSource source).outcome = .ok f := rfl
  have known : Known overrides := List.forall_mem_cons.2 ⟨⟨"singleQuote", by decide, rfl⟩,
    List.forall_mem_cons.2 ⟨⟨"spaces", by decide, rfl⟩,
      List.forall_mem_singleton.2 ⟨"single_quote", by decide, rfl⟩⟩⟩
  have spaces : given? "spaces" overrides = some (.list []) := by
    simp [given?, overrides, lookupKey]
  have replaced : f.replace overrides = ⟨"\r\n", .single, .count 2⟩ := by
    simp [replace, f, given?, overrides, lookupKey, quotesOf, spacesOf, Value.base, defaultSpaces]
  obtain ⟨overridden, written, own⟩ := override_replaces f hf known fun v n hv hn => by
    obtain rfl : Value.list [] = v := Option.some.inj (spaces.symm.trans hv)
    cases hn
  rw [replaced] at overridden written
  exact ⟨hf, overridden, written, own⟩

end Format

end LuaData
