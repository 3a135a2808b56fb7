import LuaData.Proofs.Node.ReadBack
import LuaData.Proofs.Reader.Parse

/-
  Which keys are written bare. In a table constructor Lua takes the names that it does not
  reserve (`BareName`). A key is written bare, and the field of an entry is named by it, if it
  has the shape of a name; so the reserved words are written bare as well
  (`written_bare_iff`), although no table constructor takes them.
-/

namespace LuaData

/-! ## Names -/

/-- A letter, a digit or an underscore, of ASCII. -/
def IsNameChar (c : Char) : Prop :=
  ('a' ≤ c ∧ c ≤ 'z') ∨ ('A' ≤ c ∧ c ≤ 'Z') ∨ ('0' ≤ c ∧ c ≤ '9') ∨ c = '_'

/-- Some letters, digits and underscores, of which the first is no digit. -/
structure NameShaped (s : String) : Prop where
  nonempty : s ≠ ""
  chars : ∀ c ∈ s.toList, IsNameChar c
  start : ∀ c ∈ s.toList.head?, ¬ ('0' ≤ c ∧ c ≤ '9')

/-- A text that names a field of a table in Lua without brackets around it. -/
structure BareName (s : String) : Prop extends NameShaped s where
  free : s ∉ Reader.reservedWords

theorem isDigit_iff {c : Char} : c.isDigit ↔ '0' ≤ c ∧ c ≤ '9' := by
  rw [Char.isDigit, Bool.and_eq_true, decide_eq_true_eq, decide_eq_true_eq]
  exact Iff.rfl

theorem isAlpha_iff {c : Char} : c.isAlpha ↔ ('a' ≤ c ∧ c ≤ 'z') ∨ ('A' ≤ c ∧ c ≤ 'Z') := by
  rw [Char.isAlpha, Bool.or_eq_true, Char.isUpper, Char.isLower, decide_eq_true_eq,
    Bool.and_eq_true, decide_eq_true_eq, decide_eq_true_eq]
  exact or_comm

theorem isNameRest_iff {c : Char} : isNameRest c ↔ IsNameChar c := by
  rw [isNameRest, Bool.or_eq_true, Char.isAlphanum, Bool.or_eq_true, isAlpha_iff, isDigit_iff,
    decide_eq_true_eq, IsNameChar, or_assoc, or_assoc]

/-- Letters and the underscore are no digits. -/
theorem isNameStart_iff {c : Char} : isNameStart c ↔ IsNameChar c ∧ ¬ ('0' ≤ c ∧ c ≤ '9') := by
  have apart : isNameStart c → ¬ ('0' ≤ c ∧ c ≤ '9') := by
    rw [isNameStart, Bool.or_eq_true, isAlpha_iff, decide_eq_true_eq]
    rintro ((⟨h, -⟩ | ⟨h, -⟩) | rfl) ⟨-, h9⟩
    · exact absurd (h.trans h9) (by decide)
    · exact absurd (h.trans h9) (by decide)
    · exact absurd h9 (by decide)
  have split : isNameRest c ↔ isNameStart c ∨ ('0' ≤ c ∧ c ≤ '9') := by
    rw [isNameRest, isNameStart, Char.isAlphanum, Bool.or_eq_true, Bool.or_eq_true,
      Bool.or_eq_true, isDigit_iff, or_right_comm]
  rw [← isNameRest_iff, split]
  exact ⟨fun h => ⟨Or.inl h, apart h⟩, fun h => h.1.resolve_right h.2⟩

theorem isName_iff {s : String} : isName s ↔ NameShaped s := by
  have some_iff : s ≠ "" ↔ s.toList ≠ [] := by rw [ne_eq, ne_eq, String.toList_eq_nil_iff]
  rw [isName]
  constructor
  · intro h
    cases hs : s.toList with
    | nil => rw [hs] at h; cases h
    | cons c cs =>
      rw [hs, isNameChars, Bool.and_eq_true, List.all_eq_true, isNameStart_iff] at h
      obtain ⟨⟨hc, hstart⟩, hrest⟩ := h
      refine ⟨some_iff.2 (by rw [hs]; exact List.cons_ne_nil c cs), ?_, ?_⟩
      · rw [hs]
        exact List.forall_mem_cons.2 ⟨hc, fun d hd => isNameRest_iff.1 (hrest d hd)⟩
      · rw [hs]
        rintro d ⟨⟩
        exact hstart
  · rintro ⟨hsome, hchars, hstart⟩
    obtain ⟨c, cs, hs⟩ := List.exists_cons_of_ne_nil (some_iff.1 hsome)
    rw [hs] at hchars hstart ⊢
    obtain ⟨hc, hrest⟩ := List.forall_mem_cons.1 hchars
    rw [isNameChars, Bool.and_eq_true, List.all_eq_true, isNameStart_iff]
    exact ⟨⟨hc, hstart c rfl⟩, fun d hd => isNameRest_iff.2 (hrest d hd)⟩

/-- The reserved words have the shape of names. -/
theorem isName_of_reserved {s : String} (h : s ∈ Reader.reservedWords) : isName s := by
  have all : ∀ s ∈ Reader.reservedWords, isName s = true := by decide +kernel
  exact all s h

theorem isName_iff_bareName {s : String} :
    isName s ↔ BareName s ∨ s ∈ Reader.reservedWords := by
  constructor
  · intro h
    by_cases hr : s ∈ Reader.reservedWords
    · exact Or.inr hr
    · exact Or.inl ⟨isName_iff.1 h, hr⟩
  · rintro (h | h)
    · exact isName_iff.2 h.toNameShaped
    · exact isName_of_reserved h

/-! ## Keys in a text -/

theorem length_le_quotedBody (mark : Char) (cs : List Char) :
    cs.length ≤ (quotedBody mark cs).length := by
  induction cs with
  | nil => exact Nat.le_refl 0
  | cons c cs ih =>
    rw [quotedBody_cons, List.length_append, List.length_cons]
    split
    · rw [List.length_cons, List.length_singleton]
      omega
    · rw [List.length_singleton]
      omega

theorem writtenKey_eq_self_iff (mark : QuoteMark) (key : String) :
    writtenKey mark key = key ↔ isName key := by
  rw [writtenKey]
  split
  · rename_i h
    exact iff_of_true rfl h
  · rename_i h
    -- The literal holds the key and two marks, and there are brackets around it.
    refine iff_of_false (fun heq => ?_) h
    have hlength := congrArg (fun s => s.toList.length) heq
    have hbody := length_le_quotedBody mark.char key.toList
    simp only [String.toList_append, List.length_append, toList_quote, quotedChars,
      List.length_cons] at hlength
    omega

/-! ## Keys in a tree -/

namespace Node

/-- The field that an entry of a map is built as: named by its key where that is written bare, and
keyed by the literal of the key otherwise. -/
inductive EntryField : Value × Value → Value → Prop
  | named {k v node : Value} {s : String} (key : k.text? = some s) (value : expression v = .ok node)
      (bare : BareName s ∨ s ∈ Reader.reservedWords) : EntryField (k, v) (namedField k node)
  | keyed {k v kn node : Value} {s : String} (key : k.text? = some s)
      (literal : string k = .ok kn) (value : expression v = .ok node)
      (bare : ¬ (BareName s ∨ s ∈ Reader.reservedWords)) : EntryField (k, v) (keyedField kn node)

theorem entryFieldOf_text {k v node : Value} {s : String} (key : k.text? = some s)
    (value : expression v = .ok node) : ∃ f, entryFieldOf k v = .ok f ∧ EntryField (k, v) f := by
  have named : k.isNamed ↔ BareName s ∨ s ∈ Reader.reservedWords := by
    rw [Value.isNamed, key, Option.any_some, isName_iff_bareName]
  rw [entryFieldOf]
  split
  · rename_i h
    rw [value]
    exact ⟨_, rfl, .named key value (named.1 h)⟩
  · rename_i h
    obtain ⟨kn, hkn⟩ : ∃ kn, string k = .ok kn := by
      rw [string, key]
      exact ⟨_, rfl⟩
    rw [hkn, value]
    exact ⟨_, rfl, .keyed key hkn value (mt named.2 h)⟩

theorem entryFieldsOf_text {entries : List (Value × Value)}
    (h : ∀ e ∈ entries, e.1.text?.isSome ∧ ∃ node, expression e.2 = .ok node) :
    ∃ fields, entryFieldsOf entries = .ok fields ∧ List.Forall₂ EntryField entries fields := by
  induction entries with
  | nil => exact ⟨[], by rw [entryFieldsOf], .nil⟩
  | cons e rest ih =>
    obtain ⟨⟨key, node, value⟩, hrest⟩ := List.forall_mem_cons.1 h
    obtain ⟨s, hs⟩ := Option.isSome_iff_exists.1 key
    obtain ⟨f, hf, field⟩ := entryFieldOf_text hs value
    obtain ⟨fs, hfs, fields⟩ := ih hrest
    refine ⟨f :: fs, ?_, .cons field fields⟩
    rw [entryFieldsOf, hf, hfs]
    rfl

/-- A key is written bare if and only if it is a name that Lua takes for a field or one of the
words that it reserves, and between brackets as a literal otherwise. In the tree of a map whose
keys are texts and whose values have trees, the same keys name their fields. -/
theorem written_bare_iff (key : String) :
    (∀ mark, (writtenKey mark key = key ↔ BareName key ∨ key ∈ Reader.reservedWords) ∧
      (writtenKey mark key = key ∨ writtenKey mark key = "[" ++ quote mark key ++ "]")) ∧
    ∀ entries : List (Value × Value),
      (∀ e ∈ entries, e.1.text?.isSome ∧ ∃ node, expression e.2 = .ok node) →
      ∃ fields, expression (.map entries) = .ok (tableConstructor fields) ∧
        List.Forall₂ EntryField entries fields := by
  refine ⟨fun mark => ⟨?_, ?_⟩, fun entries h => ?_⟩
  · rw [writtenKey_eq_self_iff, isName_iff_bareName]
  · rw [writtenKey]
    split
    · exact Or.inl rfl
    · exact Or.inr rfl
  · obtain ⟨fields, hfields, each⟩ := entryFieldsOf_text h
    refine ⟨fields, ?_, each⟩
    rw [expression, hfields]
    rfl

/-- A reserved word is written bare, which Lua does not take. -/
theorem not_bareName_of_written_bare :
    ¬ ∀ (mark : QuoteMark) (key : String), writtenKey mark key = key ↔ BareName key := by
  intro h
  have hand : BareName "and" := (h .single "and").1 rfl
  exact hand.free (by decide)

end Node

end LuaData
