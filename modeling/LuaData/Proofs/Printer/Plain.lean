import LuaData.Proofs.Document.Acceptance
import LuaData.Proofs.Printer.Written

/-
  What is written, as a recursion over the data. `Style.text` has no documents, groups or
  stacks: it takes the data apart and puts the texts of the parts between braces. The texts of
  strings go into it as they are, whatever level they stand at and whatever is in them.
-/

namespace LuaData

open Document (Linked)
open Value (IsSequence)

/-- That a text is a part of another. -/
def Occurs (part whole : String) : Prop := ∃ before after, whole = before ++ part ++ after

namespace Occurs

variable {part whole : String}

theorem refl (part : String) : Occurs part part :=
  ⟨"", "", by rw [String.empty_append, String.append_empty]⟩

theorem append_left (h : Occurs part whole) (s : String) : Occurs part (s ++ whole) := by
  obtain ⟨before, after, rfl⟩ := h
  exact ⟨s ++ before, after, by simp only [String.append_assoc]⟩

theorem append_right (h : Occurs part whole) (s : String) : Occurs part (whole ++ s) := by
  obtain ⟨before, after, rfl⟩ := h
  exact ⟨before, after ++ s, by simp only [String.append_assoc]⟩

theorem join {texts : List String} (hmem : whole ∈ texts) (h : Occurs part whole) :
    Occurs part (String.join texts) := by
  induction texts with
  | nil => cases hmem
  | cons s rest ih =>
    rw [String.join_cons]
    rcases List.mem_cons.1 hmem with rfl | hrest
    · exact h.append_right _
    · exact (ih hrest).append_left s

end Occurs

namespace Style

variable {style : Style}

/-! ## The text of data -/

mutual

/-- The text of data at a level. -/
def text (style : Style) (level : Nat) : Value → String
  | .list items => style.table level (itemTexts style (level + 1) items)
  | .tuple items => style.table level (itemTexts style (level + 1) items)
  | .map entries => style.table level (entryTexts style (level + 1) entries)
  | .property k v => "[" ++ literal style.mark k ++ "]" ++ style.assign ++ text style level v
  | leaf => literal style.mark leaf

def itemTexts (style : Style) (level : Nat) : List Value → List String
  | [] => []
  | v :: rest => text style level v :: itemTexts style level rest

def entryTexts (style : Style) (level : Nat) : List (Value × Value) → List String
  | [] => []
  | (k, v) :: rest =>
    (Printer.keyText style.mark k ++ style.assign ++ text style level v) ::
      entryTexts style level rest

end

mutual

/-- The writer of a style makes the text of data. -/
theorem fold_writer (style : Style) (level : Nat) :
    (v : Value) → v.fold style.writer level = style.text level v
  | .list items => congrArg (style.table level) (foldAll_writer style (level + 1) items)
  | .tuple items => congrArg (style.table level) (foldAll_writer style (level + 1) items)
  | .map entries => congrArg (style.table level) (foldEntries_writer style (level + 1) entries)
  | .property k v =>
    congrArg ("[" ++ literal style.mark k ++ "]" ++ style.assign ++ ·) (fold_writer style level v)
  | .nil | .bool _ | .number _ | .text _ | .foreign .. | .derived .. | .shared .. => rfl

theorem foldAll_writer (style : Style) (level : Nat) : (items : List Value) →
    (Value.foldAll style.writer items).map (fun v => v level) = itemTexts style level items
  | [] => rfl
  | v :: rest =>
    congrArg₂ List.cons (fold_writer style level v) (foldAll_writer style level rest)

theorem foldEntries_writer (style : Style) (level : Nat) : (entries : List (Value × Value)) →
    (Value.foldEntries style.writer entries).map
        (fun e => Printer.keyText style.mark e.1 ++ style.assign ++ e.2 level) =
      entryTexts style level entries
  | [] => rfl
  | (k, v) :: rest =>
    congrArg₂ List.cons
      (congrArg (Printer.keyText style.mark k ++ style.assign ++ ·) (fold_writer style level v))
      (foldEntries_writer style level rest)

end

theorem itemTexts_eq_map (level : Nat) (items : List Value) :
    itemTexts style level items = items.map (style.text level) := by
  induction items with
  | nil => rfl
  | cons v rest ih => rw [itemTexts, ih, List.map_cons]

theorem entryTexts_eq_map (level : Nat) (entries : List (Value × Value)) :
    entryTexts style level entries = entries.map fun e =>
      Printer.keyText style.mark e.1 ++ style.assign ++ style.text level e.2 := by
  induction entries with
  | nil => rfl
  | cons e rest ih => obtain ⟨k, v⟩ := e; rw [entryTexts, ih, List.map_cons]

theorem text_sequence {mk : List Value → Value} (hm : IsSequence mk) (level : Nat)
    (items : List Value) :
    style.text level (mk items) = style.table level (items.map (style.text (level + 1))) := by
  cases hm <;> rw [text, itemTexts_eq_map]

theorem text_leaf {v : Value} (h : v.isLeaf) (level : Nat) :
    style.text level v = literal style.mark v := by
  cases v <;> first | rfl | cases h

/-! ## Strings in the text of data -/

/-- What occurs in a field occurs in the table. -/
theorem occurs_table {part field : String} {fields : List String} (hmem : field ∈ fields)
    (h : Occurs part field) (level : Nat) : Occurs part (style.table level fields) := by
  have hne : ¬ fields.isEmpty := by
    rw [List.isEmpty_iff]
    exact List.ne_nil_of_mem hmem
  rw [table, if_neg hne]
  refine Occurs.append_right (Occurs.append_right (Occurs.append_left ?_ _) _) _
  exact Occurs.join (List.mem_map_of_mem hmem) ((h.append_left _).append_right _)

end Style

/-- Gathers the texts of the strings in data: keys of maps as they are written, all others
between quote marks. -/
def Builder.strings (mark : QuoteMark) : Builder (List String) (List String) where
  limit := none
  constant := quoted
  sequence := List.flatten
  mapping entries := entries.flatMap fun e => Printer.keyText mark e.1 :: e.2
  property k texts := quoted k ++ texts
  finish := .ok
where
  quoted : Value → List String
    | .text s => [quote mark s]
    | _ => []

namespace Value

/-- The texts of the strings in data. -/
def strings (mark : QuoteMark) (v : Value) : List String := v.fold (.strings mark)

theorem strings_sequence {mk : List Value → Value} (hm : IsSequence mk) (mark : QuoteMark)
    (items : List Value) : (mk items).strings mark = items.flatMap (strings mark) :=
  (fold_sequence _ hm items).trans List.flatMap_def.symm

theorem strings_map (mark : QuoteMark) (entries : List (Value × Value)) :
    (Value.map entries).strings mark =
      entries.flatMap fun e => Printer.keyText mark e.1 :: e.2.strings mark := by
  rw [strings, fold_map]
  simp only [Builder.strings, List.flatMap_map]
  rfl

theorem strings_property (mark : QuoteMark) (k v : Value) :
    (Value.property k v).strings mark = Builder.strings.quoted mark k ++ v.strings mark :=
  fold_property _ k v

theorem strings_leaf {v : Value} (h : v.isLeaf) (mark : QuoteMark) :
    v.strings mark = Builder.strings.quoted mark v :=
  fold_leaf _ h

end Value

namespace Style

variable {style : Style}

theorem occurs_literal {mark : QuoteMark} {c : Value} {part : String}
    (h : part ∈ Builder.strings.quoted mark c) : Occurs part (literal mark c) := by
  cases c with
  | text s => exact List.mem_singleton.1 h ▸ Occurs.refl _
  | _ => cases h

theorem occurs_sequence {mk : List Value → Value} (hm : IsSequence mk) {items : List Value}
    (ih : ∀ v ∈ items, ∀ level, ∀ part ∈ v.strings style.mark, Occurs part (style.text level v))
    (level : Nat) :
    ∀ part ∈ (mk items).strings style.mark, Occurs part (style.text level (mk items)) := by
  intro part hpart
  rw [Value.strings_sequence hm] at hpart
  obtain ⟨v, hv, hpart⟩ := List.mem_flatMap.1 hpart
  rw [text_sequence hm]
  exact occurs_table (List.mem_map_of_mem hv) (ih v hv _ part hpart) level

/-- The strings in data occur in its text at any level. -/
theorem occurs_text {v : Value} (hi : v.IsItem) :
    ∀ level, ∀ part ∈ v.strings style.mark, Occurs part (style.text level v) := by
  induction hi with
  | leaf hl =>
    intro level part hpart
    rw [Value.strings_leaf hl] at hpart
    rw [text_leaf hl]
    exact occurs_literal hpart
  | list _ ih => exact occurs_sequence .list ih
  | tuple _ ih => exact occurs_sequence .tuple ih
  | map _ _ _ ih =>
    intro level part hpart
    rw [Value.strings_map] at hpart
    obtain ⟨e, he, hpart⟩ := List.mem_flatMap.1 hpart
    rw [text, entryTexts_eq_map]
    refine occurs_table (List.mem_map_of_mem he) ?_ level
    rcases List.mem_cons.1 hpart with rfl | hpart
    · exact ((Occurs.refl _).append_right _).append_right _
    · exact (ih e he _ part hpart).append_left _
  | property _ _ _ ih =>
    intro level part hpart
    rw [Value.strings_property] at hpart
    rw [text]
    rcases List.mem_append.1 hpart with hpart | hpart
    · have hkey := (occurs_literal hpart).append_left "["
      exact ((hkey.append_right "]").append_right _).append_right _
    · exact (ih _ part hpart).append_left _

end Style

/-! ## Whole documents -/

theorem Format.mark_style (g : Format) : g.style.mark = g.quotes := by
  rw [style]
  split <;> rfl

namespace Document

variable {d : Document} {limit w : Value} {source : FormatSource}
  {overrides : List (Value × Value)} {f g : Format}

/-- A document that is accepted is written in each format, as the text of its data after the
word `return`; and the strings in the data occur there as they are quoted. -/
theorem write_text (hl : Linked d.table d.root)
    (accepted : (d.walk .values limit).outcome = .ok w)
    (hf : (Format.ofSource source).outcome = .ok f)
    (hg : (f.override overrides).outcome = .ok g) :
    (d.write source overrides limit).outcome = .ok ("return " ++ g.style.text 0 d.unfolded) ∧
      ∀ part ∈ d.unfolded.strings g.quotes, Occurs part (g.style.text 0 d.unfolded) := by
  obtain ⟨hd, hfits, -⟩ := walk_told rfl accepted
  refine ⟨?_, ?_⟩
  · rw [outcome_write hf hg, walk_eq g.limit_printer hl hd hfits, ← Style.fold_writer]
    exact g.finish_printer hd.1
  · rw [← g.mark_style]
    exact Style.occurs_text hd.1 0

/-- Tables in a table, and strings that hold what a line starts with and what they stand
between. -/
theorem write_text_nested :
    let v : Value := .list [.list [], .map [(.text "a", .text "x\n\ty"),
      (.text "b c", .tuple [.int 1, .nil])], .property (.text "k") (.text "say \"no\"")]
    let g : Format := ⟨"\n", .double, .unit "\t"⟩
    ((ofValue v).write (.format g) [] (.int 3)).outcome = .ok
      ("return \x7b\n\t\x7b\x7d,\n\t\x7b\n\t\ta = \"x\n\ty\",\n\t\t[\"b c\"] = \x7b\n\t\t\t1," ++
        "\n\t\t\tnil,\n\t\t\x7d,\n\t\x7d,\n\t[\"k\"] = \"say \\\"no\\\"\",\n\x7d") ∧
      Occurs "\"x\n\ty\"" (g.style.text 0 v) := by
  intro v g
  have hi : v.IsItem := by
    refine .list (List.forall_mem_cons.2 ⟨.list fun _ h => absurd h List.not_mem_nil, ?_⟩)
    refine List.forall_mem_cons.2 ⟨Value.isItem_map.2 ?_, List.forall_mem_singleton.2
      (.property rfl rfl (.leaf rfl))⟩
    refine List.forall_mem_cons.2 ⟨⟨rfl, .leaf rfl, rfl⟩, List.forall_mem_singleton.2
      ⟨rfl, .tuple ?_, rfl⟩⟩
    exact List.forall_mem_cons.2 ⟨.leaf rfl, List.forall_mem_singleton.2 (.leaf rfl)⟩
  have hfits : Walk.Fits (limitOf (3 : Int)) 0 v.nesting := fits_limitOf.2 (by decide)
  obtain ⟨w, accepted⟩ : ∃ w, ((ofValue v).walk .values (limitOf (3 : Int))).outcome = .ok w :=
    ⟨_, by rw [walk_ofValue rfl ⟨hi, rfl⟩ hfits]; rfl⟩
  have hf : (Format.ofSource (.format g)).outcome = .ok g := rfl
  have hg : (g.override []).outcome = .ok g := rfl
  obtain ⟨written, occurs⟩ := write_text (linked_ofValue v) accepted hf hg
  rw [unfolded_ofValue] at written occurs
  refine ⟨written.trans (congrArg Except.ok ?_), occurs _ ?_⟩
  · decide
  · decide

end Document

end LuaData
