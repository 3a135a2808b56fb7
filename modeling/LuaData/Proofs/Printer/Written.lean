import LuaData.Format
import LuaData.Proofs.Document.Walk
import LuaData.Proofs.Layout.Render

/-
  The text of data without documents. A style says what both printers share: the quote mark,
  what stands between a key and a value, and what a line starts with at each level, which is
  nothing where all is on one line. `Style.writer` makes a text for each level; both printers
  write what it makes.
-/

namespace LuaData

open Value (IsSequence)

/-- How tables are written. -/
structure Style where
  mark : QuoteMark
  assign : String
  line : Nat → String

namespace Style

def compact (mark : QuoteMark) : Style := ⟨mark, "=", fun _ => ""⟩

def tall (mark : QuoteMark) (indent eol : String) : Style :=
  ⟨mark, " = ", fun level => eol ++ Doc.indentation indent level⟩

/-- The literal of a constant. -/
def literal (mark : QuoteMark) (c : Value) : String :=
  match c.base with
  | .nil => "nil"
  | .bool b => if b then "true" else "false"
  | .text s => quote mark s
  | .number (.float .nan) => "0/0"
  | .number (.float (.infinite false)) => "math.huge"
  | .number (.float (.infinite true)) => "-math.huge"
  | .number n => n.text
  | _ => c.plain

/-- Fields between braces at a level. -/
def table (style : Style) (level : Nat) (fields : List String) : String :=
  if fields.isEmpty then "\x7b\x7d"
  else "\x7b" ++ String.join (fields.map fun f => style.line (level + 1) ++ f ++ ",")
    ++ style.line level ++ "\x7d"

/-- Makes a text for each level. -/
def writer (style : Style) : Builder (Nat → String) String where
  limit := none
  constant c _ := literal style.mark c
  sequence items level := style.table level (items.map fun v => v (level + 1))
  mapping entries level := style.table level
    (entries.map fun e => Printer.keyText style.mark e.1 ++ style.assign ++ e.2 (level + 1))
  property k v level := "[" ++ literal style.mark k ++ "]" ++ style.assign ++ v level
  finish text := .ok ("return " ++ text 0)

end Style

/-- The style of a format. -/
def Format.style (f : Format) : Style :=
  match f.indent? with
  | none => .compact f.quotes
  | some indent => .tall f.quotes indent f.eol

namespace Printer

variable {mark : QuoteMark} {indent eol : String}

/-! ## Constants -/

theorem isPlain_constant (mark : QuoteMark) (c : Value) : (constant mark c).isPlain := by
  unfold constant
  split <;> rfl

theorem plainText_constant (mark : QuoteMark) (c : Value) :
    (constant mark c).plainText = Style.literal mark c := by
  unfold constant Style.literal
  generalize c.base = b
  cases b with
  | number n =>
    cases n with
    | int n => rfl
    | float x =>
      cases x with
      | infinite negative => cases negative <;> rfl
      | _ => rfl
  | _ => rfl

/-! ## One field per line -/

theorem render_append (a b : Doc) (level : Int) (mode : Mode) :
    (a ++ b).render indent eol level mode =
      a.render indent eol level mode ++ b.render indent eol level mode := rfl

theorem render_foldl (g : Doc → Doc) (fields : List Doc) (init : Doc) (level : Int)
    (mode : Mode) :
    (fields.foldl (fun acc d => acc ++ g d) init).render indent eol level mode =
      init.render indent eol level mode ++
        String.join (fields.map fun d => (g d).render indent eol level mode) := by
  induction fields generalizing init with
  | nil => rw [List.foldl_nil, List.map_nil, String.join_nil, String.append_empty]
  | cons d rest ih =>
    rw [List.foldl_cons, ih, render_append, List.map_cons, String.join_cons,
      String.append_assoc]

/-- A document that means a text at each level, in either mode. -/
def Means (indent eol : String) (d : Doc) (text : Nat → String) : Prop :=
  ∀ (level : Nat) (mode : Mode), d.render indent eol level mode = text level

theorem means_constant (c : Value) :
    Means indent eol (constant mark c) fun _ => Style.literal mark c := fun level mode => by
  rw [Doc.render_plain (isPlain_constant mark c), plainText_constant]

/-- A table with a field on each line means the fields at the level below. -/
theorem means_tallTable (mark : QuoteMark) {γ : Type} (items : List γ) (doc : γ → Doc)
    (text : γ → Nat → String)
    (h : ∀ x ∈ items, Means indent eol (doc x) (text x)) :
    Means indent eol (tallTable (items.map doc)) fun level =>
      (Style.tall mark indent eol).table level (items.map fun x => text x (level + 1)) := by
  intro level mode
  show _ = Style.table _ _ _
  rw [tallTable, Style.table, List.isEmpty_map, List.isEmpty_map]
  split
  · rfl
  · have hlevel : ((level : Int) + 1) = ((level + 1 : Nat) : Int) := rfl
    rw [Doc.tall, Doc.render, render_append, render_append, render_append, Doc.render,
      Doc.render, Doc.render, Doc.render, render_foldl, Doc.render, String.empty_append,
      List.map_map, List.map_map, hlevel]
    refine congrArg (fun fields => "\x7b" ++ String.join fields ++ (eol ++
      Doc.indentation indent level) ++ "\x7d") (List.map_congr_left fun x hx => ?_)
    show (Doc.line "" ++ doc x ++ Doc.text ",").render indent eol ((level + 1 : Nat) : Int)
      .broken = _
    rw [render_append, render_append, h x hx]
    rfl

theorem means_named {d : Doc} {text : Nat → String} (h : Means indent eol d text)
    (assign : String) (k : Value) :
    Means indent eol (named mark assign (k, d)) fun level =>
      keyText mark k ++ assign ++ text level := fun level mode => by
  rw [named, render_append, render_append, h]
  rfl

theorem means_bracketed {d : Doc} {text : Nat → String} (h : Means indent eol d text)
    (assign : String) (k : Value) :
    Means indent eol (bracketed mark assign k d) fun level =>
      "[" ++ Style.literal mark k ++ "]" ++ assign ++ text level := fun level mode => by
  rw [bracketed, render_append, render_append, render_append, render_append, h,
    Doc.render_plain (isPlain_constant mark k), plainText_constant]
  rfl

theorem means_tall_sequence {mk : List Value → Value} (hm : IsSequence mk) {items : List Value}
    (ih : ∀ v ∈ items, Means indent eol (v.fold (tall mark indent eol))
      (v.fold (Style.tall mark indent eol).writer)) :
    Means indent eol ((mk items).fold (tall mark indent eol))
      ((mk items).fold (Style.tall mark indent eol).writer) := by
  intro level mode
  rw [Value.fold_sequence _ hm, Value.fold_sequence _ hm]
  refine (means_tallTable mark items _ _ ih level mode).trans ?_
  show Style.table _ _ _ = Style.table _ _ _
  rw [List.map_map]
  rfl

/-- What the printer with one field on each line makes of data. -/
theorem means_tall (mark : QuoteMark) (indent eol : String) {v : Value} (hi : v.IsItem) :
    Means indent eol (v.fold (tall mark indent eol))
      (v.fold (Style.tall mark indent eol).writer) := by
  induction hi with
  | leaf hl =>
    rw [Value.fold_leaf _ hl, Value.fold_leaf _ hl]
    exact means_constant _
  | list h ih => exact means_tall_sequence .list ih
  | tuple h ih => exact means_tall_sequence .tuple ih
  | @map entries hk hp h ih =>
    rw [Value.fold_map, Value.fold_map]
    intro level mode
    have hfields := means_tallTable mark entries
      (fun e => named mark " = " (e.1, e.2.fold (tall mark indent eol))) _
      (fun e he => means_named (ih e he) " = " e.1) level mode
    show (tallTable ((entries.map _).map _)).render indent eol level mode = Style.table _ _ _
    rw [List.map_map, List.map_map]
    exact hfields
  | property hk hp h ih =>
    rw [Value.fold_property, Value.fold_property]
    exact means_bracketed ih " = " _

/-! ## All on one line -/

/-- A document that is a text at each level, and nothing but texts. -/
def IsText (d : Doc) (text : Nat → String) : Prop :=
  d.isPlain ∧ ∀ level, d.plainText = text level

theorem isText_constant (c : Value) :
    IsText (constant mark c) fun _ => Style.literal mark c :=
  ⟨isPlain_constant mark c, fun _ => plainText_constant mark c⟩

theorem isPlain_append {a b : Doc} : (a ++ b).isPlain ↔ a.isPlain ∧ b.isPlain :=
  Bool.and_eq_true_iff

theorem plainText_append (a b : Doc) : (a ++ b).plainText = a.plainText ++ b.plainText := rfl

theorem isPlain_foldl {g : Doc → Doc} {fields : List Doc} (h : ∀ d ∈ fields, (g d).isPlain)
    {init : Doc} (hinit : init.isPlain) :
    (fields.foldl (fun acc d => acc ++ g d) init).isPlain := by
  induction fields generalizing init with
  | nil => exact hinit
  | cons d rest ih =>
    exact ih (fun e he => h e (List.mem_cons_of_mem _ he))
      (isPlain_append.2 ⟨hinit, h d List.mem_cons_self⟩)

theorem plainText_foldl (g : Doc → Doc) (fields : List Doc) (init : Doc) :
    (fields.foldl (fun acc d => acc ++ g d) init).plainText =
      init.plainText ++ String.join (fields.map fun d => (g d).plainText) := by
  induction fields generalizing init with
  | nil => rw [List.foldl_nil, List.map_nil, String.join_nil, String.append_empty]
  | cons d rest ih =>
    rw [List.foldl_cons, ih, plainText_append, List.map_cons, String.join_cons,
      String.append_assoc]

/-- A table on one line is the text of its fields. -/
theorem isText_compactTable (mark : QuoteMark) {γ : Type} (items : List γ) (doc : γ → Doc)
    (text : γ → Nat → String)
    (h : ∀ x ∈ items, IsText (doc x) (text x)) :
    IsText (compactTable (items.map doc)) fun level =>
      (Style.compact mark).table level (items.map fun x => text x (level + 1)) := by
  constructor
  · refine isPlain_append.2 ⟨isPlain_append.2 ⟨rfl, isPlain_foldl (fun d hd => ?_) rfl⟩, rfl⟩
    obtain ⟨x, hx, rfl⟩ := List.mem_map.1 hd
    exact isPlain_append.2 ⟨(h x hx).1, rfl⟩
  · intro level
    show _ = Style.table _ _ _
    rw [compactTable, Style.table, List.isEmpty_map, plainText_append, plainText_append,
      plainText_foldl, List.map_map, List.map_map]
    have hfields : items.map ((fun d => (d ++ Doc.text ",").plainText) ∘ doc) =
        items.map ((fun f => (Style.compact mark).line (level + 1) ++ f ++ ",") ∘
          fun x => text x (level + 1)) := by
      refine List.map_congr_left fun x hx => ?_
      show (doc x ++ Doc.text ",").plainText = "" ++ text x (level + 1) ++ ","
      rw [plainText_append, (h x hx).2 (level + 1), String.empty_append]
      rfl
    rw [hfields]
    cases items with
    | nil => rfl
    | cons x rest =>
      show "\x7b" ++ ("" ++ String.join _) ++ "\x7d" =
        "\x7b" ++ String.join _ ++ "" ++ "\x7d"
      rw [String.empty_append, String.append_empty]

theorem isText_named {d : Doc} {text : Nat → String} (h : IsText d text) (assign : String)
    (k : Value) :
    IsText (named mark assign (k, d)) fun level => keyText mark k ++ assign ++ text level := by
  refine ⟨isPlain_append.2 ⟨isPlain_append.2 ⟨rfl, rfl⟩, h.1⟩, fun level => ?_⟩
  rw [named, plainText_append, plainText_append, h.2 level]
  rfl

theorem isText_bracketed {d : Doc} {text : Nat → String} (h : IsText d text) (assign : String)
    (k : Value) :
    IsText (bracketed mark assign k d) fun level =>
      "[" ++ Style.literal mark k ++ "]" ++ assign ++ text level := by
  refine ⟨?_, fun level => ?_⟩
  · simp only [bracketed, isPlain_append]
    exact ⟨⟨⟨⟨rfl, isPlain_constant mark k⟩, rfl⟩, rfl⟩, h.1⟩
  · rw [bracketed, plainText_append, plainText_append, plainText_append, plainText_append,
      h.2 level, plainText_constant]
    rfl

theorem isText_compact_sequence {mk : List Value → Value} (hm : IsSequence mk)
    {items : List Value}
    (ih : ∀ v ∈ items, IsText (v.fold (compact mark)) (v.fold (Style.compact mark).writer)) :
    IsText ((mk items).fold (compact mark)) ((mk items).fold (Style.compact mark).writer) := by
  have htable := isText_compactTable mark items _ _ ih
  rw [Value.fold_sequence _ hm, Value.fold_sequence _ hm]
  refine ⟨htable.1, fun level => (htable.2 level).trans ?_⟩
  show Style.table _ _ _ = Style.table _ _ _
  rw [List.map_map]
  rfl

/-- What the printer on one line makes of data. -/
theorem isText_compact (mark : QuoteMark) {v : Value} (hi : v.IsItem) :
    IsText (v.fold (compact mark)) (v.fold (Style.compact mark).writer) := by
  induction hi with
  | leaf hl =>
    rw [Value.fold_leaf _ hl, Value.fold_leaf _ hl]
    exact isText_constant _
  | list h ih => exact isText_compact_sequence .list ih
  | tuple h ih => exact isText_compact_sequence .tuple ih
  | @map entries hk hp h ih =>
    rw [Value.fold_map, Value.fold_map]
    have hfields := isText_compactTable mark entries
      (fun e => named mark "=" (e.1, e.2.fold (compact mark))) _
      (fun e he => isText_named (ih e he) "=" e.1)
    show IsText (compactTable ((entries.map _).map _)) fun level =>
      Style.table _ level ((entries.map _).map _)
    rw [List.map_map]
    simp only [List.map_map]
    exact hfields
  | property hk hp h ih =>
    rw [Value.fold_property, Value.fold_property]
    exact isText_bracketed ih "=" _

/-! ## Printers that cannot fail -/

theorem isPlain_compactTable {fields : List Doc} (h : ∀ d ∈ fields, d.isPlain) :
    (compactTable fields).isPlain :=
  isPlain_append.2 ⟨isPlain_append.2
    ⟨rfl, isPlain_foldl (fun d hd => isPlain_append.2 ⟨h d hd, rfl⟩) rfl⟩, rfl⟩

/-- Whatever the printer on one line makes is texts and nothing else. -/
theorem isPlain_of_made {d : Doc} (h : (compact mark).Made d) : d.isPlain := by
  induction h with
  | constant c => exact isPlain_constant mark c
  | sequence h ih => exact isPlain_compactTable ih
  | mapping h ih =>
    refine isPlain_compactTable fun d hd => ?_
    obtain ⟨e, he, rfl⟩ := List.mem_map.1 hd
    exact isPlain_append.2 ⟨isPlain_append.2 ⟨rfl, rfl⟩, ih e he⟩
  | property k h ih =>
    show (bracketed mark "=" k _).isPlain
    simp only [bracketed, isPlain_append]
    exact ⟨⟨⟨⟨rfl, isPlain_constant mark k⟩, rfl⟩, rfl⟩, ih⟩

theorem complete_compact (mark : QuoteMark) : (compact mark).Complete := by
  refine ⟨rfl, fun d hd => ?_⟩
  have hjoin : Doc.joinStack "return " [d] = _ :=
    Doc.joinStack_eq (List.forall_mem_singleton.2 (isPlain_of_made hd))
  simp only [compact, hjoin]
  exact ⟨_, rfl⟩

theorem complete_tall (mark : QuoteMark) (indent eol : String) :
    (tall mark indent eol).Complete :=
  ⟨rfl, fun _ _ => ⟨_, rfl⟩⟩

end Printer

theorem Format.complete_printer (f : Format) : f.printer.Complete := by
  unfold printer
  cases f.indent? with
  | none => exact Printer.complete_compact f.quotes
  | some indent => exact Printer.complete_tall f.quotes indent f.eol

/-- The printer of a format writes what the writer of its style does. -/
theorem Format.finish_printer (f : Format) {v : Value} (hi : v.IsItem) :
    f.printer.finish (v.fold f.printer) = .ok ("return " ++ v.fold f.style.writer 0) := by
  unfold printer style
  cases f.indent? with
  | none =>
    obtain ⟨hplain, htext⟩ := Printer.isText_compact f.quotes hi
    have hjoin : Doc.joinStack "return " [v.fold (Printer.compact f.quotes)] =
        some ("return " ++ v.fold (Style.compact f.quotes).writer 0) := by
      rw [Doc.joinStack_eq (List.forall_mem_singleton.2 hplain), List.map_singleton,
        String.join_cons, String.join_nil, String.append_empty, htext 0]
    simp only [Printer.compact] at hjoin ⊢
    rw [hjoin]
  | some indent =>
    have hmeans := Printer.means_tall f.quotes indent f.eol hi 0 .flat
    show Except.ok ((Doc.text "return " ++ v.fold (Printer.tall f.quotes indent f.eol)).layout
      indent f.eol) = _
    rw [Doc.layout_eq, Printer.render_append]
    exact congrArg (fun s => Except.ok ("return " ++ s)) hmeans

theorem Format.limit_printer (g : Format) : g.printer.limit = none := g.complete_printer.draws

/-- What is written for a document is what the printer of the format makes of it. -/
theorem Document.outcome_write {d : Document} {limit : Value} {source : FormatSource}
    {overrides : List (Value × Value)} {f g : Format}
    (hf : (Format.ofSource source).outcome = .ok f)
    (hg : (f.override overrides).outcome = .ok g) :
    (d.write source overrides limit).outcome = (d.walk g.printer limit).outcome := by
  rw [write, Run.outcome_bind, hf, ok_bind, Run.outcome_bind, hg, ok_bind]
  rfl

end LuaData
