import LuaData.Printer
import LuaData.Walk.Document

/-
  How a chunk is laid out, and where that is said: in a map of option names to values. A value
  of the wrong kind is passed over with a note and the default stands in for it.
-/

namespace LuaData

/-- The unit of indentation: none at all, a number of spaces, or a text. -/
inductive Spaces where
  | none
  | count (n : Nat)
  | unit (s : String)
  deriving DecidableEq

structure Format where
  eol : String
  quotes : QuoteMark
  spaces : Spaces
  deriving DecidableEq

/-- The values that are given for the options; an option may be left out. -/
structure Settings where
  eol : Option Value
  singleQuote : Option Value
  spaces : Option Value

/-- Where a format is taken from: a value, or a format that is there already. -/
inductive FormatSource where
  | value (v : Value)
  | format (f : Format)

namespace Spaces

def toValue : Spaces → Value
  | .none => .nil
  | .count n => .int n
  | .unit s => .text s

/-- The text of one level, if there is to be any. -/
def indent? : Spaces → Option String
  | .none => Option.none
  | .count n => if n = 0 then Option.none else some (String.ofList (List.replicate n ' '))
  | .unit s => if s = "" then Option.none else some s

end Spaces

namespace Settings

def empty : Settings := ⟨none, none, none⟩

/-- Puts a value under the name of an option, or under the other spelling of one. -/
def set? (s : Settings) (name : String) (v : Value) : Option Settings :=
  match name with
  | "eol" => some { s with eol := some v }
  | "single_quote" => some { s with singleQuote := some v }
  | "singleQuote" => some { s with singleQuote := some v }
  | "spaces" => some { s with spaces := some v }
  | _ => none

/-- Takes the entries in order; the first unknown name is refused. -/
def addAll (s : Settings) : List (Value × Value) → Except Failure Settings
  | [] => .ok s
  | (k, v) :: rest =>
    match k.text?.bind fun name => s.set? name v with
    | some t => t.addAll rest
    | none => .error (.unknownOption k.shown)

def ofEntries (entries : List (Value × Value)) : Except Failure Settings :=
  empty.addAll entries

end Settings

namespace Format

def defaultEol : String := "\n"

def defaultSpaces : Spaces := .count 2

def default : Format := ⟨defaultEol, .single, defaultSpaces⟩

def readEol : Option Value → Run Note String
  | none => return defaultEol
  | some v =>
    match v.text? with
    | some s => return s
    | none => do
      .step (.ignoredOption "eol" v.shown)
      return defaultEol

def readQuotes : Option Value → Run Note QuoteMark
  | none => return .single
  | some (.bool b) => return if b then .single else .double
  | some v => do
    .step (.ignoredOption "single_quote" v.shown)
    return .single

def readSpaces : Option Value → Run Note Spaces
  | none => return defaultSpaces
  | some v =>
    match v.base with
    | .bool b => return if b then defaultSpaces else .none
    | .number (.int n) => if n < 0 then .fail (.negativeSpaces n) else return .count n.toNat
    | .text s => return .unit s
    | .nil => return .none
    | _ => do
      .step (.ignoredOption "spaces" v.shown)
      return defaultSpaces

def ofSettings (s : Settings) : Run Note Format := do
  let eol ← readEol s.eol
  let quotes ← readQuotes s.singleQuote
  let spaces ← readSpaces s.spaces
  return ⟨eol, quotes, spaces⟩

def ofEntries (entries : List (Value × Value)) : Run Note Format := do
  let s ← .ofExcept (Settings.ofEntries entries)
  ofSettings s

/-- The format that a source stands for; nil stands for the default. -/
def ofSource : FormatSource → Run Note Format
  | .format f => return f
  | .value v =>
    match v.base with
    | .nil => ofSettings .empty
    | .map entries => ofEntries entries
    | _ => .fail .notOptions

/-- The format as entries under the names of its options. -/
def entries (f : Format) : List (Value × Value) :=
  [(.text "eol", .text f.eol),
   (.text "single_quote", .bool (f.quotes = .single)),
   (.text "spaces", f.spaces.toValue)]

/-- The format with some options given anew. -/
def override (f : Format) (overrides : List (Value × Value)) : Run Note Format :=
  if overrides.isEmpty then return f else ofEntries (mergeEntries (f.entries ++ overrides))

def indent? (f : Format) : Option String := f.spaces.indent?

/-- The shown form of a format. -/
def shown (f : Format) : String :=
  "FormatOptions(eol=" ++ shownText f.eol
    ++ ", single_quote=" ++ (Value.bool (f.quotes = .single)).shown
    ++ ", spaces=" ++ f.spaces.toValue.shown ++ ")"

/-- The printer of a format: on one line if there is nothing to indent with. -/
def printer (f : Format) : Builder Doc String :=
  match f.indent? with
  | none => Printer.compact f.quotes
  | some indent => Printer.tall f.quotes indent f.eol

end Format

/-- Writes a document as a chunk that returns it. -/
def Document.write (d : Document) (source : FormatSource) (overrides : List (Value × Value))
    (limit : Value) : Run Note String := do
  let f ← Format.ofSource source
  let g ← f.override overrides
  .ofExcept (d.walk g.printer limit).outcome

end LuaData
