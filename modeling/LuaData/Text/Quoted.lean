import LuaData.Text.Name

/-
  Lua string literals and table keys. A literal escapes nothing but its own quote mark; a key is
  written bare when it has the shape of a name, and as a bracketed literal otherwise.
-/

namespace LuaData

/-- The marks a literal can stand between. -/
inductive QuoteMark where
  | single
  | double
  deriving DecidableEq

def QuoteMark.char : QuoteMark → Char
  | .single => '\''
  | .double => '"'

/-- The body of a literal: a backslash goes before each quote mark. -/
def quotedBody (mark : Char) (cs : List Char) : List Char :=
  cs.flatMap fun c => if c = mark then ['\\', c] else [c]

def quotedChars (mark : Char) (cs : List Char) : List Char :=
  mark :: quotedBody mark cs ++ [mark]

/-- Text as a Lua string literal. -/
def quote (mark : QuoteMark) (s : String) : String :=
  String.ofList (quotedChars mark.char s.toList)

/-- A key as a table constructor writes it. -/
def writtenKey (mark : QuoteMark) (key : String) : String :=
  if isName key then key else "[" ++ quote mark key ++ "]"

/-! ## Small lemmas -/

@[simp] theorem quotedBody_cons (mark c : Char) (cs : List Char) :
    quotedBody mark (c :: cs) =
      (if c = mark then ['\\', c] else [c]) ++ quotedBody mark cs := rfl

theorem quotedBody_append (mark : Char) (cs ds : List Char) :
    quotedBody mark (cs ++ ds) = quotedBody mark cs ++ quotedBody mark ds := by
  simp [quotedBody]

theorem toList_quote (mark : QuoteMark) (s : String) :
    (quote mark s).toList = quotedChars mark.char s.toList := by
  simp [quote]

end LuaData
