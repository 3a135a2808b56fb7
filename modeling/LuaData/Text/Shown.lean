import LuaData.Text.Printable

/-
  Text as it is shown in messages: between quotes, with escapes for what cannot be seen.
-/

namespace LuaData

def hexDigits (width n : Nat) : List Char :=
  let digits := Nat.toDigits 16 n
  List.replicate (width - digits.length) '0' ++ digits

/-- One character between the quotes `mark`. -/
def shownChar (mark c : Char) : List Char :=
  if c = mark ∨ c = '\\' then ['\\', c]
  else if c = '\n' then ['\\', 'n']
  else if c = '\r' then ['\\', 'r']
  else if c = '\t' then ['\\', 't']
  else if isPrintable c then [c]
  else if c.toNat < 0x100 then '\\' :: 'x' :: hexDigits 2 c.toNat
  else if c.toNat < 0x10000 then '\\' :: 'u' :: hexDigits 4 c.toNat
  else '\\' :: 'U' :: hexDigits 8 c.toNat

/-- Text between single quotes, or between double ones if only single ones occur in it. -/
def shownText (s : String) : String :=
  let cs := s.toList
  let mark := if cs.contains '\'' && !cs.contains '"' then '"' else '\''
  String.ofList (mark :: cs.flatMap (shownChar mark) ++ [mark])

/-- Text of at most `width` characters: of longer text a dotted middle and both ends are left. -/
def abridged (width : Nat) (s : String) : String :=
  let cs := s.toList
  if cs.length ≤ width then s
  else
    let head := (width - 3) / 2
    let tail := width - 3 - head
    String.ofList (cs.take head ++ ['.', '.', '.'] ++ cs.drop (cs.length - tail))

end LuaData
