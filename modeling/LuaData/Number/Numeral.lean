import LuaData.Number.Decimal

/-
  The text of a binary64 number: the fewest digits that read back, with a point where the
  exponent is between -4 and 15 and with an exponent of two digits or more elsewhere.
  `Double.read?` is the reader for such text.
-/

namespace LuaData

namespace Decimal

/-- The digits without the zeros at their end. -/
def significant (d : Decimal) : List Char :=
  ((Nat.toDigits 10 d.digits).reverse.dropWhile (· = '0')).reverse

/-- How many digits stand before the point. -/
def point (d : Decimal) : Int :=
  (Nat.toDigits 10 d.digits).length + d.exponent

end Decimal

/-- Digits with a point among them, and at least one digit on each side. -/
def positional (digits : List Char) (point : Int) : List Char :=
  if point ≤ 0 then
    ['0', '.'] ++ List.replicate (-point).toNat '0' ++ digits
  else if digits.length ≤ point.toNat then
    digits ++ List.replicate (point.toNat - digits.length) '0' ++ ['.', '0']
  else
    digits.take point.toNat ++ '.' :: digits.drop point.toNat

/-- One digit before the point, and the power of ten after the mark `e`. -/
def scientific (digits : List Char) (point : Int) : List Char :=
  let power := Nat.toDigits 10 (point - 1).natAbs
  let fraction := if digits.length ≤ 1 then [] else '.' :: digits.drop 1
  digits.take 1 ++ fraction ++ ['e', if point ≤ 0 then '-' else '+']
    ++ List.replicate (2 - power.length) '0' ++ power

/-- The text of a finite magnitude. -/
def magnitudeText (rank : Nat) : List Char :=
  if rank = 0 then ['0', '.', '0']
  else
    let d := Decimal.shortest rank
    if -4 < d.point ∧ d.point ≤ 16 then positional d.significant d.point
    else scientific d.significant d.point

def Double.text : Double → String
  | .finite false rank => String.ofList (magnitudeText rank)
  | .finite true rank => String.ofList ('-' :: magnitudeText rank)
  | .infinite false => "inf"
  | .infinite true => "-inf"
  | .nan => "nan"

/-- The number that decimal digits stand for. -/
def readDigits (digits : List Char) : Nat :=
  digits.foldl (fun n c => 10 * n + (c.toNat - '0'.toNat)) 0

/-- A power of ten: an optional sign and at least one digit. -/
def readPower? (cs : List Char) : Option Int :=
  let (negative, digits) := match cs with
    | '-' :: rest => (true, rest)
    | '+' :: rest => (false, rest)
    | rest => (false, rest)
  if digits.isEmpty || !digits.all Char.isDigit then none
  else some (if negative then -(readDigits digits : Int) else readDigits digits)

/-- The digits after a point, if there is one, and what follows. -/
def readFraction : List Char → List Char × List Char
  | '.' :: more => (more.takeWhile Char.isDigit, more.dropWhile Char.isDigit)
  | more => ([], more)

/-- The power of ten at the end of a numeral; without one it is zero. -/
def readExponent? : List Char → Option Int
  | [] => some 0
  | c :: more => if c = 'e' ∨ c = 'E' then readPower? more else none

/-- An unsigned numeral: digits with an optional point, then an optional power of ten. -/
def readMagnitude? (cs : List Char) : Option Decimal :=
  let whole := cs.takeWhile Char.isDigit
  let fraction := readFraction (cs.dropWhile Char.isDigit)
  if whole.isEmpty && fraction.1.isEmpty then none
  else (readExponent? fraction.2).map fun power =>
    ⟨readDigits (whole ++ fraction.1), power - fraction.1.length⟩

/-- Reads a number: an optional sign, then a numeral or the word for infinity or for no
number, in letters of either case. -/
def Double.read? (text : String) : Option Double :=
  let cs := (text.toList.dropWhile Char.isWhitespace).reverse.dropWhile Char.isWhitespace
  let (negative, body) := match cs.reverse with
    | '-' :: rest => (true, rest)
    | '+' :: rest => (false, rest)
    | rest => (false, rest)
  let word := String.ofList (body.map Char.toLower)
  if word = "nan" then some .nan
  else if word = "inf" ∨ word = "infinity" then some (.infinite negative)
  else (readMagnitude? body).map fun d => .ofRank negative d.rank

end LuaData
