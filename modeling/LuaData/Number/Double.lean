/-
  Binary64 numbers as data. The finite magnitudes are ordered, so a finite number is its sign
  and the rank of its magnitude, counted from zero. `Double.units` is the magnitude as a whole
  number of the smallest steps, and `Double.nearestRank` rounds a quotient to the nearest rank.
-/

namespace LuaData

/-- A number of 64 bits. The rank of a finite magnitude is its bit pattern without the sign. -/
inductive Double where
  | finite (negative : Bool) (rank : Fin 0x7FF0000000000000)
  | infinite (negative : Bool)
  | nan
  deriving DecidableEq

namespace Double

/-- How many of the smallest steps, each of two to the power -1074, make up one. -/
def one : Nat := Nat.pow 2 1074

/-- The magnitude of a rank, counted in the smallest steps. -/
def units (rank : Nat) : Nat :=
  let scale := rank / Nat.pow 2 52 - 1
  (rank - scale * Nat.pow 2 52) * Nat.pow 2 scale

/-- The whole number nearest to a quotient; a tie goes to the even one. -/
def roundQuotient (num den : Nat) : Nat :=
  let low := num / den
  let rest := num % den
  if 2 * rest < den ∨ (2 * rest = den ∧ low % 2 = 0) then low else low + 1

/-- The rank nearest to `num / den` smallest steps; it may be past the last finite one. -/
def nearestRank (num den : Nat) : Nat :=
  let scale := (num / den).log2 - 52
  scale * Nat.pow 2 52 + roundQuotient num (den * Nat.pow 2 scale)

/-- The number of a rank; past the last finite magnitude lies infinity. -/
def ofRank (negative : Bool) (rank : Nat) : Double :=
  if h : rank < 0x7FF0000000000000 then .finite negative ⟨rank, h⟩ else .infinite negative

def ofInt (n : Int) : Double :=
  ofRank (n < 0) (nearestRank (n.natAbs * one) 1)

def negate : Double → Double
  | .finite negative rank => .finite (!negative) rank
  | .infinite negative => .infinite (!negative)
  | .nan => .nan

def isFinite : Double → Bool
  | .finite .. => true
  | _ => false

/-- The signed count of smallest steps of a finite number. -/
def steps? : Double → Option Int
  | .finite false rank => some (units rank)
  | .finite true rank => some (-(units rank : Int))
  | _ => none

theorem negate_negate (x : Double) : x.negate.negate = x := by
  cases x <;> simp [negate]

end Double

end LuaData
