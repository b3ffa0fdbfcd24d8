/-! Reading integers: decimal digits, any number of leading zeros, and an optional sign. A plus sign is allowed
    before every integer, a minus sign only where negative values are. -/

namespace ChessArchive
namespace Text

/-- Reads a non-empty run of decimal digits. -/
def digitsValue? (s : List Char) : Option Nat :=
  if s ≠ [] ∧ s.all Char.isDigit then some (s.foldl (fun n c => 10 * n + (c.toNat - '0'.toNat)) 0) else none

/-- Reads an integer from 0 to `max`. -/
def natUpTo? (max : Nat) (s : List Char) : Option Nat :=
  (match s with
    | '+' :: r => digitsValue? r
    | r => digitsValue? r).filter (· ≤ max)

/-- Reads an integer from `-bound` to `bound - 1`. -/
def intWithin? (bound : Nat) (s : List Char) : Option Int :=
  match s with
  | '-' :: r => ((digitsValue? r).filter (· ≤ bound)).map fun n => -(n : Int)
  | r => ((natUpTo? (bound - 1) r).map Int.ofNat)

/-- The bound of signed integers of 64 bits. -/
def int64Bound : Nat := 9223372036854775808

/-- The largest unsigned integer of 64 bits. -/
def uint64Max : Nat := 18446744073709551615

/-- The largest unsigned integer of 32 bits. -/
def uint32Max : Nat := 4294967295

end Text
end ChessArchive
