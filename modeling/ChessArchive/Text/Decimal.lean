/-! Decimal texts of numbers from 0 to 1: the shortest digits that read back as the same number. -/

namespace ChessArchive
namespace Text

/-- The value of a positive number that is not too large: a natural number over a power of two. -/
def binaryFraction (x : Float) : Nat × Nat :=
  let bits := x.toBits.toNat
  let hidden := Nat.pow 2 52
  let exponent := bits / hidden % Nat.pow 2 11
  if exponent = 0 then (bits % hidden, 1074)
  else ((bits % hidden + hidden) * Nat.pow 2 (exponent - 1075), 1075 - exponent)

/-- The nearest whole number to `n` over `e` powers of two; a half goes up. -/
def roundedQuotient (n e : Nat) : Nat := (2 * n + Nat.pow 2 e) / Nat.pow 2 (e + 1)

/-- The nearest number with `places` places, without its point. -/
def atPlaces (x : Float) (places : Nat) : Nat :=
  let (n, e) := binaryFraction x
  roundedQuotient (n * Nat.pow 10 places) e

/-- The least number of places, from `places` on, that are enough to read the number back. -/
def enoughPlaces (x : Float) : (fuel places : Nat) → Nat
  | 0, places => places
  | fuel + 1, places =>
    if Float.ofScientific (atPlaces x places) true places == x then places else enoughPlaces x fuel (places + 1)

/-- Writes a share. It has at least one place; below one in a hundred thousand it has an exponent. -/
def shareText (x : Float) : String :=
  let places := enoughPlaces x 330 1
  let digits := (toString (atPlaces x places)).toList
  if places < digits.length then
    String.ofList (digits.take (digits.length - places)) ++ "." ++ String.ofList (digits.drop (digits.length - places))
  else if places < digits.length + 5 then
    "0." ++ String.ofList (List.replicate (places - digits.length) '0' ++ digits)
  else
    let fraction := if digits.length = 1 then "" else "." ++ String.ofList (digits.drop 1)
    String.ofList (digits.take 1) ++ fraction ++ "e-" ++ toString (places + 1 - digits.length)

end Text
end ChessArchive
