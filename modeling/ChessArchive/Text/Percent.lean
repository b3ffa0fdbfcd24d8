import ChessArchive.Text.Utf8

/-! Percent codes: a percent sign with two hexadecimal digits behind it stands for a byte. A percent sign without
    them stands for itself. -/

namespace ChessArchive
namespace Text

/-- The value of a hexadecimal digit. -/
def hexValue? (c : Char) : Option Nat :=
  if c.isDigit then some (c.toNat - '0'.toNat)
  else if 'a' ≤ c ∧ c ≤ 'f' then some (c.toNat - 'a'.toNat + 10)
  else if 'A' ≤ c ∧ c ≤ 'F' then some (c.toNat - 'A'.toNat + 10)
  else none

/-- The bytes of a character. -/
def charBytes (c : Char) : List UInt8 := (String.singleton c).toUTF8.toList

/-- The bytes that a text with percent codes stands for. -/
def percentBytes : List Char → List UInt8
  | '%' :: h :: l :: s =>
    match hexValue? h, hexValue? l with
    | some a, some b => (16 * a + b).toUInt8 :: percentBytes s
    | _, _ => charBytes '%' ++ percentBytes (h :: l :: s)
  | c :: s => charBytes c ++ percentBytes s
  | [] => []

/-- The text that a text with percent codes stands for; none if the bytes are not UTF-8. -/
def percentText? (s : List Char) : Option (List Char) :=
  (String.fromUTF8? ⟨(percentBytes s).toArray⟩).map (·.toList)

/-- The text that a text with percent codes stands for, with replacement characters for what is not UTF-8. -/
def percentText (s : List Char) : List Char := decodeUtf8 (percentBytes s)

end Text
end ChessArchive
