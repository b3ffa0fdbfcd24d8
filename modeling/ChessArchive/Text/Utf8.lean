/-! Reading UTF-8 without failing: each longest run of bytes that could begin a character but does not go on as
    one, and each byte that can begin none, becomes one replacement character. -/

namespace ChessArchive
namespace Text

def replacement : Char := '\ufffd'

/-- What a first byte announces: the number of bytes to follow, the range of the first of them, and the bits
    that it contributes itself. -/
structure Lead where
  more : Nat
  low : UInt8
  high : UInt8
  bits : Nat

/-- Reads a first byte. The ranges leave out overlong forms, surrogates and code points above 10FFFF. -/
def lead? (b : UInt8) : Option Lead :=
  let n := b.toNat
  if n < 0x80 then some ⟨0, 0x80, 0xbf, n⟩
  else if n < 0xc2 then none
  else if n < 0xe0 then some ⟨1, 0x80, 0xbf, n - 0xc0⟩
  else if n = 0xe0 then some ⟨2, 0xa0, 0xbf, 0⟩
  else if n = 0xed then some ⟨2, 0x80, 0x9f, 0xd⟩
  else if n < 0xf0 then some ⟨2, 0x80, 0xbf, n - 0xe0⟩
  else if n = 0xf0 then some ⟨3, 0x90, 0xbf, 0⟩
  else if n < 0xf4 then some ⟨3, 0x80, 0xbf, n - 0xf0⟩
  else if n = 0xf4 then some ⟨3, 0x80, 0x8f, 4⟩
  else none

/-- Reads `more` bytes that continue a character, the first one from the given range. Gives the code point, if
    all are there, and the bytes left. -/
def readRest : (more : Nat) → (low high : UInt8) → (bits : Nat) → List UInt8 → Option Nat × List UInt8
  | 0, _, _, bits, s => (some bits, s)
  | _ + 1, _, _, _, [] => (none, [])
  | n + 1, low, high, bits, b :: s =>
    if low ≤ b ∧ b ≤ high then readRest n 0x80 0xbf (64 * bits + b.toNat % 64) s else (none, b :: s)

theorem length_readRest_le (n : Nat) (low high : UInt8) (bits : Nat) (s : List UInt8) :
    (readRest n low high bits s).2.length ≤ s.length := by
  induction n generalizing low high bits s with
  | zero => simp [readRest]
  | succ n ih =>
    cases s with
    | nil => simp [readRest]
    | cons b s =>
      simp only [readRest]
      split
      · exact Nat.le_succ_of_le (ih _ _ _ _)
      · exact Nat.le_refl _

/-- Reads bytes as UTF-8. -/
def decodeUtf8 (bytes : List UInt8) : List Char :=
  match bytes with
  | [] => []
  | b :: s =>
    match lead? b with
    | none => replacement :: decodeUtf8 s
    | some l =>
      let r := readRest l.more l.low l.high l.bits s
      (r.1.map Char.ofNat).getD replacement :: decodeUtf8 r.2
termination_by bytes.length
decreasing_by
  · simp
  · exact Nat.lt_succ_of_le (length_readRest_le ..)

end Text
end ChessArchive
