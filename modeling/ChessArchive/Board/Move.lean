import ChessArchive.Piece
import ChessArchive.Square

/-! Moves and their coordinate text: the names of the two squares, and the small letter of the piece a pawn
    becomes. Castling is the king taking its own rook. -/

namespace ChessArchive

structure Move where
  source : Square
  target : Square
  promotion : Option Kind
  deriving DecidableEq, Repr

namespace Move

/-- The coordinate text of a move. -/
def text (m : Move) : List Char := m.source.name ++ m.target.name ++ (m.promotion.map Kind.lower).toList

/-- Reads the promotion of a coordinate text from what follows the squares. Only the first character counts, one
    outside ASCII counts as nothing, and the letters of king and pawn name no promotion. -/
def promotionOf? : List Char → Option (Option Kind)
  | [] => some none
  | c :: _ =>
    if 0x80 ≤ c.toNat then some none
    else (Kind.ofLower? c).map fun k => if k = .king ∨ k = .pawn then none else some k

/-- Reads a coordinate text. What follows the promotion is ignored. -/
def ofText? : List Char → Option Move
  | a :: b :: c :: d :: rest => do
    return ⟨← Square.ofName? [a, b], ← Square.ofName? [c, d], ← promotionOf? rest⟩
  | _ => none

end Move
end ChessArchive
