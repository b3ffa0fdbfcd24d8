import ChessArchive.Board.Legal

/-! Coordinate notation, read against the legal moves of a board. A king's move from the e-file of a back rank to
    the g- or c-file may mean castling with the corner rook. -/

namespace ChessArchive
namespace Uci

/-- The castling move that a move of two files from the e-file may stand for. -/
def castlingFor? (m : Move) : Option Move :=
  let rank := m.source.rankIndex
  if [Color.white, .black].any (·.backRank = rank) ∧ m.source.file = 4 ∧ m.promotion = none then
    if m.target.file = Rooks.shortFiles.1 then Rooks.corners.short.map fun f => ⟨m.source, .ofFileRank f rank, none⟩
    else if m.target.file = Rooks.longFiles.1 then Rooks.corners.long.map fun f => ⟨m.source, .ofFileRank f rank, none⟩
    else none
  else none

/-- Takes a move for castling if it can stand for a castling move that is legal. -/
def resolve (legal : List Move) (m : Move) : Move :=
  match castlingFor? m with
  | some castling => if castling ∈ legal then castling else m
  | none => m

/-- The legal move that a text means. -/
def parse (b : Board) (text : String) : Option Move :=
  (Move.ofText? text.toList).bind fun m =>
    let legal := b.legalMoves
    let m := resolve legal m
    if m ∈ legal then some m else none

/-- The text of a move. -/
def format (m : Move) : String := String.ofList m.text

end Uci
end ChessArchive
