import ChessArchive.Board
import ChessArchive.Board.Move

/-! Playing a move: what it does to the cells, to the castling rooks, to the en passant file and to the clocks.
    Nothing here asks whether the move is legal. -/

namespace ChessArchive
namespace Board

/-- The king takes its own rook. -/
def isCastling (b : Board) (m : Move) : Bool :=
  (b.piece? m.target).any fun p => p.color = b.side

/-- A pawn takes the pawn that has just passed its target square. -/
def isEnPassant (b : Board) (m : Move) : Bool :=
  (b.piece? m.source).any (·.kind = .pawn) && b.enPassantSquare? = some m.target && m.source.file != m.target.file

/-- The files where king and rook end up when castling with the rook on this file. -/
def castlingFiles (b : Board) (file : Nat) : Fin 8 × Fin 8 :=
  if (b.rooks b.side).short.any (·.val = file) then Rooks.shortFiles else Rooks.longFiles

/-- The cells after castling with the rook on the target square. -/
def castled (b : Board) (m : Move) : Cells :=
  let (kingFile, rookFile) := b.castlingFiles m.target.file
  let rank := b.side.backRank
  (((b.cells.put m.source none).put m.target none).put
    (.ofFileRank kingFile rank) (some ⟨b.side, .king⟩)).put
    (.ofFileRank rookFile rank) (some ⟨b.side, .rook⟩)

/-- The cells after a move that is not castling. -/
def moved (b : Board) (m : Move) : Cells :=
  let arriving := (b.piece? m.source).map fun p => { p with kind := m.promotion.getD p.kind }
  let cells := (b.cells.put m.source none).put m.target arriving
  if b.isEnPassant m then
    match m.target.step? b.side.flip.forward with
    | some s => cells.put s none
    | none => cells
  else cells

/-- The cells after a move. -/
def cellsAfter (b : Board) (m : Move) : Cells := if b.isCastling m then b.castled m else b.moved m

/-- The castling rooks of the moving side after a move: none once its king moves, and not one that leaves. -/
def ownRooksAfter (b : Board) (m : Move) : Rooks :=
  let own := b.rooks b.side
  match (b.piece? m.source).map Piece.kind with
  | some .king => .none
  | some .rook => if m.source.rank = b.side.backRank then own.drop m.source.file else own
  | _ => own

/-- The castling rooks of the other side after a move: not one that is captured. -/
def otherRooksAfter (b : Board) (m : Move) : Rooks :=
  let other := b.rooks b.side.flip
  if !b.isCastling m && (b.piece? m.target).isSome && m.target.rank == b.side.flip.backRank then
    other.drop m.target.file
  else other

/-- The file of a pawn that makes a double step. -/
def enPassantAfter (b : Board) (m : Move) : Option (Fin 8) :=
  if (b.piece? m.source).any (·.kind = .pawn) && m.source.rank == b.side.pawnRank
      && m.target.rank == b.side.doubleRank then
    some ⟨m.target.file, Nat.mod_lt _ (by decide)⟩
  else none

/-- A pawn moves or a piece is taken. -/
def isIrreversible (b : Board) (m : Move) : Bool :=
  (b.piece? m.source).any (·.kind = .pawn) || ((b.piece? m.target).isSome && !b.isCastling m)

/-- The board after a move. -/
def play (b : Board) (m : Move) : Board where
  cells := b.cellsAfter m
  side := b.side.flip
  whiteRooks := match b.side with
    | .white => b.ownRooksAfter m
    | .black => b.otherRooksAfter m
  blackRooks := match b.side with
    | .white => b.otherRooksAfter m
    | .black => b.ownRooksAfter m
  enPassant := b.enPassantAfter m
  halfmoves := if b.isIrreversible m then 0 else min (b.halfmoves + 1) 100
  fullmoves := match b.side with
    | .white => b.fullmoves
    | .black => min (b.fullmoves + 1) 65535

/-- The king of the side to move has been taken. -/
def lacksKing (b : Board) : Bool := (b.cells.king? b.side).isNone

end Board
end ChessArchive
