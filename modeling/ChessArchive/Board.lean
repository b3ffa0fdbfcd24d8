import ChessArchive.Fen
import ChessArchive.Square.Step

/-! The full state of a game between two moves. Beside the cells and the side to move a board knows which rooks
    may still castle (by file, so that rooks need not stand in the corners), the file of a pawn that has just
    made a double step, and the two clocks. -/

namespace ChessArchive

/-- The files of the rooks that a side may still castle with: `short` to the right of the king, `long` to the
    left. -/
structure Rooks where
  short : Option (Fin 8)
  long : Option (Fin 8)
  deriving DecidableEq, Repr

namespace Rooks

def none : Rooks := ⟨Option.none, Option.none⟩

/-- Castling with the rook on this file is lost. -/
def drop (r : Rooks) (file : Nat) : Rooks :=
  ⟨r.short.filter fun f => f.val != file, r.long.filter fun f => f.val != file⟩

/-- The files of the rooks at the standard start. -/
def corners : Rooks := ⟨some 7, some 0⟩

/-- The files where king and rook end up after castling with the short rook. -/
def shortFiles : Fin 8 × Fin 8 := (6, 5)

/-- The files where king and rook end up after castling with the long rook. -/
def longFiles : Fin 8 × Fin 8 := (2, 3)

end Rooks

namespace Color

/-- The rank on which a side sets up its pieces. -/
def backRank : Color → Fin 8
  | white => 0
  | black => 7

/-- The rank on which a side's pawns start. -/
def pawnRank : Color → Fin 8
  | white => 1
  | black => 6

/-- The rank behind a pawn of the side that has just made a double step. -/
def skippedRank : Color → Fin 8
  | white => 2
  | black => 5

/-- The rank on which a double step ends. -/
def doubleRank : Color → Fin 8
  | white => 3
  | black => 4

/-- The step of a pawn. -/
def forward : Color → Step
  | white => ⟨0, 1⟩
  | black => ⟨0, -1⟩

/-- The steps with which a pawn captures. -/
def captures : Color → List Step
  | white => [⟨-1, 1⟩, ⟨1, 1⟩]
  | black => [⟨-1, -1⟩, ⟨1, -1⟩]

end Color

abbrev Cells := Vector (Option Piece) 64

namespace Cells

/-- What stands on a square. -/
def piece? (cells : Cells) (s : Square) : Option Piece := cells[s.val]

/-- Puts a piece on a square, or clears it. -/
def put (cells : Cells) (s : Square) (p : Option Piece) : Cells := cells.set s p

@[simp] theorem piece?_put (cells : Cells) (s t : Square) (p : Option Piece) :
    (cells.put s p).piece? t = if s = t then p else cells.piece? t := by
  simp only [put, piece?, Vector.getElem_set, Fin.ext_iff]

/-- The square of a side's king. -/
def king? (cells : Cells) (c : Color) : Option Square :=
  (List.finRange 64).find? fun s => cells.piece? s = some ⟨c, .king⟩

end Cells

structure Board where
  cells : Cells
  side : Color
  whiteRooks : Rooks
  blackRooks : Rooks
  /-- The file of a pawn that has just made a double step. -/
  enPassant : Option (Fin 8)
  /-- Moves since the last capture or pawn move, at most 100. -/
  halfmoves : Nat
  /-- The number of the move, at most 65535. -/
  fullmoves : Nat
  deriving DecidableEq

namespace Board

def piece? (b : Board) (s : Square) : Option Piece := b.cells.piece? s

def rooks (b : Board) : Color → Rooks
  | .white => b.whiteRooks
  | .black => b.blackRooks

/-- The square that a capture en passant goes to. -/
def enPassantSquare? (b : Board) : Option Square :=
  b.enPassant.map fun f => .ofFileRank f b.side.flip.skippedRank

/-- The occupied squares, in the order of a placement text. -/
def occupied (b : Board) : Occupied :=
  (List.finRange 8).flatMap fun row =>
    (List.finRange 8).filterMap fun file => (b.piece? (.ofFileRank file row.rev)).map (.ofFileRank file row.rev, ·)

/-- The castling flags. -/
def castling (b : Board) : CastlingRights :=
  ⟨b.whiteRooks.short.isSome, b.whiteRooks.long.isSome, b.blackRooks.short.isSome, b.blackRooks.long.isSome⟩

end Board
end ChessArchive
