import ChessArchive.Board.Attack
import ChessArchive.Board.Play

/-! Legal moves: the moves by which each piece can go somewhere, kept if they do not leave the mover's king
    attacked, and castling under its own conditions. -/

namespace ChessArchive
namespace Board

/-! ### Where the pieces can go -/

/-- The squares of a direction up to the first piece, and its square if the other side may be taken there. -/
def slide (b : Board) : List Square → List Square
  | [] => []
  | s :: rest =>
    match b.piece? s with
    | none => s :: slide b rest
    | some p => if p.color = b.side then [] else [s]

/-- The targets of a line piece. -/
def lineTargets (b : Board) (s : Square) (steps : List Step) : List Square :=
  steps.flatMap fun d => b.slide (s.ray d)

/-- The targets of a piece that moves by single steps. -/
def stepTargets (b : Board) (s : Square) (steps : List Step) : List Square :=
  (s.around steps).filter fun t => (b.piece? t).all fun p => p.color != b.side

/-- The squares that a pawn can advance to: one step, and two from its first rank. -/
def advances (b : Board) (s : Square) : List Square :=
  let free := (s.ray b.side.forward).takeWhile fun t => (b.piece? t).isNone
  free.take (if s.rank = b.side.pawnRank then 2 else 1)

/-- The squares that a pawn can capture on. -/
def pawnCaptures (b : Board) (s : Square) : List Square :=
  (s.around b.side.captures).filter fun t =>
    match b.piece? t with
    | some p => p.color != b.side
    | none => b.enPassantSquare? = some t

/-- The targets of a piece, castling apart. -/
def targets (b : Board) (s : Square) : Kind → List Square
  | .pawn => b.advances s ++ b.pawnCaptures s
  | .knight => b.stepTargets s Step.knightSteps
  | .bishop => b.lineTargets s Step.bishopSteps
  | .rook => b.lineTargets s Step.rookSteps
  | .queen => b.lineTargets s Step.kingSteps
  | .king => b.stepTargets s Step.kingSteps

/-- What a piece that arrives on a square can become. -/
def promotions (b : Board) (k : Kind) (t : Square) : List (Option Kind) :=
  if k = .pawn ∧ t.rank = b.side.flip.backRank then
    [some .knight, some .bishop, some .rook, some .queen]
  else [none]

/-- The moves of the piece on a square, castling apart. -/
def movesFrom (b : Board) (s : Square) : List Move :=
  match b.piece? s with
  | none => []
  | some p =>
    if p.color = b.side then
      (b.targets s p.kind).flatMap fun t => (b.promotions p.kind t).map (Move.mk s t)
    else []

/-! ### Which of them are legal -/

/-- A move leaves its own king safe: nothing attacks it, and a king that has moved is not beside the other
    king. -/
def isSafe (b : Board) (m : Move) : Bool :=
  let cells := b.cellsAfter m
  match cells.king? b.side with
  | none => true
  | some k => (cells.attackers b.side.flip k).isEmpty && (k != m.target || !cells.kingBeside b.side.flip k)

/-- A side's king could stand on a square: once it is off the board nothing attacks the square, and the other
    king is not beside it. -/
def couldStand (b : Board) (king s : Square) : Bool :=
  let cells := b.cells.put king none
  (cells.attackers b.side.flip s).isEmpty && !cells.kingBeside b.side.flip s

/-- Castling with the rook on the given file, when the king is not in check: king and rook have a free way, the
    king stands nowhere attacked after its first square, and the rook does not shield the king. -/
def canCastle (b : Board) (king : Square) (file kingFile rookFile : Fin 8) : Bool :=
  let rank := b.side.backRank
  let start := king.fileIndex
  let rook := Square.ofFileRank file rank
  let way := .ofFileRank kingFile rank :: Square.span rank start kingFile
  let free (s : Square) : Bool := s = king || s = rook || (b.piece? s).isNone
  (.ofFileRank rookFile rank :: way ++ Square.span rank start file).all free
    && way.all (b.couldStand king)
    && ((b.cells.put rook none).attackers b.side.flip king).isEmpty

/-- The castling moves. -/
def castlings (b : Board) : List Move :=
  match b.cells.king? b.side with
  | none => []
  | some king =>
    if (b.checkers b.side).isEmpty then
      let wing (file : Option (Fin 8)) (after : Fin 8 × Fin 8) : List Move :=
        (file.filter fun f => b.canCastle king f after.1 after.2).toList.map fun f =>
          ⟨king, .ofFileRank f b.side.backRank, none⟩
      wing (b.rooks b.side).short Rooks.shortFiles ++ wing (b.rooks b.side).long Rooks.longFiles
    else []

/-- All legal moves, by source square, castling last. -/
def legalMoves (b : Board) : List Move :=
  ((List.finRange 64).flatMap b.movesFrom).filter b.isSafe ++ b.castlings

end Board
end ChessArchive
