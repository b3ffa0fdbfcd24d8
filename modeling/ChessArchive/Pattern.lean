import ChessArchive.Piece.Set
import ChessArchive.Placement

/-! Board patterns: requirements that certain squares hold a piece of a given set. A square without a
    requirement may hold anything or nothing, and a pattern without any requirement matches no board. -/

namespace ChessArchive

/-- A square and the pieces it may hold. -/
structure Constraint where
  square : Square
  allowed : PieceSet
  deriving DecidableEq

/-- A compiled pattern: its constraints in written order. -/
structure Pattern where
  constraints : List Constraint
  deriving DecidableEq

namespace Pattern

def isEmpty (p : Pattern) : Bool := p.constraints.isEmpty

/-- The pieces a square may hold, if the pattern says anything about it. -/
def rule? (p : Pattern) (s : Square) : Option PieceSet :=
  (p.constraints.reverse.find? (·.square == s)).map (·.allowed)

/-- The pattern holds of a board given by its occupied squares. -/
def matchesBoard (p : Pattern) (occupied : Occupied) : Bool :=
  !p.isEmpty && p.constraints.all fun c => (Placement.pieceOn occupied c.square).any c.allowed.contains

end Pattern
end ChessArchive
