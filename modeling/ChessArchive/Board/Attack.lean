import ChessArchive.Board

/-! Attacks. A piece attacks the squares it could capture on; a line piece attacks up to the first piece in its
    way. Kings are left out here: two kings may stand side by side, and that is no check. -/

namespace ChessArchive
namespace Cells

/-- The first piece in one direction. -/
def firstOn (cells : Cells) (s : Square) (d : Step) : Option (Square × Piece) :=
  (s.ray d).findSome? fun t => (cells.piece? t).map (t, ·)

/-- Where a line piece of the given kinds attacks a square from. -/
def lineAttackers (cells : Cells) (side : Color) (kinds : List Kind) (steps : List Step) (s : Square) : List Square :=
  steps.filterMap fun d =>
    (cells.firstOn s d).bind fun (t, p) => if p.color = side ∧ p.kind ∈ kinds then some t else none

/-- Where a piece that moves by single steps attacks a square from; `steps` lead from the square to the piece. -/
def stepAttackers (cells : Cells) (p : Piece) (steps : List Step) (s : Square) : List Square :=
  (s.around steps).filter fun t => cells.piece? t = some p

/-- The squares from which a side attacks a square, with anything but its king. -/
def attackers (cells : Cells) (side : Color) (s : Square) : List Square :=
  cells.lineAttackers side [.rook, .queen] Step.rookSteps s
    ++ cells.lineAttackers side [.bishop, .queen] Step.bishopSteps s
    ++ cells.stepAttackers ⟨side, .knight⟩ Step.knightSteps s
    ++ cells.stepAttackers ⟨side, .pawn⟩ side.flip.captures s

/-- The king of a side stands next to a square. -/
def kingBeside (cells : Cells) (c : Color) (s : Square) : Bool :=
  !(cells.stepAttackers ⟨c, .king⟩ Step.kingSteps s).isEmpty

end Cells

namespace Board

/-- The pieces that give check to a side. -/
def checkers (b : Board) (c : Color) : List Square :=
  match b.cells.king? c with
  | none => []
  | some k => b.cells.attackers c.flip k

end Board
end ChessArchive
