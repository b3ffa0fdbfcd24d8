import ChessArchive.Board.Text
import ChessArchive.Notation.San
import ChessArchive.Notation.Uci

/-! Replaying a game: the boards that a list of move texts reaches from a start. A text is read as algebraic
    notation first and as coordinates otherwise; the first one that is neither ends the replay. Kings that stand
    side by side may take each other; a game can end with that, but it cannot go on. -/

namespace ChessArchive

inductive ReplayError where
  | invalidStart (fen : String)
  | illegalMove (ply : Nat) (text : String) (cause : SanError)
  /-- The side that is to move has lost its king. -/
  | kingMissing (ply : Nat)
  deriving DecidableEq, Repr

def ReplayError.message : ReplayError → String
  | invalidStart fen => s!"Invalid start position {fen}: Invalid FEN format"
  | illegalMove ply text cause => s!"Cannot play move {ply} ({text}): {cause.message}"
  | kingMissing ply => s!"There is no king at move {ply}"

/-- A board that a replay reaches, with the text of the move that led to it. -/
structure Ply where
  number : Nat
  san : Option String
  board : Board

namespace Replay

/-- The move that a text means. -/
def readMove (b : Board) (text : String) : Except SanError Move :=
  match San.parse b text with
  | .ok m => .ok m
  | .error cause =>
    match Uci.parse b text with
    | some m => .ok m
    | none => .error cause

/-- Plays move texts on, `n` having been played. Without a king there are no legal moves that a text could be
    compared with; a text that holds nothing is refused before that. -/
def playAll : Nat → Board → List String → Except ReplayError (List Ply)
  | _, _, [] => .ok []
  | n, b, text :: rest =>
    if b.lacksKing && San.core text != [] then .error (.kingMissing (n + 1))
    else match readMove b text with
      | .error cause => .error (.illegalMove (n + 1) text cause)
      | .ok m => (playAll (n + 1) (b.play m) rest).map (⟨n + 1, some text, b.play m⟩ :: ·)

/-- The board that a game starts from. -/
def startBoard : Option String → Except ReplayError Board
  | none => .ok .start
  | some fen =>
    match Board.ofText? fen with
    | some b => .ok b
    | none => .error (.invalidStart fen)

/-- All boards of a game, the start being number 0. -/
def run (start : Option String) (moves : List String) : Except ReplayError (List Ply) := do
  let b ← startBoard start
  return ⟨0, none, b⟩ :: (← playAll 0 b moves)

end Replay
end ChessArchive
