import ChessArchive.Castling

/-! The part of a position text that identifies a position: placement, side to move and castling flags. Clocks
    and the en passant square are not part of it. -/

namespace ChessArchive

structure Fen where
  /-- The placement field as written. -/
  placement : String
  side : Color
  castling : CastlingRights
  deriving DecidableEq, Repr

namespace Fen

/-- The standard start. -/
def start : String := "rnbqkbnr/pppppppp/8/8/8/8/PPPPPPPP/RNBQKBNR w KQkq - 0 1"

/-- Reads the side field; a missing one means white. -/
def parseSide : Option (List Char) → Except FenError Color
  | none => .ok .white
  | some ['w'] => .ok .white
  | some ['b'] => .ok .black
  | some other => .error (.invalidSide (String.ofList other))

/-- Reads the castling field; a missing one means no right. -/
def parseCastling : Option (List Char) → Except FenError CastlingRights
  | none => .ok .none
  | some field => CastlingRights.parse field

/-- Reads the identity of a position. The placement is checked first, then the side, then castling. -/
def parse (text : String) : Except FenError Fen :=
  match Text.fields text.toList with
  | [] => .error .empty
  | placement :: rest => do
    let _ ← Placement.decodeField placement
    let side ← parseSide rest.head?
    let castling ← parseCastling rest.tail.head?
    return ⟨String.ofList placement, side, castling⟩

end Fen
end ChessArchive
