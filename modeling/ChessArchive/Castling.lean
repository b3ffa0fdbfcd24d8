import ChessArchive.Placement

/-! Castling flags as a position text gives them: one per side and wing, written in the order KQkq and as a
    dash when there is none. -/

namespace ChessArchive

structure CastlingRights where
  whiteKing : Bool
  whiteQueen : Bool
  blackKing : Bool
  blackQueen : Bool
  deriving DecidableEq, Repr

namespace CastlingRights

def none : CastlingRights := ⟨false, false, false, false⟩

/-- The flags in written order. -/
def flags (r : CastlingRights) : List Bool := [r.whiteKing, r.whiteQueen, r.blackKing, r.blackQueen]

/-- Sets the flag that a letter names. -/
def grant (r : CastlingRights) : Char → Option CastlingRights
  | 'K' => some { r with whiteKing := true }
  | 'Q' => some { r with whiteQueen := true }
  | 'k' => some { r with blackKing := true }
  | 'q' => some { r with blackQueen := true }
  | _ => Option.none

/-- Reads a castling field: a dash, or any letters of KQkq in any order and number. -/
def parse (field : List Char) : Except FenError CastlingRights :=
  if field = ['-'] then .ok none
  else match field.foldlM grant none with
    | some r => .ok r
    | Option.none => .error (.invalidCastling (String.ofList field))

/-- The letters of the flags that are set. -/
def letters (r : CastlingRights) : List Char := ((r.flags.zip ['K', 'Q', 'k', 'q']).filter (·.1)).map (·.2)

/-- The castling field. -/
def text (r : CastlingRights) : String := if r.letters = [] then "-" else String.ofList r.letters

theorem parse_text (r : CastlingRights) : parse r.text.toList = .ok r := by
  rcases r with ⟨a, b, c, d⟩
  cases a <;> cases b <;> cases c <;> cases d <;> rfl

end CastlingRights
end ChessArchive
