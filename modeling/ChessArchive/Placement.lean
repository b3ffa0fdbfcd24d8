import ChessArchive.Piece
import ChessArchive.Square
import ChessArchive.Text.Blank

/-! Placement texts: eight ranks from the eighth down, separated by slashes, each a run of piece letters and
    skip digits. `decode` lists the occupied squares in written order, `encode` writes the one canonical text
    of a board. -/

namespace ChessArchive

/-- Why a position text is refused. Ranks are numbered from 1 in written order. -/
inductive FenError where
  | empty
  | rankCount (found : Nat)
  | rankOverflow (rank : Nat)
  | rankUnderflow (rank : Nat)
  | invalidSkip (rank : Nat) (digit : Char)
  | invalidPiece (symbol : Char)
  | invalidSide (field : String)
  | invalidCastling (field : String)
  deriving DecidableEq, Repr

def FenError.message : FenError → String
  | empty => "Empty board encoding"
  | rankCount n => s!"Expected 8 ranks, found {n}"
  | rankOverflow r => s!"Rank {r} spans more than 8 files"
  | rankUnderflow r => s!"Rank {r} spans fewer than 8 files"
  | invalidSkip r d => s!"Invalid skip digit '{d}' in rank {r}"
  | invalidPiece c => s!"Invalid piece character: {c}"
  | invalidSide f => s!"Invalid side to move: {f}"
  | invalidCastling f => s!"Invalid castling field: {f}"

/-- Occupied squares with what stands on them. -/
abbrev Occupied := List (Square × Piece)

namespace Placement

/-! ### Reading -/

/-- The value of a decimal digit. -/
def digit? (c : Char) : Option Nat := if c.isDigit then some (c.toNat - '0'.toNat) else none

/-- Reads the rest of a rank from file `file` on. `row` counts the ranks from the eighth down, from 0. -/
def decodeRank (row : Fin 8) : Nat → List Char → Except FenError Occupied
  | file, [] => if file = 8 then .ok [] else .error (.rankUnderflow (row + 1))
  | file, c :: cs =>
    match digit? c with
    | some n =>
      if n = 0 ∨ 8 < n then .error (.invalidSkip (row + 1) c)
      else if 8 < file + n then .error (.rankOverflow (row + 1))
      else decodeRank row (file + n) cs
    | none =>
      match Piece.ofSymbol? c with
      | none => .error (.invalidPiece c)
      | some p =>
        if h : file < 8 then do
          return (.ofFileRank ⟨file, h⟩ row.rev, p) :: (← decodeRank row (file + 1) cs)
        else .error (.rankOverflow (row + 1))

/-- Reads a placement field. -/
def decodeField (field : List Char) : Except FenError Occupied := do
  let ranks := field.splitOn '/'
  if ranks.length = 8 then
    let rows ← ((List.finRange 8).zip ranks).mapM fun (row, cells) => decodeRank row 0 cells
    return rows.flatten
  else .error (.rankCount ranks.length)

/-- Reads the first field of a text as a placement; what follows it is ignored. -/
def decodeText (s : List Char) : Except FenError Occupied :=
  match Text.firstField? s with
  | none => .error .empty
  | some field => decodeField field

/-- Reads the placement of a board text. -/
def decode (s : String) : Except FenError Occupied := decodeText s.toList

/-! ### Writing -/

/-- What a list of occupied squares puts on a square: its last entry counts. -/
def pieceOn (occupied : Occupied) (s : Square) : Option Piece :=
  occupied.foldl (fun found e => if e.1 = s then some e.2 else found) none

/-- The digit for a run of `n` empty squares, nothing for an empty run. -/
def skipText (n : Nat) : List Char := if n = 0 then [] else [Nat.digitChar n]

/-- Writes the cells of a rank after `n` empty ones. -/
def encodeCells : Nat → List (Option Piece) → List Char
  | n, [] => skipText n
  | n, none :: cells => encodeCells (n + 1) cells
  | n, some p :: cells => skipText n ++ p.symbol :: encodeCells 0 cells

/-- The cells of a rank, from the a-file on. -/
def rankCells (cell : Square → Option Piece) (rank : Fin 8) : List (Option Piece) :=
  (List.finRange 8).map fun file => cell (.ofFileRank file rank)

/-- The canonical placement of a board. -/
def encodeBoard (cell : Square → Option Piece) : List Char :=
  ['/'].intercalate ((List.finRange 8).map fun row => encodeCells 0 (rankCells cell row.rev))

/-- The canonical placement of a list of occupied squares. -/
def encode (occupied : Occupied) : String := String.ofList (encodeBoard (pieceOn occupied))

end Placement
end ChessArchive
