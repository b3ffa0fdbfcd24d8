import ChessArchive.Board.Attack
import ChessArchive.Text.Integer

/-! Position texts of full boards. Reading is strict: six fields separated by single spaces, one king a side, no
    pawn on a last rank, and a position that a game could be in as far as checks, castling rooks and the en
    passant square tell. Castling rights are letters of KQkq for rooks in the corners, or else the files of the
    rooks as letters; writing uses KQkq for both. -/

namespace ChessArchive
namespace Board

/-! ### The placement -/

/-- The cells that a character of a rank stands for. -/
def readCell (c : Char) : Option (List (Option Piece)) :=
  match Placement.digit? c with
  | some n => some (List.replicate n none)
  | none => (Piece.ofSymbol? c).map fun p => [some p]

/-- Reads one rank, which has to give eight cells. -/
def readRank (rank : List Char) : Option (List (Option Piece)) :=
  ((rank.mapM readCell).map List.flatten).filter fun cells => cells.length = 8

/-- Reads ranks from the last one, which is the first rank, upwards. Missing upper ranks are empty. -/
def readCells (field : List Char) : Option Cells := do
  let ranks ← ((field.splitOn '/').reverse).mapM readRank
  if ranks.length ≤ 8 then
    let cells := ranks.flatten.toArray
    return .ofFn fun i => (cells[i.val]?).join
  else none

/-- The number of cells that satisfy a test. -/
def countCells (cells : Cells) (p : Piece → Bool) : Nat := cells.toList.countP fun cell => cell.any p

/-- Each side has one king, at most sixteen pieces and at most eight pawns, and no pawn is on a last rank. -/
def hasFairMaterial (cells : Cells) : Bool :=
  [Color.white, Color.black].all (fun c =>
    countCells cells (· = ⟨c, .king⟩) = 1 && countCells cells (·.color = c) ≤ 16
      && countCells cells (· = ⟨c, .pawn⟩) ≤ 8)
  && (List.finRange 64).all fun s : Square =>
    (s.rank != 0 && s.rank != 7) || (cells.piece? s).all fun p => p.kind != .pawn

/-! ### Castling -/

/-- A wing of a side, with the file of its rook. -/
structure Grant where
  color : Color
  short : Bool
  file : Fin 8

/-- Reads a letter as a wing with its rook in the corner. -/
def cornerGrant? (c : Char) : Option Grant :=
  let color := if c.isUpper then Color.white else Color.black
  match c.toLower with
  | 'k' => Rooks.corners.short.map (Grant.mk color true)
  | 'q' => Rooks.corners.long.map (Grant.mk color false)
  | _ => none

/-- Reads a letter as the file of a rook; a rook to the right of the king is the short one. -/
def fileGrant? (cells : Cells) (c : Char) : Option Grant := do
  let color := if c.isUpper then Color.white else Color.black
  let file ← Square.fileOf? c.toLower
  let king ← cells.king? color
  return ⟨color, king.file < file.val, file⟩

/-- Adds a right, unless the wing has one. -/
def addGrant (rooks : Rooks × Rooks) (g : Grant) : Option (Rooks × Rooks) :=
  let add (r : Rooks) : Option Rooks :=
    if g.short then (if r.short.isSome then none else some { r with short := some g.file })
    else if r.long.isSome then none else some { r with long := some g.file }
  match g.color with
  | .white => (add rooks.1).map fun r => (r, rooks.2)
  | .black => (add rooks.2).map fun r => (rooks.1, r)

/-- The rooks of a side stand where its rights say: on the back rank with the king, each on its side of it. -/
def rooksInPlace (cells : Cells) (c : Color) (r : Rooks) : Bool :=
  let rookOn (f : Fin 8) : Bool := cells.piece? (Square.ofFileRank f c.backRank) = some ⟨c, .rook⟩
  match cells.king? c with
  | none => false
  | some k =>
    (r.short.isNone && r.long.isNone || k.rank == c.backRank)
      && r.short.all (fun f => rookOn f && k.file < f.val) && r.long.all (fun f => rookOn f && f.val < k.file)

/-- Reads a castling field with one reading of its letters. -/
def readRooks (cells : Cells) (grant? : Char → Option Grant) (field : List Char) : Option (Rooks × Rooks) := do
  let letters := if field = ['-'] then [] else field
  let grants ← letters.mapM grant?
  let rooks ← grants.foldlM addGrant (Rooks.none, Rooks.none)
  if rooksInPlace cells .white rooks.1 && rooksInPlace cells .black rooks.2 then some rooks else none

/-- Reads a castling field, as corners if that makes sense and as files otherwise. -/
def readCastling (cells : Cells) (field : List Char) : Option (Rooks × Rooks) :=
  readRooks cells cornerGrant? field <|> readRooks cells (fileGrant? cells) field

/-! ### En passant -/

/-- A piece that gives check could have been uncovered by a double step from `start`: it is a line piece, and
    the square lies between it and the king. -/
def uncoveredBy (cells : Cells) (start king checker : Square) : Bool :=
  Step.kingSteps.any fun d =>
    let before := (king.ray d).takeWhile (· != checker)
    (king.ray d).contains checker && before.contains start
      && (cells.piece? checker).all fun p => p.kind != .pawn && p.kind != .knight

/-- A double step to this file could have been the last move of the side not to move. -/
def couldHaveStepped (cells : Cells) (side : Color) (file : Fin 8) : Bool :=
  let other := side.flip
  let pawn := Square.ofFileRank file other.doubleRank
  let start := Square.ofFileRank file other.pawnRank
  let checkers := match cells.king? side with
    | none => []
    | some k => (cells.attackers other k).map (k, ·)
  cells.piece? pawn = some ⟨other, .pawn⟩ && (cells.piece? (Square.ofFileRank file other.skippedRank)).isNone
    && (cells.piece? start).isNone
    && checkers.all fun (k, s) => s = pawn || uncoveredBy cells start k s

/-- Reads an en passant field. -/
def readEnPassant (cells : Cells) (side : Color) (field : List Char) : Option (Option (Fin 8)) :=
  match field with
  | ['-'] => some none
  | [f, r] => do
    let file ← Square.fileOf? f
    let rank ← Square.rankOf? r
    if rank = side.flip.skippedRank && couldHaveStepped cells side file then some (some file) else none
  | _ => none

/-! ### The whole text -/

/-- Reads a side field. -/
def readSide : List Char → Option Color
  | ['w'] => some .white
  | ['b'] => some .black
  | _ => none

/-- The side not to move is not in check, and the other is in check from at most two pieces. -/
def checksFit (cells : Cells) (side : Color) : Bool :=
  let attacked (c : Color) : Nat := ((cells.king? c).map fun k => (cells.attackers c.flip k).length).getD 0
  attacked side.flip = 0 && attacked side < 3

/-- Reads a board. -/
def ofText? (text : String) : Option Board :=
  match text.toList.splitOn ' ' with
  | [placement, sideField, castlingField, enPassantField, halfmoveField, fullmoveField] => do
    let cells ← readCells placement
    let side ← readSide sideField
    if hasFairMaterial cells && checksFit cells side then
      let (whiteRooks, blackRooks) ← readCastling cells castlingField
      let enPassant ← readEnPassant cells side enPassantField
      let halfmoves ← Text.natUpTo? 100 halfmoveField
      let fullmoves ← (Text.natUpTo? 65535 fullmoveField).filter (1 ≤ ·)
      return { cells, side, whiteRooks, blackRooks, enPassant, halfmoves, fullmoves }
    else none
  | _ => none

/-- The placement of a board. -/
def placement (b : Board) : List Char := Placement.encodeBoard b.piece?

/-- Writes the en passant field. -/
def enPassantText (b : Board) : List Char := (b.enPassantSquare?.map Square.name).getD ['-']

/-- Writes a board. -/
def text (b : Board) : String :=
  String.intercalate " " [String.ofList b.placement, String.ofList [b.side.letter], b.castling.text,
    String.ofList b.enPassantText, b.halfmoves.repr, b.fullmoves.repr]

/-- The back rank of the standard start. -/
def startRank : List Kind := [.rook, .knight, .bishop, .queen, .king, .bishop, .knight, .rook]

/-- The standard start. -/
def start : Board where
  cells := .ofFn fun s : Square =>
    if s.val < 8 then startRank[s.file]?.map (Piece.mk .white)
    else if s.val < 16 then some ⟨.white, .pawn⟩
    else if s.val < 48 then none
    else if s.val < 56 then some ⟨.black, .pawn⟩
    else startRank[s.file]?.map (Piece.mk .black)
  side := .white
  whiteRooks := .corners
  blackRooks := .corners
  enPassant := none
  halfmoves := 0
  fullmoves := 1

end Board
end ChessArchive
