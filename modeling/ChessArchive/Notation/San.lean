import ChessArchive.Board.Legal
import ChessArchive.Text.Blank

/-! Standard algebraic notation, read against the legal moves of a board. Marks for check, mate and comment are
    ignored, and so are the signs of capture and promotion; castling is written O-O or O-O-O, with letters or
    with zeros. -/

namespace ChessArchive

/-- Why a move text is refused; each cause keeps the text as given. -/
inductive SanError where
  | noLegalMove (text : String)
  | ambiguousMove (text : String)
  | invalidFormat (text : String)
  deriving DecidableEq, Repr

def SanError.message : SanError → String
  | noLegalMove s => s!"No legal move found for: {s}"
  | ambiguousMove s => s!"Ambiguous move: {s}"
  | invalidFormat s => s!"Invalid format: {s}"

/-- What an algebraic text says about a move. -/
structure MoveSpec where
  kind : Kind
  file : Option (Fin 8)
  rank : Option (Fin 8)
  target : Square
  promotion : Option Kind
  deriving DecidableEq, Repr

namespace MoveSpec

/-- Takes the piece letter off the front; without one it is a pawn. -/
def readKind : List Char → Option (Kind × List Char)
  | [] => some (.pawn, [])
  | c :: rest => if c.isUpper then (Kind.ofLetter? c).map (·, rest) else some (.pawn, c :: rest)

/-- Takes the promotion letter of a pawn move off the end. -/
def readPromotion (kind : Kind) (s : List Char) : Option (Option Kind × List Char) :=
  match s.getLast? with
  | some c => if c.isUpper ∧ kind = .pawn then (Kind.ofLetter? c).map (some ·, s.dropLast) else some (none, s)
  | none => some (none, s)

/-- Reads the characters before the target square: each names a file or a rank, and the last of its sort counts. -/
def readOrigin : List Char → Option (Option (Fin 8) × Option (Fin 8))
  | s => s.foldlM (fun (file, rank) c =>
      match Square.fileOf? c, Square.rankOf? c with
      | some f, _ => some (some f, rank)
      | none, some r => some (file, some r)
      | none, none => none) (none, none)

/-- Reads a text that is not castling. -/
def parse (s : List Char) : Option MoveSpec := do
  let (kind, s) ← readKind (s.filter fun c => c != 'x' && c != '=')
  let (promotion, s) ← readPromotion kind s
  if 2 ≤ s.length ∧ s.length ≤ 4 then
    let target ← Square.ofName? (s.drop (s.length - 2))
    let (file, rank) ← readOrigin (s.take (s.length - 2))
    return { kind, file, rank, target, promotion }
  else none

/-- A move is what the text says. Castling never is. -/
def accepts (spec : MoveSpec) (b : Board) (m : Move) : Bool :=
  b.piece? m.source = some ⟨b.side, spec.kind⟩ && !b.isCastling m && m.target = spec.target
    && m.promotion = spec.promotion && spec.file.all (fun f => m.source.file = f.val)
    && spec.rank.all fun r => m.source.rank = r.val

end MoveSpec

namespace San

/-- The marks that may follow a move. -/
def isMark (c : Char) : Bool := c == '+' || c == '#' || c == '!' || c == '?'

/-- Whether a text is castling, and if so whether to the king's right. -/
def castlingWing? (s : List Char) : Option Bool :=
  if s = "O-O".toList ∨ s = "0-0".toList then some true
  else if s = "O-O-O".toList ∨ s = "0-0-0".toList then some false
  else none

/-- The move is castling with the rook on the given side of the king. -/
def isCastlingTo (b : Board) (right : Bool) (m : Move) : Bool :=
  b.piece? m.source = some ⟨b.side, .king⟩ && b.piece? m.target = some ⟨b.side, .rook⟩
    && decide (m.source.file < m.target.file) == right

/-- What is left of a text without the blanks around it and the marks after it. -/
def core (text : String) : List Char := Text.dropEndWhile isMark (Text.trim text.toList)

/-- The move that a text means. -/
def parse (b : Board) (text : String) : Except SanError Move :=
  let s := core text
  if s = [] then .error (.invalidFormat text)
  else match castlingWing? s with
    | some right =>
      match b.legalMoves.find? (isCastlingTo b right) with
      | some m => .ok m
      | none => .error (.noLegalMove text)
    | none =>
      match MoveSpec.parse s with
      | none => .error (.invalidFormat text)
      | some spec =>
        match b.legalMoves.filter (spec.accepts b) with
        | [] => .error (.noLegalMove text)
        | [m] => .ok m
        | _ => .error (.ambiguousMove text)

end San
end ChessArchive
