import ChessArchive.Pgn.Movetext
import ChessArchive.Pgn.Tags

/-! One game record: tag lines, then movetext. The result is the one that ends the movetext, else that of the
    Result tag, else that of a game still going on. -/

namespace ChessArchive

inductive PgnError where
  | invalidFormat
  | invalidTag (line : String)
  | unterminatedComment
  | unreadable (cause : String)
  deriving DecidableEq, Repr

def PgnError.message : PgnError → String
  | invalidFormat => "Invalid PGN format"
  | invalidTag line => s!"Invalid tag: {line}"
  | unterminatedComment => "Unterminated comment"
  | unreadable cause => s!"IO error: {cause}"

structure PgnGame where
  tags : Tags
  moves : List String
  result : GameResult
  deriving DecidableEq, Repr

namespace PgnGame

/-- The start position of a game that does not begin from the standard one. -/
def startFen? (g : PgnGame) : Option String := (g.tags.get? "FEN").filter fun f => !Text.allBlank f.toList

end PgnGame

namespace Pgn

/-- Reads the tag lines at the front, past blank lines, up to the first other line. -/
def readHeader (tags : Tags) : List (List Char) → Except PgnError (Tags × List (List Char))
  | [] => .ok (tags, [])
  | line :: rest =>
    match Text.trim line with
    | [] => readHeader tags rest
    | c :: s =>
      if c = '[' then
        match readTag (c :: s) with
        | some (name, value) => readHeader (tags.insert name value) rest
        | none => .error (.invalidTag (String.ofList (c :: s)))
      else .ok (tags, line :: rest)

/-- Reads the text of one game. -/
def parse (text : List Char) : Except PgnError PgnGame := do
  let (tags, lines) ← readHeader .empty (text.splitOn '\n')
  if tags.entries.isEmpty && lines.isEmpty then .error .invalidFormat
  else
    let found := words (['\n'].intercalate lines)
    match readMoves found.words with
    | (moves, some result) => return ⟨tags, moves, result⟩
    | (moves, none) =>
      if found.closed then
        return ⟨tags, moves, ((tags.get? "Result").bind GameResult.ofToken?).getD .ongoing⟩
      else .error .unterminatedComment

/-- Reads movetext: the moves of the main line, and the result that ends it. -/
def readMovetext (s : List Char) : Except PgnError (List String × Option GameResult) :=
  let found := words s
  match readMoves found.words with
  | (moves, some result) => .ok (moves, some result)
  | (moves, none) => if found.closed then .ok (moves, none) else .error .unterminatedComment

theorem parse_eq (text : List Char) : parse text = do
    let (tags, lines) ← readHeader .empty (text.splitOn '\n')
    if tags.entries.isEmpty && lines.isEmpty then .error .invalidFormat
    else
      let (moves, result?) ← readMovetext (['\n'].intercalate lines)
      return ⟨tags, moves, result?.getD (((tags.get? "Result").bind GameResult.ofToken?).getD .ongoing)⟩ := by
  rw [parse]
  refine congrArg (readHeader .empty (text.splitOn '\n') >>= ·) (funext fun (tags, lines) => ?_)
  dsimp only
  split
  · rfl
  · rw [readMovetext]
    rcases readMoves (words (['\n'].intercalate lines)).words with ⟨moves, result | result⟩
    · cases (words (['\n'].intercalate lines)).closed <;> rfl
    · rfl

end Pgn
end ChessArchive
