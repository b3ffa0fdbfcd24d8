import ChessArchive.Pgn.Result
import ChessArchive.Text.Blank

/-! Movetext: the main line of a game among comments in braces or up to the end of a line, variations in
    parentheses, glyphs and move numbers. `words` cuts the main line into words, `readMoves` keeps the moves and
    stops at a result. -/

namespace ChessArchive
namespace Pgn

/-- What the current character belongs to. -/
inductive Region where
  | line
  | brace
  | remark

/-- Words, and whether every brace is closed. -/
structure Words where
  words : List (List Char)
  closed : Bool

/-- Puts a word in front, if it is one. -/
def Words.push (word : List Char) (w : Words) : Words := if word = [] then w else { w with words := word :: w.words }

/-- Cuts movetext into words. `depth` counts the open variations, `word` holds the last characters read, the
    newest first. -/
def cut : Region → (depth : Nat) → (word : List Char) → List Char → Words
  | .line, _, word, [] => Words.push word.reverse ⟨[], true⟩
  | .brace, _, _, [] => ⟨[], false⟩
  | .remark, _, _, [] => ⟨[], true⟩
  | .brace, depth, _, c :: s => if c = '\x7d' then cut .line depth [] s else cut .brace depth [] s
  | .remark, depth, _, c :: s => if c = '\n' then cut .line depth [] s else cut .remark depth [] s
  | .line, depth, word, c :: s =>
    if c = '\x7b' then Words.push word.reverse (cut .brace depth [] s)
    else if c = ';' then Words.push word.reverse (cut .remark depth [] s)
    else if c = '(' then Words.push word.reverse (cut .line (depth + 1) [] s)
    else if c = ')' then Words.push word.reverse (cut .line (depth - 1) [] s)
    else if Text.isBlank c then Words.push word.reverse (cut .line depth [] s)
    else if depth = 0 then cut .line depth (c :: word) s
    else cut .line depth word s

/-- The words of the main line. -/
def words (s : List Char) : Words := cut .line 0 [] s

/-- Drops a move number with its dots from the front of a word. -/
def dropNumber (word : List Char) : List Char :=
  let rest := word.dropWhile Char.isDigit
  if word.head?.any Char.isDigit && rest.head? == some '.' then rest.dropWhile (· == '.') else word

/-- The move in a word, unless it is a number alone or a glyph. -/
def moveOf? (word : List Char) : Option String :=
  match dropNumber word with
  | [] => none
  | c :: s => if c = '$' then none else some (String.ofList (c :: s))

/-- The moves of the main line up to a result, and the result. -/
def readMoves : List (List Char) → List String × Option GameResult
  | [] => ([], none)
  | word :: rest =>
    match GameResult.ofToken? (String.ofList word) with
    | some result => ([], some result)
    | none =>
      let (moves, result) := readMoves rest
      ((moveOf? word).toList ++ moves, result)

end Pgn
end ChessArchive
