import ChessArchive.Pgn.Game
import ChessArchive.Text.Utf8

/-! Files of many games. A record ends where a tag line follows movetext. The bytes of each line are read as
    UTF-8 with replacements, so that one foreign byte costs one character and not the file. -/

namespace ChessArchive
namespace Pgn

/-- How a source of bytes ends. -/
inductive Ending where
  | finished
  | failed (cause : String)
  deriving DecidableEq, Repr

/-- Cuts bytes into lines. Each line but the last ends with its line feed; the last one has none and is not
    empty. -/
def byteLines (bytes : List UInt8) : List (List UInt8) :=
  bytes.foldr (fun b lines =>
    if b = 10 then [b] :: lines
    else match lines with
      | [] => [[b]]
      | line :: rest => (b :: line) :: rest) []

/-- The lines that a source gives. A line that a failure cuts short is lost. -/
def sourceLines (bytes : List UInt8) : Ending → List (List Char)
  | .finished => (byteLines bytes).map Text.decodeUtf8
  | .failed _ => ((byteLines bytes).filter fun line => line.getLast? = some 10).map Text.decodeUtf8

/-- A line of movetext: neither blank nor a tag line. -/
def isMoveLine (line : List Char) : Bool := !Text.allBlank line && !isTagLine line

/-- Splits lines before the first tag line that follows movetext; `moving` says that there has been movetext. -/
def splitRecord : (moving : Bool) → List (List Char) → List (List Char) × List (List Char)
  | _, [] => ([], [])
  | moving, line :: rest =>
    if moving && isTagLine line then ([], line :: rest)
    else
      let (here, later) := splitRecord (moving || isMoveLine line) rest
      (line :: here, later)

theorem length_splitRecord_le (moving : Bool) (lines : List (List Char)) :
    (splitRecord moving lines).2.length ≤ lines.length := by
  induction lines generalizing moving with
  | nil => simp [splitRecord]
  | cons line rest ih =>
    unfold splitRecord
    split
    · exact Nat.le_refl _
    · exact Nat.le_succ_of_le (ih _)

/-- The records of a file, as lists of lines. -/
def records (lines : List (List Char)) : List (List (List Char)) :=
  match lines with
  | [] => []
  | line :: rest =>
    let r := splitRecord (isMoveLine line) rest
    (line :: r.1) :: records r.2
termination_by lines.length
decreasing_by exact Nat.lt_succ_of_le (length_splitRecord_le ..)

/-- The texts of the records that are complete. At the end of a source the last record is, unless it is blank;
    where a source fails it is not. -/
def recordTexts (lines : List (List Char)) : Ending → List (List Char)
  | .finished => ((records lines).map List.flatten).filter fun text => !Text.allBlank text
  | .failed _ => (records lines).dropLast.map List.flatten

/-- Reads all games of a source. A failure is the last item. -/
def readAll (bytes : List UInt8) (ending : Ending) : List (Except PgnError PgnGame) :=
  let games := (recordTexts (sourceLines bytes ending) ending).map parse
  match ending with
  | .finished => games
  | .failed cause => games ++ [.error (.unreadable cause)]

end Pgn
end ChessArchive
