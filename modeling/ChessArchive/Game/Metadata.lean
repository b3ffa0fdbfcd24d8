import ChessArchive.Pgn.Result
import ChessArchive.Pgn.Tags
import ChessArchive.Text.Integer

/-! What is kept of a game's tags. Values are trimmed, a blank one is as good as none, ratings have to be
    integers, and a result that is not one of the four counts as still going on. -/

namespace ChessArchive

structure Metadata where
  event : Option String
  site : Option String
  date : Option String
  round : Option String
  white : String
  black : String
  result : String
  whiteElo : Option Int
  blackElo : Option Int
  eco : Option String
  opening : Option String
  variation : Option String
  deriving DecidableEq, Repr

namespace Metadata

/-- The value of a tag, trimmed, unless it is blank. -/
def textOf (t : Tags) (name : String) : Option String := ((t.get? name).map Text.trimmed).filter (· ≠ "")

/-- The value of a tag as an integer. -/
def eloOf (t : Tags) (name : String) : Option Int :=
  (t.get? name).bind fun v => Text.intWithin? Text.int64Bound (Text.trim v.toList)

/-- The result that a game's tags give. -/
def resultOf (t : Tags) : GameResult :=
  ((t.get? "Result").bind fun v => GameResult.ofToken? (Text.trimmed v)).getD .ongoing

/-- The metadata of a game with the given tags. -/
def ofTags (t : Tags) : Metadata where
  event := textOf t "Event"
  site := textOf t "Site"
  date := textOf t "Date"
  round := textOf t "Round"
  white := (textOf t "White").getD "?"
  black := (textOf t "Black").getD "?"
  result := (resultOf t).token
  whiteElo := eloOf t "WhiteElo"
  blackElo := eloOf t "BlackElo"
  eco := textOf t "ECO"
  opening := textOf t "Opening"
  variation := textOf t "Variation"

/-- The players. -/
def label (m : Metadata) : String := s!"{m.white} vs {m.black}"

end Metadata
end ChessArchive
