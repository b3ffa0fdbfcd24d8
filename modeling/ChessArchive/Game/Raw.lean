import ChessArchive.Pgn.Stream

/-! Games as they arrive: tags, move texts and perhaps a start position, nothing of it checked. -/

namespace ChessArchive

structure RawGame where
  tags : Tags
  moves : List String
  startFen : Option String
  deriving DecidableEq, Repr

namespace RawGame

/-- A raw game from a game record. The record's result becomes the Result tag, unless there is one. -/
def ofPgn (g : PgnGame) : RawGame where
  tags := g.tags.insertNew "Result" g.result.token
  moves := g.moves
  startFen := g.startFen?

/-- The games of a source, and the number of its records that cannot be read. -/
def ofSource (bytes : List UInt8) (ending : Pgn.Ending) : List RawGame × Nat :=
  let records := Pgn.readAll bytes ending
  let games := records.filterMap fun r => r.toOption.map ofPgn
  (games, records.length - games.length)

/-- The players, as the tags name them. -/
def label (g : RawGame) : String := (g.tags.get? "White").getD "?" ++ " vs " ++ (g.tags.get? "Black").getD "?"

end RawGame
end ChessArchive
