/-! Results of games and their tokens. -/

namespace ChessArchive

inductive GameResult where
  | whiteWins
  | blackWins
  | draw
  | ongoing
  deriving DecidableEq, Repr

namespace GameResult

def all : List GameResult := [whiteWins, blackWins, draw, ongoing]

/-- The token of a result. -/
def token : GameResult → String
  | whiteWins => "1-0"
  | blackWins => "0-1"
  | draw => "1/2-1/2"
  | ongoing => "*"

/-- Reads a token. -/
def ofToken? (s : String) : Option GameResult := all.find? fun r => r.token = s

theorem ofToken?_token (r : GameResult) : ofToken? r.token = some r := by
  cases r <;> decide

theorem token_of_ofToken? {s : String} {r : GameResult} (h : ofToken? s = some r) : r.token = s := by
  simpa using List.find?_some h

end GameResult
end ChessArchive
