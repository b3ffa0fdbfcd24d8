import ChessArchive.Game.Decoded

/-! The store: games, the positions they reach, the index of what stands where, and the fingerprint keys. Each
    table is a flat list; records refer to each other by number. -/

namespace ChessArchive

/-- A stored game. The move texts are kept as one text, with a blank between two moves. -/
structure StoredGame where
  id : Id
  metadata : Metadata
  moves : String
  startFen : Option String
  deriving DecidableEq, Repr

/-- A stored position of a game; number 0 is the start. -/
structure StoredPosition where
  id : Id
  game : Id
  number : Nat
  san : Option String
  board : String
  side : Color
  castling : CastlingRights
  fingerprint : UInt64
  material : String
  deriving DecidableEq, Repr

/-- An entry of the index: in a position a square holds a piece. -/
structure IndexRow where
  position : Id
  square : Square
  piece : Piece
  deriving DecidableEq, Repr

/-- A stored fingerprint key, a word read as a signed number. -/
structure StoredKey where
  slot : Int
  key : Int64
  deriving DecidableEq

/-- What is wrong with the index: it may be gone as a whole, or lose every row that is added for some squares. -/
structure Damage where
  indexGone : Bool
  lostSquares : List Square
  deriving DecidableEq, Repr

def Damage.none : Damage := ⟨false, []⟩

structure Store where
  games : List StoredGame
  positions : List StoredPosition
  rows : List IndexRow
  keys : List StoredKey
  damage : Damage
  deriving DecidableEq

/-- The number that the next record gets: one more than the largest in use. -/
def nextId (used : List Id) : Id :=
  match used.max? with
  | none => 1
  | some n => n + 1

namespace Store

def empty : Store := ⟨[], [], [], [], .none⟩

/-! ### Looking things up -/

def game? (s : Store) (id : Id) : Option StoredGame := s.games.find? (·.id = id)

/-- The positions of a game, in the order of play. -/
def positionsOf (s : Store) (game : Id) : List StoredPosition :=
  (s.positions.filter (·.game = game)).mergeSort fun p q => p.number ≤ q.number

/-- All positions by number. -/
def positionsById (s : Store) : List StoredPosition := s.positions.mergeSort fun p q => p.id ≤ q.id

/-- The games among the given ones that exist, by number. -/
def gamesAmong (s : Store) (ids : List Id) : List StoredGame :=
  (s.games.filter fun g => ids.contains g.id).mergeSort fun g h => g.id ≤ h.id

/-- The rows of the index, if there is an index. -/
def index (s : Store) : Except ArchiveError (List IndexRow) :=
  if s.damage.indexGone then .error .database else .ok s.rows

/-- The rows of a position, by square and then by piece letter. -/
def rowsOf (s : Store) (position : Id) : Except ArchiveError (List IndexRow) := do
  return ((← s.index).filter (·.position = position)).mergeSort fun r t =>
    r.square < t.square || r.square = t.square && r.piece.symbol ≤ t.piece.symbol

/-- The number of rows of a position. -/
def rowCount (s : Store) (position : Id) : Except ArchiveError Nat := do
  return (← s.index).countP (·.position = position)

/-- How much there is of everything. -/
structure Stats where
  games : Nat
  positions : Nat
  indexRows : Nat
  deriving DecidableEq, Repr

def stats (s : Store) : Except ArchiveError Stats := do
  return ⟨s.games.length, s.positions.length, (← s.index).length⟩

end Store
end ChessArchive
