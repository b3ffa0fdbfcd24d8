import ChessArchive.Store

/-! Writing games. A record that breaks a rule of its table is refused, and with it the whole game; the games of
    a batch do not depend on each other. -/

namespace ChessArchive
namespace Store

/-- Adds index rows of a position, one per occupied square. A position without any needs no index. -/
def addRows (s : Store) (position : Id) (occupied : Occupied) : Except ArchiveError Store :=
  if occupied.isEmpty then .ok s
  else if s.damage.indexGone then .error .database
  else
    let kept := (occupied.filter fun e => !s.damage.lostSquares.contains e.1).map fun (q, p) =>
      IndexRow.mk position q p
    if kept.isEmpty || s.positions.any (·.id = position) then .ok { s with rows := kept ++ s.rows }
    else .error .database

/-- Adds the record of a game. Its result has to be one of the four. -/
def addGame (s : Store) (g : DecodedGame) : Except ArchiveError (Id × Store) :=
  if (GameResult.ofToken? g.metadata.result).isNone then .error .database
  else
    let id := nextId (s.games.map (·.id))
    .ok (id, { s with games := ⟨id, g.metadata, " ".intercalate g.moves, g.startFen⟩ :: s.games })

/-- Adds a position of a game with its index rows. A game has each number once. -/
def addPosition (s : Store) (game : Id) (p : DecodedPosition) : Except ArchiveError Store :=
  if s.positions.any fun q => q.game = game && q.number = p.number then .error .database
  else
    let id := nextId (s.positions.map (·.id))
    let position := ⟨id, game, p.number, p.san, p.board, p.side, p.castling, p.fingerprint, p.material⟩
    { s with positions := position :: s.positions }.addRows id p.occupied

/-- Writes a game with all its positions, or nothing of it. -/
def insertGame (s : Store) (g : DecodedGame) : Except ArchiveError (Id × Store) := do
  let (id, s) ← s.addGame g
  return (id, ← g.positions.foldlM (fun s p => s.addPosition id p) s)

/-- Writes games one after the other. A game that is refused leaves the store as it was. -/
def insertAll (s : Store) : List DecodedGame → List (Except ArchiveError Id) × Store
  | [] => ([], s)
  | g :: rest =>
    match s.insertGame g with
    | .ok (id, s) => let (results, s) := s.insertAll rest; (.ok id :: results, s)
    | .error e => let (results, s) := s.insertAll rest; (.error e :: results, s)

/-- Deletes a game with its positions and their index rows, and says whether it was there. -/
def deleteGame (s : Store) (id : Id) : Bool × Store :=
  let gone := (s.positions.filter (·.game = id)).map (·.id)
  (s.games.any (·.id = id),
    { s with
      games := s.games.filter (·.id ≠ id)
      positions := s.positions.filter (·.game ≠ id)
      rows := s.rows.filter fun r => !gone.contains r.position })

end Store
end ChessArchive
