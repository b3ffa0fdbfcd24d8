import ChessArchive.Store.Insert

/-! Writing the index of stored positions anew. A game is indexed as a whole or not at all, and a game that fails
    does not hold up the others. -/

namespace ChessArchive

/-- A game that could not be indexed. -/
structure IndexFailure where
  game : Id
  cause : ArchiveError
  deriving DecidableEq, Repr

structure MaintenanceReport where
  games : Nat
  positions : Nat
  rows : Nat
  failures : List IndexFailure
  deriving DecidableEq, Repr

def MaintenanceReport.empty : MaintenanceReport := ⟨0, 0, 0, []⟩

namespace Store

/-- Adds the index rows that a board asks for, and says how many those are. -/
def indexPosition (s : Store) (position : Id) (board : String) : Except ArchiveError (Nat × Store) := do
  let occupied ← (Placement.decode board).mapError .board
  return (occupied.length, ← s.addRows position occupied)

/-- Removes the rows of a position. -/
def dropRows (s : Store) (position : Id) : Except ArchiveError Store := do
  return { s with rows := (← s.index).filter (·.position ≠ position) }

/-- Replaces the rows of a position by those that a board asks for. -/
def reindexPosition (s : Store) (position : Id) (board : String) : Except ArchiveError (Nat × Store) := do
  let occupied ← (Placement.decode board).mapError .board
  return (occupied.length, ← (← s.dropRows position).addRows position occupied)

/-- Replaces the rows of a stored position and counts what is there afterwards. -/
def reindexChecked (s : Store) (p : StoredPosition) : Except ArchiveError (Nat × Store) := do
  let (expected, s) ← s.reindexPosition p.id p.board
  let actual ← s.rowCount p.id
  if actual = expected then return (expected, s)
  else throw (.inconsistent p.id expected actual)

/-- Replaces the rows of several positions; the sum of their rows. -/
def reindexAll (s : Store) : List StoredPosition → Except ArchiveError (Nat × Store)
  | [] => .ok (0, s)
  | p :: rest => do
    let (here, s) ← s.reindexChecked p
    let (later, s) ← s.reindexAll rest
    return (here + later, s)

/-- Replaces the rows of games one after the other. -/
def reindexGames (s : Store) : List Id → MaintenanceReport × Store
  | [] => (.empty, s)
  | game :: rest =>
    match s.reindexAll (s.positionsOf game) with
    | .ok (rows, next) =>
      let (r, final) := next.reindexGames rest
      ({ r with
          games := r.games + 1
          positions := r.positions + (s.positionsOf game).length
          rows := r.rows + rows }, final)
    | .error cause =>
      let (r, final) := s.reindexGames rest
      ({ r with failures := ⟨game, cause⟩ :: r.failures }, final)

/-- Numbers in ascending order, each once. -/
def ascending (ids : List Id) : List Id := ids.eraseDups.mergeSort (· ≤ ·)

/-- Drops the whole index and writes it anew from the stored boards. -/
def rebuildIndex (s : Store) : Except ArchiveError (MaintenanceReport × Store) := do
  let _ ← s.index
  let cleared : Store := { s with rows := [] }
  return cleared.reindexGames (ascending (s.games.map (·.id)))

/-- The games with a position that has no row at all. -/
def gamesMissingRows (s : Store) (rows : List IndexRow) : List Id :=
  ascending ((s.positions.filter fun p => !rows.any fun r => r.position = p.id).map (·.game))

/-- Writes the index of those games anew that have a position without rows. -/
def fixMissingIndex (s : Store) : Except ArchiveError (MaintenanceReport × Store) := do
  return s.reindexGames (s.gamesMissingRows (← s.index))

end Store
end ChessArchive
