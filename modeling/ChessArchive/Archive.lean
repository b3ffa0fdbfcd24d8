import ChessArchive.Search.Results
import ChessArchive.Store.Batch
import ChessArchive.Store.Coverage
import ChessArchive.Store.Edit
import ChessArchive.Store.Index
import ChessArchive.Store.Keys

/-! The archive: a store that can be closed and opened again, and that may be there only to be read. A closed
    archive answers every operation with an error and loses nothing. -/

namespace ChessArchive

structure Archive where
  store : Store
  isOpen : Bool
  /-- The next opening fails, for the store is not in the state that its migrations left. -/
  migrationBroken : Bool
  /-- The store may change. -/
  isWritable : Bool
  deriving DecidableEq

namespace Archive

/-- An open archive with the given store. -/
def ofStore (s : Store) : Archive := ⟨s, true, false, true⟩

/-- An open archive with the given store, which stays as it is. -/
def readOnly (s : Store) : Archive := { ofStore s with isWritable := false }

/-- Reads from the store. -/
def read {α : Type} (a : Archive) (f : Store → Except ArchiveError α) : Except ArchiveError α :=
  if a.isOpen then f a.store else .error .database

/-- Changes the store, unless that fails or it is a change to a store that has to stay as it is. -/
def write {α : Type} (a : Archive) (f : Store → Except ArchiveError (α × Store)) :
    Except ArchiveError α × Archive :=
  match a.read f with
  | .ok (x, s) => if a.isWritable || s = a.store then (.ok x, { a with store := s }) else (.error .database, a)
  | .error e => (.error e, a)

/-- Runs a statement that needs a store that may change, even if it finds nothing to change. -/
def alter {α : Type} (a : Archive) (f : Store → Except ArchiveError (α × Store)) :
    Except ArchiveError α × Archive :=
  if a.isWritable then a.write f else (.error .database, a)

def close (a : Archive) : Archive := { a with isOpen := false }

/-- Opens the archive again. -/
def reopen (a : Archive) : Except ArchiveError Unit × Archive :=
  if a.migrationBroken then (.error .migration, a.close) else (.ok (), { a with isOpen := true })

/-- Leaves the store in a state in which it cannot be opened again. -/
def breakMigration (a : Archive) : Except ArchiveError Unit × Archive :=
  if a.isOpen then (.ok (), { a with migrationBroken := true }) else (.error .database, a)

/-- Runs a search. A malformed request is refused before the store is asked. -/
def search (a : Archive) (keys : FingerprintKeys) (r : SearchRequest) : Except ArchiveError SearchResults := do
  let plan ← r.checked keys
  a.read fun s => s.runPlan r plan

/-- Writes a batch of games. A store that has to stay as it is refuses each of them. -/
def writeBatch (a : Archive) (commits : Bool) (games : List DecodedGame) : BatchOutcome × Archive :=
  if a.isWritable then
    let (outcome, s) := a.store.writeBatch (commits && a.isOpen) games
    (outcome, { a with store := s })
  else if commits && a.isOpen then (.committed 0 games.length, a)
  else (.failed games.length, a)

end Archive
end ChessArchive
