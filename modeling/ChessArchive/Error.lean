import ChessArchive.Pattern.Compile
import ChessArchive.Replay

/-! What can go wrong in the archive, and how it is said. -/

namespace ChessArchive

/-- The number of a game or of a position in the store. -/
abbrev Id := Int

inductive ArchiveError where
  | board (cause : FenError)
  | pattern (cause : PatternError)
  | replay (cause : ReplayError)
  | invalidPage (page size : Nat)
  | corruptKeys (found : Nat)
  | inconsistent (position : Id) (expected actual : Nat)
  /-- A statement that the store refuses or cannot run. -/
  | database
  /-- A transaction that cannot begin or commit. -/
  | transaction
  | migration
  | file
  deriving DecidableEq, Repr

namespace ArchiveError

def message : ArchiveError → String
  | board e => s!"Invalid board encoding: {e.message}"
  | pattern e => e.message
  | replay e => s!"Cannot replay game: {e.message}"
  | invalidPage page size => s!"Invalid page request: page {page}, page size {size} (both start at 1)"
  | corruptKeys found => s!"Fingerprint key table is corrupt: expected 773 keys, found {found}"
  | inconsistent position expected actual => s!"Position {position} has {actual} index rows, expected {expected}"
  | database => "Database error"
  | transaction => "Transaction failed"
  | migration => "Migration error"
  | file => "IO error"

end ArchiveError
end ChessArchive
