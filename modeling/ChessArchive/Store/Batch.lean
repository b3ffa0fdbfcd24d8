import ChessArchive.Store.Insert

/-! Batches: several games written in one transaction, each of them whole or not at all. -/

namespace ChessArchive

/-- What became of a batch. -/
inductive BatchOutcome where
  | committed (written refused : Nat)
  /-- The transaction could not be begun or committed. -/
  | failed (size : Nat)
  deriving DecidableEq, Repr

namespace Store

/-- The results that are numbers. -/
def writtenIds (results : List (Except ArchiveError Id)) : List Id := results.filterMap (·.toOption)

/-- Writes a batch. `commits` says whether its transaction can be begun and committed; nothing is left behind by
    one that cannot. -/
def writeBatch (s : Store) (commits : Bool) (games : List DecodedGame) : BatchOutcome × Store :=
  if commits then
    let (results, next) := s.insertAll games
    let written := (writtenIds results).length
    (.committed written (games.length - written), next)
  else (.failed games.length, s)

end Store
end ChessArchive
