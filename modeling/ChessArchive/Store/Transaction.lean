import ChessArchive.Store.Batch
import ChessArchive.Store.Index

/-! Writing in transactions, one statement after the other. A statement that fails changes nothing, but what was written
    before it stays until it is rolled back. -/

namespace ChessArchive

/-- A store in the midst of a transaction. Each mark is the store as it was when the mark was set; the newest comes
    first, and the last one is the beginning of the transaction. -/
structure Transaction where
  store : Store
  marks : List Store

/-- Statements that are carried out one after the other, up to the first that fails. -/
abbrev Writing := EStateM ArchiveError Transaction

namespace Store

/-- Adds the record of a position, without its index rows. -/
def addRecord (s : Store) (game : Id) (p : DecodedPosition) : Except ArchiveError (Id × Store) :=
  if s.positions.any fun q => q.game = game && q.number = p.number then .error .database
  else
    let id := nextId (s.positions.map (·.id))
    let position := ⟨id, game, p.number, p.san, p.board, p.side, p.castling, p.fingerprint, p.material⟩
    .ok (id, { s with positions := position :: s.positions })

theorem addPosition_eq (s : Store) (game : Id) (p : DecodedPosition) :
    s.addPosition game p = (do
      let (id, s) ← s.addRecord game p
      s.addRows id p.occupied) := by
  rw [addPosition, addRecord]
  split <;> rfl

end Store

namespace Writing
variable {α : Type}

def statement (f : Store → Except ArchiveError (α × Store)) : Writing α := fun t =>
  match f t.store with
  | .ok (a, s) => .ok a { t with store := s }
  | .error e => .error e t

/-- A statement that gives nothing back. -/
def change (f : Store → Except ArchiveError Store) : Writing Unit := statement fun s => (f s).map ((), ·)

/-- A statement that only reads. -/
def ask (f : Store → Except ArchiveError α) : Writing α := statement fun s => (f s).map (·, s)

/-! ### Marks -/

def mark : Writing Unit := modify fun t => { t with marks := t.store :: t.marks }

/-- Keeps what was written since the newest mark. -/
def release : Writing Unit := modify fun t => { t with marks := t.marks.tail }

/-- Takes back what was written since the newest mark. -/
def rollBack : Writing Unit := modify fun t =>
  match t.marks with
  | [] => t
  | s :: marks => ⟨s, marks⟩

/-- Goes on after a failure. What was written before it stays. -/
def attempt (w : Writing α) : Writing (Except ArchiveError α) := fun t =>
  match w t with
  | .ok a t => .ok (.ok a) t
  | .error e t => .ok (.error e) t

/-- Writes under a mark, which is rolled back to after a failure. -/
def marked (w : Writing α) : Writing α := do
  mark
  match ← attempt w with
  | .ok a => release; return a
  | .error e => rollBack; throw e

/-! ### Games -/

def writeGame (g : DecodedGame) : Writing Id := do
  let id ← statement (·.addGame g)
  g.positions.forM fun p => do
    let position ← statement (·.addRecord id p)
    change (·.addRows position p.occupied)
  return id

def insertGame (g : DecodedGame) : Writing Id := marked (writeGame g)

/-- Writes games one after the other, each under a mark of its own. -/
def insertAll : List DecodedGame → Writing (List (Except ArchiveError Id))
  | [] => return []
  | g :: rest => return (← attempt (insertGame g)) :: (← insertAll rest)

/-- Writes a batch and counts the games that were written and those that were rolled back. Unless the transaction can
    be committed, all of it is. -/
def batch (commits : Bool) (games : List DecodedGame) : Writing (Nat × Nat) := marked do
  let results ← insertAll games
  if commits then return (results.countP (·.isOk), results.countP (!·.isOk))
  else throw .database

def writeBatch (s : Store) (begins commits : Bool) (games : List DecodedGame) : BatchOutcome × Store :=
  if begins then
    match batch commits games ⟨s, []⟩ with
    | .ok (written, refused) t => (.committed written refused, t.store)
    | .error _ t => (.failed games.length, t.store)
  else (.failed games.length, s)

/-! ### The index -/

/-- Replaces the rows of a stored position and counts what is there afterwards. -/
def reindexChecked (p : StoredPosition) : Writing Nat := do
  match Placement.decode p.board with
  | .error e => throw (.board e)
  | .ok occupied =>
    change (·.dropRows p.id)
    change (·.addRows p.id occupied)
    let actual ← ask (·.rowCount p.id)
    if actual = occupied.length then return occupied.length
    else throw (.inconsistent p.id occupied.length actual)

/-- Replaces the rows of several positions; the sum of their rows. -/
def reindexAll : List StoredPosition → Writing Nat
  | [] => return 0
  | p :: rest => return (← reindexChecked p) + (← reindexAll rest)

/-- Replaces the rows of a game; the numbers of its positions and rows. -/
def reindexGame (game : Id) : Writing (Nat × Nat) := marked do
  let positions ← ask fun s => .ok (s.positionsOf game)
  return (positions.length, ← reindexAll positions)

/-- Takes a game into a report, with the numbers of its positions and rows if it did not fail. -/
def reported (game : Id) (r : MaintenanceReport) : Except ArchiveError (Nat × Nat) → MaintenanceReport
  | .ok (positions, rows) =>
    { r with games := r.games + 1, positions := r.positions + positions, rows := r.rows + rows }
  | .error cause => { r with failures := ⟨game, cause⟩ :: r.failures }

/-- Replaces the rows of games, each in a transaction of its own. -/
def reindexGames : List Id → Writing MaintenanceReport
  | [] => return .empty
  | game :: rest => do
    let outcome ← attempt (reindexGame game)
    return reported game (← reindexGames rest) outcome

/-- Removes every row, and then replaces the rows of all games. What was removed stays so if a game fails. -/
def rebuildIndex : Writing MaintenanceReport := do
  change fun s => s.index.map fun _ => { s with rows := [] }
  let games ← ask fun s => .ok (Store.ascending (s.games.map (·.id)))
  reindexGames games

def fixMissingIndex : Writing MaintenanceReport := do
  let rows ← ask Store.index
  let games ← ask fun s => .ok (s.gamesMissingRows rows)
  reindexGames games

end Writing
end ChessArchive
