import ChessArchive.Import
import ChessArchive.Text.Document

/-! What is said about games, searches, maintenance and imports, as JSON documents. -/

namespace ChessArchive
open Document

/-- The entries of a game's metadata. -/
def Metadata.entries (m : Metadata) : List (String × Document) := [
  ("event", optText m.event), ("site", optText m.site), ("date", optText m.date), ("round", optText m.round),
  ("white", .text m.white), ("black", .text m.black), ("result", .text m.result), ("whiteElo", optInt m.whiteElo),
  ("blackElo", optInt m.blackElo), ("eco", optText m.eco), ("opening", optText m.opening),
  ("variation", optText m.variation)]

/-- The entries of a stored game. -/
def StoredGame.entries (g : StoredGame) : List (String × Document) :=
  ("id", .int g.id) :: g.metadata.entries ++ [("moves", .text g.moves), ("startFen", optText g.startFen)]

def StoredGame.document (g : StoredGame) : Document := .fields g.entries

def PositionMatch.document (p : PositionMatch) : Document :=
  .fields [("moveNumber", .int p.number), ("move", optText p.san)]

def GameMatch.document (g : GameMatch) : Document :=
  .fields (g.game.entries ++ [("positions", .list (g.positions.map (·.document)))])

def Pagination.document (p : Pagination) : Document := .fields [
  ("page", .int p.page), ("pageSize", .int p.pageSize), ("totalGames", .int p.totalGames),
  ("totalPages", .int p.totalPages), ("hasNext", .bool p.hasNext), ("hasPrev", .bool p.hasPrev)]

def SearchResults.document (r : SearchResults) : Document :=
  .fields [("games", .list (r.games.map (·.document))), ("pagination", r.pagination.document)]

def Store.Stats.document (s : Store.Stats) : Document :=
  .fields [("games", .int s.games), ("positions", .int s.positions), ("indexRows", .int s.indexRows)]

def IndexFailure.document (f : IndexFailure) : Document :=
  .fields [("gameId", .int f.game), ("error", .text f.cause.message)]

def MaintenanceReport.document (r : MaintenanceReport) : Document := .fields [
  ("gamesProcessed", .int r.games), ("positionsIndexed", .int r.positions), ("rowsWritten", .int r.rows),
  ("failures", .list (r.failures.map (·.document)))]

def RowMismatch.document (m : RowMismatch) : Document :=
  .fields [("positionId", .int m.position), ("expected", .int m.expected), ("actual", .int m.actual)]

def CoverageReport.document (r : CoverageReport) : Document := .fields [
  ("totalGames", .int r.games), ("totalPositions", .int r.positions), ("totalRows", .int r.rows),
  ("indexedPositions", .int r.indexed), ("coverage", .share r.share),
  ("inconsistencies", .list (r.mismatches.map (·.document)))]

/-- The entries of a status. -/
def ImportStatus.entries : ImportStatus → List (String × Document)
  | completed => [("status", .text "completed")]
  | cancelled => [("status", .text "cancelled")]
  | failed cause => [("status", .text "failed"), ("error", .text cause.message)]

def ImportSummary.document (s : ImportSummary) : Document :=
  .fields (s.status.entries ++ [
    ("imported", .int s.counters.imported), ("failed", .int s.counters.failed),
    ("discarded", .int s.counters.discarded)])

end ChessArchive
