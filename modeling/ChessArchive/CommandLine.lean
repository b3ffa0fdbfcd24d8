import ChessArchive.CommandLine.Arguments
import ChessArchive.CommandLine.Database
import ChessArchive.Import.Schedule
import ChessArchive.Report

/-! The commands of the archive: each opens the database, does its work, and keeps what became of it. -/

namespace ChessArchive

/-- What a command prints. -/
inductive CommandOutput where
  | nothing
  | text (value : String)
  | document (value : Document)

structure CommandOutcome where
  exitCode : Nat
  output : CommandOutput
  error : Option String

namespace CommandOutcome

def done (output : CommandOutput) : CommandOutcome := ⟨0, output, none⟩

def failed (error : String) : CommandOutcome := ⟨1, .nothing, some error⟩

/-- A command that asks for more than there can be breaks off. -/
def brokenOff : CommandOutcome := ⟨101, .nothing, none⟩

/-- The outcome of something that yields a document. -/
def ofResult (r : Except ArchiveError Document) : CommandOutcome :=
  match r with
  | .ok d => done (.document d)
  | .error e => failed e.message

end CommandOutcome

/-- What surrounds a command. -/
structure Surroundings where
  environment : Environment
  disk : Disk
  /-- The key table of a new database. -/
  freshKeys : FingerprintKeys

/-- The sizes of an import: what the command line says counts more than the environment. -/
def ImportOptions.over (o : ImportOptions) (s : ImportSettings) : ImportSettings :=
  { s with
    decodeWorkers := o.decodeWorkers.getD s.decodeWorkers
    writerWorkers := o.writerWorkers.getD s.writerWorkers
    batchSize := o.batchSize.getD s.batchSize
    flushInterval := o.flushInterval.getD s.flushInterval }

/-- The games of a file. A directory can be opened, but reading it fails. -/
def Disk.readGames? (d : Disk) (path : String) : Option (List RawGame) :=
  ((d.locate? path).bind d.get?).map fun e =>
    match e.bytes? with
    | some bytes => (RawGame.ofSource bytes .finished).1
    | none => (RawGame.ofSource [] (.failed "not a file")).1

namespace Command

/-- Imports a file. -/
def runImport (w : Surroundings) (a : Archive) (file : String) (options : ImportOptions) : CommandOutcome × Archive :=
  match w.disk.readGames? file with
  | none => (.failed s!"cannot open {file}", a)
  | some games =>
    match a.write (·.openKeys w.freshKeys) with
    | (.error e, a) => (.failed e.message, a)
    | (.ok keys, a) =>
      let settings := options.over (.ofEnvironment w.environment)
      match a.importGames? keys settings .none games with
      | none => (.brokenOff, a)
      | some final =>
        let outcome := CommandOutcome.done (.document final.summary.document)
        match final.status with
        | .failed cause =>
          ({ outcome with exitCode := 1, error := some ("import failed: " ++ cause.message) }, final.archive)
        | _ => (outcome, final.archive)

/-- Runs a search. -/
def runSearch (w : Surroundings) (a : Archive) (r : SearchRequest) : CommandOutcome × Archive :=
  match a.write (·.openKeys w.freshKeys) with
  | (.error e, a) => (.failed e.message, a)
  | (.ok keys, a) => (.ofResult ((a.search keys r).map (·.document)), a)

/-- Runs a command on an open archive. -/
def run (w : Surroundings) (a : Archive) : Command → CommandOutcome × Archive
  | importFile file options => runImport w a file options
  | search r => runSearch w a r
  | reindex missingOnly =>
    let (r, a) := if missingOnly then a.write Store.fixMissingIndex else a.alter Store.rebuildIndex
    (.ofResult (r.map (·.document)), a)
  | report => (.ofResult ((a.read Store.coverage).map (·.document)), a)
  | delete game =>
    match a.alter fun s => .ok (s.deleteGame game) with
    | (.ok true, a) => (.done .nothing, a)
    | (.ok false, a) => (.failed s!"game {game} not found", a)
    | (.error e, a) => (.failed e.message, a)
  | stats => (.ofResult ((a.read Store.stats).map (·.document)), a)

end Command

namespace CommandLine

def versionText : String := "chessdb 0.1.0\n"

def helpText : String := "Usage: chessdb [--database PATH] COMMAND\n\n"
  ++ "Commands:\n"
  ++ "  import FILE       Import every game of a PGN file\n"
  ++ "  search [PATTERN]  Search stored positions and print the matching games\n"
  ++ "  reindex           Rebuild the position index from stored positions\n"
  ++ "  report            Report index coverage and inconsistent positions\n"
  ++ "  delete GAME_ID    Delete a game together with its positions\n"
  ++ "  stats             Print store statistics\n"

/-- Opens the database of an invocation, runs its command and keeps the store. A new database is on the disk from
    the beginning. -/
def invoke (w : Surroundings) (i : Invocation) : CommandOutcome × Disk :=
  let text := i.database.getD w.environment.databasePath
  match w.disk.openDatabase text with
  | (disk, none) => (.failed s!"cannot open database {text}", disk)
  | (disk, some opened) =>
    let disk := disk.keep opened
    let (outcome, archive) := i.command.run { w with disk } opened.archive
    (outcome, disk.closeDatabase { opened with archive })

/-- Runs a command line. -/
def run (w : Surroundings) (args : List String) : CommandOutcome × Disk :=
  match Invocation.ofArguments none args with
  | .ok i => invoke w i
  | .error .usage => (⟨2, .nothing, none⟩, w.disk)
  | .error .help => (.done (.text helpText), w.disk)
  | .error .version => (.done (.text versionText), w.disk)

end CommandLine
end ChessArchive
