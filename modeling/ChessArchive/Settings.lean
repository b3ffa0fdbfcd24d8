import ChessArchive.Text.Blank
import ChessArchive.Text.Integer

/-! Settings of the archive: where it is kept, and the sizes of the import. Each has a default and may be
    overridden by an environment variable; a value that is not a number counts as not given. -/

namespace ChessArchive

/-- The variables that are set. -/
structure Environment where
  vars : List (String × String)

def Environment.get? (e : Environment) (name : String) : Option String := e.vars.lookup name

namespace FilePath

/-- Puts a relative path behind a directory. -/
def join (directory path : String) : String :=
  if directory = "" then path
  else if directory.toList.getLast? = some '/' then directory ++ path
  else directory ++ "/" ++ path

end FilePath

/-- The directory of the database file: as told, else below the home directory, else below the current one. -/
def Environment.dataDirectory (e : Environment) : String :=
  match e.get? "CHESSDB_DATA_DIR", e.get? "HOME" with
  | some directory, _ => directory
  | none, some home => FilePath.join home ".config/chessdb/data"
  | none, none => "./data"

/-- The database file. -/
def Environment.databasePath (e : Environment) : String := FilePath.join e.dataDirectory "chessdb.sqlite"

/-- The sizes of an import. -/
structure ImportSettings where
  decodeWorkers : Nat
  writerWorkers : Nat
  /-- Games per transaction. -/
  batchSize : Nat
  /-- Milliseconds after which a batch is written though it is not full. -/
  flushInterval : Nat
  queueCapacity : Nat
  progressCapacity : Nat
  deriving DecidableEq, Repr

namespace ImportSettings

def default : ImportSettings := ⟨4, 2, 100, 500, 256, 64⟩

/-- Reads a size. -/
def readSize (value : Option String) (default : Nat) : Nat :=
  (value.bind fun v => Text.natUpTo? Text.uint64Max (Text.trim v.toList)).getD default

/-- The defaults, overridden by the environment. -/
def ofEnvironment (e : Environment) : ImportSettings where
  decodeWorkers := readSize (e.get? "CHESSDB_DECODE_WORKERS") default.decodeWorkers
  writerWorkers := readSize (e.get? "CHESSDB_WRITER_WORKERS") default.writerWorkers
  batchSize := readSize (e.get? "CHESSDB_BATCH_SIZE") default.batchSize
  flushInterval := readSize (e.get? "CHESSDB_FLUSH_INTERVAL_MS") default.flushInterval
  queueCapacity := readSize (e.get? "CHESSDB_QUEUE_CAPACITY") default.queueCapacity
  progressCapacity := default.progressCapacity

/-- Raises every size to at least one. -/
def normalized (s : ImportSettings) : ImportSettings where
  decodeWorkers := max s.decodeWorkers 1
  writerWorkers := max s.writerWorkers 1
  batchSize := max s.batchSize 1
  flushInterval := max s.flushInterval 1
  queueCapacity := max s.queueCapacity 1
  progressCapacity := max s.progressCapacity 1

/-- The longest queue that there can be. -/
def maxQueueCapacity : Nat := 2305843009213693951

/-- The largest number of workers of one sort that there can be. -/
def maxWorkers : Nat := 1152921504606846975

/-- An import of these sizes can be set up. -/
def fits (s : ImportSettings) : Bool :=
  s.queueCapacity ≤ maxQueueCapacity && s.progressCapacity ≤ maxQueueCapacity
    && s.decodeWorkers ≤ maxWorkers && s.writerWorkers ≤ maxWorkers

end ImportSettings
end ChessArchive
