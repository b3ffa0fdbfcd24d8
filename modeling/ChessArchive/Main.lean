import ChessArchive.CommandLine

/-! The program: it looks at the disk, runs the command line, writes back what has changed and prints. -/

namespace ChessArchive

/-- What the bytes of a file are. -/
def entryOf (bytes : List UInt8) : DiskEntry := ((DatabaseFile.ofDump? bytes).map .database).getD (.file bytes)

/-- What has been opened. What cannot be read is a directory. -/
def readOpened (h : IO.FS.Handle) : IO DiskEntry := do
  try
    return entryOf (← h.readBinToEnd).toList
  catch _ => return .directory

/-- What is at a place, if it can be opened. -/
def readEntry (l : Location) : IO (Option DiskEntry) := do
  try
    return some (← readOpened (← IO.FS.Handle.mk (Disk.pathOf l) .read))
  catch _ => return none

/-- The variables that settings are read from. -/
def variableNames : List String :=
  ["HOME", "CHESSDB_DATA_DIR", "CHESSDB_DECODE_WORKERS", "CHESSDB_WRITER_WORKERS", "CHESSDB_BATCH_SIZE",
    "CHESSDB_FLUSH_INTERVAL_MS", "CHESSDB_QUEUE_CAPACITY"]

def readEnvironment : IO Environment := do
  let vars ← variableNames.filterMapM fun name => do
    return (← IO.getEnv name).map fun value => (name, value)
  return ⟨vars⟩

/-- The paths that an address holds. -/
def DatabaseAddress.paths : DatabaseAddress → List String
  | .memory _ => []
  | .file use => use.path :: use.permissionsOf.toList

/-- The paths that a command line leads to. -/
def pathsOf (e : Environment) (args : List String) : List String :=
  match Invocation.ofArguments none args with
  | .error _ => []
  | .ok i =>
    let database := i.database.getD e.databasePath
    let paths := database :: ((DatabaseAddress.ofText? database).map (·.paths)).getD []
    match i.command with
    | .importFile file _ => file :: paths
    | _ => paths

/-- The places that a path comes by, and those named after the last of them. -/
def placesOf (d : Disk) (path : String) : List Location :=
  let places := d.placesAlong path
  Disk.companionEndings.map (Disk.companion (places.headD [])) ++ places

/-- Looks at all the places that have to do with some paths. -/
def readDisk (paths : List String) : IO Disk := do
  let here : Disk := ⟨Disk.names (toString (← IO.currentDir)), []⟩
  let places := (paths.flatMap (placesOf here)).eraseDups
  let entries ← places.filterMapM fun l => do return (← readEntry l).map fun e => (l, e)
  return { here with entries }

def writeEntry (l : Location) : DiskEntry → IO Unit
  | .directory => IO.FS.createDirAll (Disk.pathOf l)
  | .file bytes => IO.FS.writeBinFile (Disk.pathOf l) ⟨bytes.toArray⟩
  | .database content => IO.FS.writeBinFile (Disk.pathOf l) ⟨content.dump.toArray⟩
  | .device => pure ()

/-- Writes what is not on the disk as it was, and removes what is no longer there. -/
def writeChanges (before after : Disk) : IO Unit := do
  before.entries.forM fun (l, _) => if (after.get? l).isSome then pure () else IO.FS.removeFile (Disk.pathOf l)
  after.entries.reverse.forM fun (l, e) => if before.entries.lookup l = some e then pure () else writeEntry l e

/-- A key table drawn at random. -/
def drawKeys : IO FingerprintKeys := do
  let bytes ← IO.getRandomBytes 8
  return .ofSeed (bytes.toList.foldl (fun seed b => seed * 256 + b.toUInt64) 0)

def printOutput : CommandOutput → IO Unit
  | .nothing => pure ()
  | .text t => IO.print t
  | .document d => IO.println (d.render 0)

/-- Runs the program and gives its exit code. -/
def runProgram (args : List String) : IO UInt32 := do
  let environment ← readEnvironment
  let before ← readDisk (pathsOf environment args)
  let (outcome, after) := CommandLine.run ⟨environment, before, ← drawKeys⟩ args
  writeChanges before after
  printOutput outcome.output
  match outcome.error with
  | some e => IO.eprintln ("Error: " ++ e)
  | none => pure ()
  return outcome.exitCode.toUInt32

end ChessArchive

def main (args : List String) : IO UInt32 := ChessArchive.runProgram args
