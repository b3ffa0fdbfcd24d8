import ChessArchive.Archive
import ChessArchive.CommandLine.DatabaseAddress
import ChessArchive.CommandLine.Disk

/-! Databases in files. Beside its file a database may have a journal, from which a change that was broken off is
    undone, and, if changes are written ahead, a log of changes and the memory that all who use the file share. The
    latter two are there as long as the database is open; a database that is only read leaves them behind. -/

namespace ChessArchive

/-- An archive that has been opened. -/
structure OpenDatabase where
  /-- The file in which the store is kept. Without one it is not kept. -/
  place : Option Location
  /-- Changes are written ahead to a file of their own. -/
  writesAhead : Bool
  archive : Archive

namespace DatabaseFile

/-- The database for reading, which takes tables that have been made. -/
def openForReading? (f : DatabaseFile) : Option OpenDatabase :=
  f.store.map fun s => ⟨none, f.writesAhead, .readOnly s⟩

/-- The database of a file at a place. Tables that are missing are made. -/
def openForWriting (f : DatabaseFile) (place : Location) : OpenDatabase :=
  ⟨some place, f.writesAhead, .ofStore (f.store.getD .empty)⟩

end DatabaseFile

/-- What is at a place, as a file of a database. A file of a single byte counts as empty. -/
def DiskEntry.database? : DiskEntry → Option DatabaseFile
  | database content => some content
  | file bytes => if bytes.length ≤ 1 then some .blank else none
  | _ => none

namespace Disk

/-- The longest path of the file of a database, in bytes. -/
def maxDatabasePathSize : Nat := 504

/-- The longest name of the file of a database, in bytes: a journal is named after it. -/
def maxDatabaseNameSize : Nat := 247

/-- The place of the file of a database. -/
def databasePlace? (d : Disk) (path : String) : Option Location :=
  (d.spell? path).filter fun place => (pathOf place).utf8ByteSize ≤ maxDatabasePathSize

/-! ### Beside the file -/

/-- The endings of the names of what may be beside the file of a database. -/
def companionEndings : List String := ["-journal", "-wal", "-shm", ".lock"]

/-- The place of something that is named after a file. -/
def companion (place : Location) (ending : String) : Location := place.dropLast ++ [place.getLastD "" ++ ending]

def journal (place : Location) : Location := companion place "-journal"

def changeLog (place : Location) : Location := companion place "-wal"

def sharedMemory (place : Location) : Location := companion place "-shm"

/-- Puts something where there is nothing. -/
def ensure (d : Disk) (l : Location) (e : DiskEntry) : Disk := if (d.get? l).isSome then d else d.put l e

/-- There is a change to be undone. -/
def hasJournal (d : Disk) (place : Location) : Bool :=
  (((d.get? (journal place)).bind DiskEntry.bytes?).bind List.head?).any (· ≠ 0)

/-- There are changes that have been written ahead. -/
def hasChanges (d : Disk) (place : Location) : Bool := ((d.get? (changeLog place)).bind DiskEntry.bytes?).any (· ≠ [])

/-- What stands beside the file keeps a database from being used. -/
def isBlocked (d : Disk) (u : FileUse) (place : Location) : Bool :=
  d.isDirectory (journal place) || d.isDirectory (changeLog place)
    || maxDatabaseNameSize < (place.getLastD "").utf8ByteSize
    || (u.isLocked && u.system = .dotfile && (d.get? (companion place ".lock")).isSome)

/-! ### Opening -/

abbrev Opening := Disk × Option OpenDatabase

/-- Opens a database whose changes are written ahead. One that may change becomes such a database. -/
def openAhead (d : Disk) (u : FileUse) (place : Location) (f : DatabaseFile) : Opening :=
  let reads := u.access = .reading
  if reads && (!f.writesAhead || d.hasJournal place) then (d, none)
  else
    let d := if !f.writesAhead || d.hasJournal place then d.remove (journal place) else d
    let f := { f with writesAhead := true }
    let d := (if reads then d else d.put place (.database f)).ensure (changeLog place) (.file [])
    let memory := sharedMemory place
    if !u.hasSharedFile then (d, some (f.openForWriting place))
    else if u.leavesSharedMemory && (d.get? memory).isNone then (d, none)
    else
      let fixed := reads || u.leavesSharedMemory || d.isDirectory memory
      (d.ensure memory (.file [0]), if fixed then f.openForReading? else some (f.openForWriting place))

/-- Opens a database that is changed in place. -/
def openInPlace (d : Disk) (u : FileUse) (place : Location) (f : DatabaseFile) : Opening :=
  if f.writesAhead || (f ≠ .blank && d.hasChanges place) then (d, none)
  else if u.access = .reading then (d, if d.hasJournal place then none else f.openForReading?)
  else
    let d := d.remove (journal place)
    (if f = .blank then d.remove (changeLog place) else d, some (f.openForWriting place))

/-- The file at a place, on a disk where it has been made if that is allowed. -/
def makeDatabase? (d : Disk) (access : FileAccess) (place : Location) : Option (Disk × DatabaseFile) :=
  match d.get? place with
  | some e => e.database?.map fun f => (d, f)
  | none =>
    if access = .making && d.isDirectory place.dropLast then some (d.put place (.file []), .blank) else none

/-- Opens the database in a file. What has been made on the way stays, though it may fail. -/
def openFile (d : Disk) (u : FileUse) : Opening :=
  if u.permissionsOf.any fun path => ((d.locate? path).bind d.get?).isNone then (d, none)
  else
    match d.databasePlace? u.path with
    | none => (d, none)
    | some place =>
      match d.makeDatabase? u.access place with
      | none => (d, none)
      | some (d, f) =>
        if u.isFrozen then (d, f.openForReading?)
        else if d.isBlocked u place then (d, none)
        else if u.canWriteAhead then d.openAhead u place f
        else d.openInPlace u place f

end Disk
end ChessArchive
