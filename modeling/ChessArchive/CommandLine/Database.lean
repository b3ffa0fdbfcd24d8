import ChessArchive.CommandLine.DatabaseFile

/-! Databases on a disk: a store is kept in a file as a whole. The address of a database spells the place of its
    file, but the directories above what names the database are made first, whatever that spells. -/

namespace ChessArchive

/-- A database in memory. Work is done over a second connection, so that without sharing it finds no tables. -/
def OpenDatabase.inMemory (isShared : Bool) : OpenDatabase :=
  let archive := Archive.ofStore .empty
  ⟨none, false, if isShared then archive else archive.close⟩

namespace Disk

/-- Opens the database at an address. -/
def openAddress (d : Disk) : DatabaseAddress → Opening
  | .memory isShared => (d, some (.inMemory isShared))
  | .file use => d.openFile use

/-- Opens the database that a text names. Directories that have been made stay, though it may fail. -/
def openDatabase (d : Disk) (text : String) : Opening :=
  match d.makeParents text, DatabaseAddress.ofText? text with
  | (d, true), some a => d.openAddress a
  | (d, _), _ => (d, none)

/-- Keeps the store of a database in its file. -/
def keep (d : Disk) (b : OpenDatabase) : Disk :=
  match b.place with
  | some place => d.put place (.database ⟨some b.archive.store, b.writesAhead⟩)
  | none => d

/-- Closes a database. Of changes that were written ahead nothing is left beside its file. -/
def closeDatabase (d : Disk) (b : OpenDatabase) : Disk :=
  let d := d.keep b
  match b.place with
  | some place => if b.writesAhead then (d.remove (changeLog place)).remove (sharedMemory place) else d
  | none => d

end Disk
end ChessArchive
