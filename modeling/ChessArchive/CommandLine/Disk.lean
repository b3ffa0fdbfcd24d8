import ChessArchive.Store.Dump

/-! The part of a disk that a command sees: some files and directories, and the directory in which it works. A
    path can be followed, from directory to directory, or be spelled out name by name without a look at what is
    there; the two differ where the way leads back out of something that is no directory. -/

namespace ChessArchive

/-- A place on a disk: the names on the way to it from the root. -/
abbrev Location := List String

inductive DiskEntry where
  | directory
  | file (bytes : List UInt8)
  | database (content : DatabaseFile)
  /-- A device, which is empty and stays so. -/
  | device
  deriving DecidableEq

/-- The bytes that can be read; none if it is a directory. -/
def DiskEntry.bytes? : DiskEntry → Option (List UInt8)
  | directory => none
  | file bytes => some bytes
  | database content => some content.dump
  | device => some []

structure Disk where
  workingDirectory : Location
  entries : List (Location × DiskEntry)

namespace Disk

/-- The longest name of a file or directory, in bytes. -/
def maxNameSize : Nat := 255

/-- The longest path that can be followed, in bytes. -/
def maxPathSize : Nat := 4095

/-- The longest path that can be spelled out, in bytes. -/
def maxSpelledSize : Nat := 511

/-! ### Entries -/

/-- What is at a place. The working directory and those above it are always there. -/
def get? (d : Disk) (l : Location) : Option DiskEntry :=
  if l.isPrefixOf d.workingDirectory then some .directory else d.entries.lookup l

def put (d : Disk) (l : Location) (e : DiskEntry) : Disk :=
  { d with entries := (l, e) :: d.entries.filter (·.1 ≠ l) }

def remove (d : Disk) (l : Location) : Disk := { d with entries := d.entries.filter (·.1 ≠ l) }

def isDirectory (d : Disk) (l : Location) : Bool := d.get? l = some .directory

/-- There is something, but it is no directory. -/
def isObstacle (d : Disk) (l : Location) : Bool := (d.get? l).any (· ≠ .directory)

/-! ### Paths -/

/-- Where a path starts. -/
def start (d : Disk) (path : String) : Location :=
  if path.toList.head? = some '/' then [] else d.workingDirectory

/-- The names that take a path further. A dot does not, and neither does a slash too many. -/
def names (path : String) : List String := (path.splitOn "/").filter fun name => name ≠ "" ∧ name ≠ "."

/-- Goes from a place to a name, two dots being the way back. -/
def move (place : Location) (name : String) : Location := if name = ".." then place.dropLast else place ++ [name]

/-- Follows one part of a path, which has to start from a directory. -/
def follow? (d : Disk) (place : Location) (part : String) : Option Location :=
  if d.isDirectory place then some (if part = "" ∨ part = "." then place else move place part) else none

/-- The place that a path leads to, whether there is something or not. -/
def locate? (d : Disk) (path : String) : Option Location :=
  if path ≠ "" ∧ path.utf8ByteSize ≤ maxPathSize then (path.splitOn "/").foldlM d.follow? (d.start path) else none

/-- The path of a place. -/
def pathOf (l : Location) : String := "/" ++ "/".intercalate l

/-- A name can be put behind a place: neither the name nor the path is too long then, and the place is not that of
    something below which nothing can be. -/
def canSpell (d : Disk) (place : Location) (name : String) : Bool :=
  name.utf8ByteSize ≤ maxNameSize && (pathOf (place ++ [name])).utf8ByteSize ≤ maxSpelledSize && !d.isObstacle place

/-- Goes on to a name, or back, without a look at what there is. -/
def spellName? (d : Disk) (place : Location) (name : String) : Option Location :=
  if name = ".." || d.canSpell place name then some (move place name) else none

/-- The place that a path spells. Nothing on the way has to be there. -/
def spell? (d : Disk) (path : String) : Option Location := (d.start path ++ names path).foldlM d.spellName? []

/-- The places that a path comes by, whichever way it is read. -/
def placesAlong (d : Disk) (path : String) : List Location :=
  (names path).foldl (fun places name => move (places.headD []) name :: places) [d.start path]

/-! ### Making files and directories -/

/-- Makes the directories that are missing on the way from a place over some names, and says whether the whole
    way is there then. Those before an obstacle stay. -/
def makeDirectories (d : Disk) (place : Location) : List String → Disk × Bool
  | [] => (d, true)
  | name :: rest =>
    let next := move place name
    match d.get? next with
    | some .directory => d.makeDirectories next rest
    | some _ => (d, false)
    | none =>
      if name.utf8ByteSize ≤ maxNameSize then (d.put next .directory).makeDirectories next rest else (d, false)

/-- What of a path is above its last name. Slashes and dots around that do not count. -/
def parentOf (path : String) : String :=
  let trim (parts : List String) := parts.dropWhile fun part => part = "" ∨ part = "."
  "/".intercalate (trim ((trim (path.splitOn "/").reverse).drop 1)).reverse

/-- Makes the directories above what a path names, if what is above it can be followed at all. -/
def makeParents (d : Disk) (path : String) : Disk × Bool :=
  if (parentOf path).utf8ByteSize ≤ maxPathSize then d.makeDirectories (d.start path) (names path).dropLast
  else (d, false)

/-- Makes a file, with the directories on the way to it. -/
def write (d : Disk) (path : String) (bytes : List UInt8) : Disk :=
  let d := (d.makeParents path).1
  match d.locate? path with
  | some place => d.put place (.file bytes)
  | none => d

end Disk
end ChessArchive
