import ChessArchive.CommandLine.Url

/-! Addresses of databases. What names a database is read as the rest of a URL of the scheme `sqlite`: with percent
    codes, and with parameters behind a question mark. A name that is left after that and starts with `file:` is
    a URL once more, with parameters of its own, unless a system or that the file does not change has been asked
    for: the name is taken as it is then. -/

namespace ChessArchive

/-! ### The use of a file -/

/-- How much is done with a file. -/
inductive FileAccess where
  | reading
  /-- The file may change, but it has to be there. -/
  | changing
  /-- The file may change, and is made if it is missing. -/
  | making
  deriving DecidableEq, Repr

namespace FileAccess

/-- The extent of an access: a larger one allows what a smaller one does. -/
def extent : FileAccess → Nat
  | reading => 0
  | changing => 1
  | making => 2

def ofName? : String → Option FileAccess
  | "ro" => some reading
  | "rw" => some changing
  | "rwc" => some making
  | _ => none

end FileAccess

/-- A system through which files are used. -/
inductive FileSystem where
  /-- Many programs use a file at once. -/
  | shared
  /-- A program that changes a file has it for itself. -/
  | exclusive
  /-- What locks a file stands beside it. -/
  | dotfile
  /-- Files are not locked. -/
  | unlocked
  /-- Files are kept in memory. -/
  | memory
  deriving DecidableEq, Repr

def FileSystem.ofName? : String → Option FileSystem
  | "unix" => some shared
  | "unix-excl" => some exclusive
  | "unix-dotfile" => some dotfile
  | "unix-none" => some unlocked
  | "memdb" => some memory
  | _ => none

/-- How a database uses its file. -/
structure FileUse where
  path : String
  access : FileAccess
  system : FileSystem
  /-- The file does not change while it is used. -/
  isFrozen : Bool
  /-- The file is locked while it is used. -/
  isLocked : Bool
  /-- The memory that all who use the file share is not changed. -/
  leavesSharedMemory : Bool
  /-- The path of something whose permissions the file gets. -/
  permissionsOf : Option String
  deriving DecidableEq, Repr

/-- Changes can be written ahead to a file of their own, which takes locks and shared memory. -/
def FileUse.canWriteAhead (u : FileUse) : Bool := u.isLocked && (u.system = .shared || u.system = .exclusive)

/-- The shared memory is a file. It is not if a program that changes a file has it for itself. -/
def FileUse.hasSharedFile (u : FileUse) : Bool := u.system = .shared || u.access = .reading

inductive DatabaseAddress where
  /-- A database in memory, which may be shared by all connections to it or have a single one. -/
  | memory (isShared : Bool)
  | file (use : FileUse)
  deriving DecidableEq, Repr

/-! ### What a URL asks for -/

structure DatabaseRequest where
  access : FileAccess
  inMemory : Bool
  isShared : Bool
  isFrozen : Bool
  /-- The name of a system. -/
  system : Option String
  deriving DecidableEq, Repr

namespace DatabaseRequest

def default : DatabaseRequest := ⟨.making, false, false, false, none⟩

/-- What is asked for by a name that stands for memory. -/
def ofMemory : DatabaseRequest := { default with inMemory := true, isShared := true }

/-- Takes a parameter of the outer URL into account; none if it is unknown. Unless a file is only read it is made,
    whatever the parameters say about that. -/
def readParameter? (r : DatabaseRequest) : Url.Parameter → Option DatabaseRequest
  | ("mode", "ro") => some { r with access := .reading }
  | ("mode", "rw") | ("mode", "rwc") => some r
  | ("mode", "memory") => some { r with inMemory := true, isShared := true }
  | ("cache", "private") => some { r with isShared := false }
  | ("cache", "shared") => some { r with isShared := true }
  | ("immutable", "true") | ("immutable", "1") => some { r with isFrozen := true }
  | ("immutable", "false") | ("immutable", "0") => some { r with isFrozen := false }
  | ("vfs", system) => some { r with system }
  | _ => none

/-- The parameters of a URL of a file that say what the outer URL asked for. -/
def fileQuery (r : DatabaseRequest) : String :=
  "&".intercalate ((if r.isFrozen then ["immutable=true"] else []) ++ r.system.toList.map ("vfs=" ++ ·))

/-- Changes the access, which can only be narrowed down as long as the database is in a file. -/
def readMode? (r : DatabaseRequest) (mode : String) : Option DatabaseRequest :=
  if mode = "memory" then some { r with inMemory := true, access := .changing }
  else
    match FileAccess.ofName? mode with
    | some access =>
      if r.inMemory || access.extent ≤ r.access.extent then some { r with access, inMemory := false } else none
    | none => none

/-- Takes a parameter of the URL of a file into account. One that is unknown is ignored, but not a value that is. -/
def readFileParameter? (r : DatabaseRequest) : Url.Parameter → Option DatabaseRequest
  | ("mode", mode) => r.readMode? mode
  | ("cache", "private") => some { r with isShared := false }
  | ("cache", "shared") => some { r with isShared := true }
  | ("cache", _) => none
  | ("vfs", system) => some { r with system }
  | _ => some r

/-- The name of a file of which every connection knows that it is in memory. -/
def isCommonName (path : String) : Bool := 1 < path.utf8ByteSize && ['/', '\\'].contains (path.toList.headD ' ')

/-- The address that a path has, which may come from the URL of a file with some parameters. A switch is what its
    first parameter says. A database in memory is new each time, so that it is of no use if it is only read. -/
def address? (r : DatabaseRequest) (path : String) (params : Option (List Url.Parameter)) : Option DatabaseAddress := do
  let given := params.getD []
  let isOn (name : String) : Bool := (given.lookup name).any Url.isOn
  let r ← given.foldlM readFileParameter? r
  let system ← FileSystem.ofName? (r.system.getD "unix")
  if path = "" || path = ":memory:" || r.inMemory then
    if r.access = .reading then none else some (.memory (r.isShared && params.isSome && path ≠ ""))
  else if system = .memory then
    if r.access = .reading || isOn "immutable" then none else some (.memory (r.isShared || isCommonName path))
  else
    some (.file ⟨path, r.access, system, isOn "immutable", !isOn "nolock", isOn "readonly_shm", given.lookup "modeof"⟩)

end DatabaseRequest

namespace DatabaseAddress

/-! ### Reading -/

/-- The beginnings of a URL of a database. -/
def scheme : List Char := "sqlite:".toList

/-- The beginning of a URL of a file. -/
def fileScheme : List Char := "file:".toList

/-- The name of a database in memory. -/
def memoryName : List Char := ":memory:".toList

/-- Reads the name of a file, of which more has been asked for. -/
def ofName? (r : DatabaseRequest) (name : List Char) : Option DatabaseAddress :=
  if r.isFrozen || r.system.isSome then
    let query := r.fileQuery.toList
    if '\x00' ∈ query then none
    else
      { r with system := none }.address? (String.ofList (name.takeWhile (· ≠ '\x00')))
        (some (Url.fileParameters (Url.splitFirst '#' query).1))
  else if '\x00' ∈ name then none
  else if fileScheme.isPrefixOf name then do
    let (path, params) ← Url.filePath? (name.drop fileScheme.length)
    r.address? path (some params)
  else r.address? (String.ofList name) none

/-- Reads what names a database. -/
def ofText? (text : String) : Option DatabaseAddress := do
  let url := Url.dropRepeated scheme (Url.dropRepeated (scheme ++ ['/', '/']) (scheme ++ text.toList))
  let (name, params) := Url.splitFirst '?' url
  let isMemory := name = memoryName
  let r ← (Url.formParameters (params.getD [])).foldlM DatabaseRequest.readParameter?
    (if isMemory then .ofMemory else .default)
  if isMemory then ofName? r (fileScheme ++ "memory".toList) else ofName? r (← Text.percentText? name)

end DatabaseAddress
end ChessArchive
