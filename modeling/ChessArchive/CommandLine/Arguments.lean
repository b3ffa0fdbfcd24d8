import ChessArchive.Search.Request
import ChessArchive.Settings

/-! The arguments of the command line. Options may stand anywhere after the command that they belong to, each at
    most once, with the value behind an equals sign or as the next argument; after two dashes nothing is an option
    any more. Arguments are read one after the other, and the first that stops the reading decides. -/

namespace ChessArchive

/-- The sizes of an import that the command line gives. -/
structure ImportOptions where
  decodeWorkers : Option Nat
  writerWorkers : Option Nat
  batchSize : Option Nat
  flushInterval : Option Nat
  deriving DecidableEq, Repr

inductive Command where
  | importFile (file : String) (options : ImportOptions)
  | search (request : SearchRequest)
  | reindex (missingOnly : Bool)
  | report
  | delete (game : Int)
  | stats

structure Invocation where
  database : Option String
  command : Command

/-- Why there is no command to run. -/
inductive ArgumentStop where
  | usage
  | help
  | version
  deriving DecidableEq, Repr

/-- The value of an argument. -/
inductive ArgumentValue where
  | flag
  | text (value : String)
  | number (value : Int)
  | mode (value : SearchMode)
  | side (value : Color)
  deriving DecidableEq, Repr

/-- How the value of an argument is read. -/
inductive ArgumentKind where
  | flag
  | text
  /-- A text that is not empty. -/
  | path
  /-- An unsigned number of 64 bits. -/
  | size
  /-- A number from 0 to the largest unsigned one of 32 bits. -/
  | count
  /-- A signed number of 64 bits. -/
  | id
  | mode
  | side
  deriving DecidableEq, Repr

namespace ArgumentKind

/-- Reads the name or letter of a side. -/
def readSide (s : String) : Option Color :=
  match s.toLower with
  | "w" | "white" => some .white
  | "b" | "black" => some .black
  | _ => none

/-- Reads a value. -/
def read (k : ArgumentKind) (s : String) : Option ArgumentValue :=
  match k with
  | flag => none
  | text => some (.text s)
  | path => if s = "" then none else some (.text s)
  | size => (Text.natUpTo? Text.uint64Max s.toList).map fun n => .number n
  | count => ((Text.intWithin? Text.int64Bound s.toList).filter fun n : Int => 0 ≤ n ∧ n ≤ Text.uint32Max).map .number
  | id => (Text.intWithin? Text.int64Bound s.toList).map .number
  | mode => (SearchMode.ofName? s).map .mode
  | side => (readSide s).map .side

end ArgumentKind

/-- What may be given to a command. -/
structure ArgumentTable where
  options : List (String × ArgumentKind)
  /-- The argument that is given without a name. -/
  positional : Option (String × ArgumentKind)

/-- Arguments that have been read, by name. -/
abbrev Arguments := List (String × ArgumentValue)

namespace Arguments

def text? (a : Arguments) (name : String) : Option String :=
  match a.lookup name with
  | some (.text s) => some s
  | _ => none

def number? (a : Arguments) (name : String) : Option Nat :=
  match a.lookup name with
  | some (.number n) => some n.toNat
  | _ => none

def int? (a : Arguments) (name : String) : Option Int :=
  match a.lookup name with
  | some (.number n) => some n
  | _ => none

def mode? (a : Arguments) (name : String) : Option SearchMode :=
  match a.lookup name with
  | some (.mode m) => some m
  | _ => none

def side? (a : Arguments) (name : String) : Option Color :=
  match a.lookup name with
  | some (.side c) => some c
  | _ => none

/-- Adds a value that has not been given before. -/
def add (a : Arguments) (name : String) (value : Option ArgumentValue) : Except ArgumentStop Arguments :=
  match value, a.lookup name with
  | some v, none => .ok ((name, v) :: a)
  | _, _ => .error .usage

end Arguments

namespace ArgumentTable

/-- An argument that has the form of an option. A lone dash has not. -/
def looksLikeOption (s : String) : Bool :=
  match s.toList with
  | '-' :: _ :: _ => true
  | _ => false

/-- The name of a long option and the value behind its equals sign, if it has one. -/
def splitLong (s : List Char) : String × Option String :=
  match s.dropWhile (· ≠ '=') with
  | '=' :: value => (String.ofList (s.takeWhile (· ≠ '=')), some (String.ofList value))
  | _ => (String.ofList s, none)

/-- Reads an argument that is given without a name. -/
def readPositional (t : ArgumentTable) (s : String) (a : Arguments) : Except ArgumentStop Arguments :=
  match t.positional with
  | some (name, kind) => a.add name (kind.read s)
  | none => .error .usage

/-- Reads all arguments of a command. -/
def readAll (t : ArgumentTable) (a : Arguments) : List String → Except ArgumentStop Arguments
  | [] => .ok a
  | s :: rest =>
    match s.toList with
    | ['-', '-'] => rest.foldlM (fun a s => t.readPositional s a) a
    | '-' :: '-' :: long =>
      match splitLong long, rest with
      | ("help", none), _ => .error .help
      | (name, value), rest =>
        match t.options.lookup name, value, rest with
        | some .flag, none, rest => do readAll t (← a.add name (some .flag)) rest
        | some kind, some v, rest => do readAll t (← a.add name (kind.read v)) rest
        | some kind, none, v :: rest =>
          if looksLikeOption v then .error .usage else do readAll t (← a.add name (kind.read v)) rest
        | _, _, _ => .error .usage
    | '-' :: 'h' :: _ => .error .help
    | '-' :: _ :: _ => .error .usage
    | _ => do readAll t (← t.readPositional s a) rest

end ArgumentTable

/-! ### The commands -/

/-- An option that every command takes. -/
def databaseOption : String × ArgumentKind := ("database", .path)

/-- What each command takes. -/
def commandTables : List (String × ArgumentTable) := [
  ("import", ⟨[databaseOption, ("decode-workers", .size), ("writer-workers", .size), ("batch-size", .size),
    ("flush-interval-ms", .size)], some ("file", .path)⟩),
  ("search", ⟨[databaseOption, ("mode", .mode), ("side-to-move", .side), ("white", .text), ("black", .text),
    ("player", .text), ("eco", .text), ("opening", .text), ("result", .text), ("date-from", .text),
    ("date-to", .text), ("min-elo", .count), ("max-elo", .count), ("page", .count), ("page-size", .count)],
    some ("pattern", .text)⟩),
  ("reindex", ⟨[databaseOption, ("missing-only", .flag)], none⟩),
  ("report", ⟨[databaseOption], none⟩),
  ("delete", ⟨[databaseOption], some ("game-id", .id)⟩),
  ("stats", ⟨[databaseOption], none⟩)]

/-- The header filter that a search is given. -/
def Arguments.filter (a : Arguments) : GameFilter where
  white := a.text? "white"
  black := a.text? "black"
  player := a.text? "player"
  eco := a.text? "eco"
  opening := a.text? "opening"
  result := a.text? "result"
  dateFrom := a.text? "date-from"
  dateTo := a.text? "date-to"
  minElo := a.number? "min-elo"
  maxElo := a.number? "max-elo"

/-- The command of a name with its arguments; none if one that it needs is missing. -/
def Command.ofArguments? (name : String) (a : Arguments) : Option Command :=
  match name with
  | "import" => (a.text? "file").map fun file => .importFile file {
      decodeWorkers := a.number? "decode-workers"
      writerWorkers := a.number? "writer-workers"
      batchSize := a.number? "batch-size"
      flushInterval := a.number? "flush-interval-ms" }
  | "search" => some (.search {
      mode := (a.mode? "mode").getD .pattern
      pattern := (a.text? "pattern").getD ""
      side := a.side? "side-to-move"
      filter := a.filter
      page := (a.number? "page").getD 1
      pageSize := (a.number? "page-size").getD 20 })
  | "reindex" => some (.reindex (a.lookup "missing-only").isSome)
  | "report" => some .report
  | "delete" => (a.int? "game-id").map .delete
  | "stats" => some .stats
  | _ => none

namespace Invocation

/-- Reads a command with its arguments. The database may have been named before it; after it counts more. -/
def ofCommand (database : Option String) (name : String) (args : List String) : Except ArgumentStop Invocation :=
  match commandTables.lookup name with
  | none =>
    if name = "help" && args.length ≤ 1 && args.all (fun c => c = "help" || (commandTables.lookup c).isSome) then
      .error .help
    else .error .usage
  | some table => do
    let a ← table.readAll [] args
    match Command.ofArguments? name a with
    | some command => return ⟨(a.text? "database").or database, command⟩
    | none => throw .usage

/-- Reads a command line. -/
def ofArguments (database : Option String) : List String → Except ArgumentStop Invocation
  | [] => .error .usage
  | s :: rest =>
    match s.toList with
    | '-' :: '-' :: long =>
      match ArgumentTable.splitLong long, database, rest with
      | ("help", none), _, _ => .error .help
      | ("version", none), _, _ => .error .version
      | ("database", some path), none, rest => if path = "" then .error .usage else ofArguments (some path) rest
      | ("database", none), none, path :: rest =>
        if path = "" || ArgumentTable.looksLikeOption path then .error .usage else ofArguments (some path) rest
      | _, _, _ => .error .usage
    | '-' :: 'h' :: _ => .error .help
    | '-' :: 'V' :: _ => .error .version
    | '-' :: _ :: _ => .error .usage
    | _ => ofCommand database s rest

end Invocation
end ChessArchive
