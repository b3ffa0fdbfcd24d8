import ChessArchive.Store

/-! Files of databases, and their form: a heading, a line on the file itself, and one line per record, newest first,
    with tabs between fields. Tabs, line feeds and backslashes inside a field are escaped. -/

namespace ChessArchive

/-- What the file of a database holds. -/
structure DatabaseFile where
  /-- None as long as there are no tables. -/
  store : Option Store
  /-- Changes are written ahead to a file of their own. -/
  writesAhead : Bool
  deriving DecidableEq

/-- A file that holds nothing yet. -/
def DatabaseFile.blank : DatabaseFile := ⟨none, false⟩

namespace Dump

/-- The first line of the file of a database. -/
def heading : String := "chess archive 1"

/-! ### Fields -/

/-- Escapes what has a meaning of its own in a line. -/
def escape : List Char → List Char
  | [] => []
  | c :: s =>
    (if c = '\\' then ['\\', '\\'] else if c = '\t' then ['\\', 't'] else if c = '\n' then ['\\', 'n'] else [c])
      ++ escape s

/-- Undoes `escape`. -/
def unescape : List Char → List Char
  | '\\' :: '\\' :: s => '\\' :: unescape s
  | '\\' :: 't' :: s => '\t' :: unescape s
  | '\\' :: 'n' :: s => '\n' :: unescape s
  | c :: s => c :: unescape s
  | [] => []

def writeText (s : String) : String := String.ofList (escape s.toList)

def readText (s : String) : String := String.ofList (unescape s.toList)

/-- A field that may be absent: a dash, or an equals sign before the text. -/
def writeOpt : Option String → String
  | none => "-"
  | some s => "=" ++ writeText s

def readOpt (s : String) : Option (Option String) :=
  match s.toList with
  | ['-'] => some none
  | '=' :: cs => some (some (String.ofList (unescape cs)))
  | _ => none

def readOptInt (s : String) : Option (Option Int) :=
  match readOpt s with
  | some (some t) => t.toInt?.map some
  | some none => some none
  | none => none

def readColor : String → Option Color
  | "w" => some .white
  | "b" => some .black
  | _ => none

/-! ### Records -/

def writeGame (g : StoredGame) : List String :=
  let m := g.metadata
  ["game", toString g.id, writeOpt m.event, writeOpt m.site, writeOpt m.date, writeOpt m.round, writeText m.white,
    writeText m.black, writeText m.result, writeOpt (m.whiteElo.map toString), writeOpt (m.blackElo.map toString),
    writeOpt m.eco, writeOpt m.opening, writeOpt m.variation, writeText g.moves, writeOpt g.startFen]

def writePosition (p : StoredPosition) : List String :=
  ["position", toString p.id, toString p.game, toString p.number, writeOpt p.san, writeText p.board,
    String.singleton p.side.letter, p.castling.text, toString p.fingerprint.toNat, writeText p.material]

def writeRow (r : IndexRow) : List String :=
  ["row", toString r.position, toString r.square.val, String.singleton r.piece.symbol]

def writeKey (k : StoredKey) : List String := ["key", toString k.slot, toString k.key.toInt]

/-- Puts the record of a line before those of the lines after it. -/
def readRecord (fields : List String) (s : Store) : Option Store :=
  match fields with
  | ["game", id, event, site, date, round, white, black, result, whiteElo, blackElo, eco, opening, variation, moves,
      startFen] => do
    let metadata : Metadata := ⟨← readOpt event, ← readOpt site, ← readOpt date, ← readOpt round, readText white,
      readText black, readText result, ← readOptInt whiteElo, ← readOptInt blackElo, ← readOpt eco,
      ← readOpt opening, ← readOpt variation⟩
    return { s with games := ⟨← id.toInt?, metadata, readText moves, ← readOpt startFen⟩ :: s.games }
  | ["position", id, game, number, san, board, side, castling, fingerprint, material] => do
    let rights ← (CastlingRights.parse castling.toList).toOption
    let position := ⟨← id.toInt?, ← game.toInt?, ← number.toNat?, ← readOpt san, readText board, ← readColor side,
      rights, (← fingerprint.toNat?).toUInt64, readText material⟩
    return { s with positions := position :: s.positions }
  | ["row", position, square, piece] => do
    let q ← square.toNat?.bind Square.ofNat?
    let p ← piece.toList.head?.bind Piece.ofSymbol?
    return { s with rows := ⟨← position.toInt?, q, p⟩ :: s.rows }
  | ["key", slot, key] => do return { s with keys := ⟨← slot.toInt?, (← key.toInt?).toInt64⟩ :: s.keys }
  | _ => none

/-- The lines of a store. -/
def writeStore (s : Store) : List (List String) :=
  s.games.map writeGame ++ s.positions.map writePosition ++ s.rows.map writeRow ++ s.keys.map writeKey

def readStore (lines : List (List String)) : Option Store := lines.foldrM readRecord .empty

/-- The line on a file itself. -/
def writeState (f : DatabaseFile) : List String :=
  ["file", if f.writesAhead then "ahead" else "in place", if f.store.isSome then "tables" else "bare"]

/-- Reads the line on a file itself: whether changes are written ahead, and whether there are tables. -/
def readState : List String → Option (Bool × Bool)
  | ["file", "ahead", "tables"] => some (true, true)
  | ["file", "ahead", "bare"] => some (true, false)
  | ["file", "in place", "tables"] => some (false, true)
  | ["file", "in place", "bare"] => some (false, false)
  | _ => none

end Dump

namespace DatabaseFile

/-- The bytes of a file. -/
def dump (f : DatabaseFile) : List UInt8 :=
  let lines := Dump.writeState f :: (f.store.map Dump.writeStore).getD []
  ("\n".intercalate (Dump.heading :: lines.map "\t".intercalate)).toUTF8.toList

def ofLines? : List (List String) → Option DatabaseFile
  | state :: lines => do
    let (writesAhead, hasTables) ← Dump.readState state
    if hasTables then return ⟨some (← Dump.readStore lines), writesAhead⟩ else return ⟨none, writesAhead⟩
  | [] => none

/-- Reads the bytes of a file. -/
def ofDump? (bytes : List UInt8) : Option DatabaseFile := do
  match (← String.fromUTF8? ⟨bytes.toArray⟩).splitOn "\n" with
  | heading :: lines => if heading = Dump.heading then ofLines? (lines.map (·.splitOn "\t")) else none
  | [] => none

end DatabaseFile
end ChessArchive
