import ChessArchive.Search.Results

/-! The statements of a search as syntax, which stands between their text and what they mean. A statement puts the records
    of its tables side by side, keeps the joined rows that meet its tests, and gives columns of these, or their number.
    What a record does not have is NULL, and no comparison with NULL is true. -/

namespace ChessArchive

/-- Numbers come before texts. -/
def Param.le : Param → Param → Bool
  | int m, int n => m ≤ n
  | int _, text _ => true
  | text _, int _ => false
  | text s, text t => s ≤ t

/-- A value as the LIKE operator takes it. -/
def Param.asText : Param → String
  | int n => toString n
  | text s => s

namespace Sql

/-! ### Columns -/

inductive PositionColumn where
  | id
  | game
  | number
  | san
  | side
  | fingerprint
  | material

inductive LocationColumn where
  | position
  | square
  | piece

inductive GameColumn where
  | id
  | white
  | black
  | opening
  | eco
  | result
  | date
  | whiteElo
  | blackElo

/-- The tables, with the names that a statement gives them: `p`, `g`, and `l` with a number for each look-up. -/
inductive Table where
  | positions
  | locations (k : Nat)
  | games

/-- The index is read under this name. -/
def Table.isIndex : Table → Bool
  | locations _ => true
  | _ => false

inductive Column where
  | position (c : PositionColumn)
  | location (k : Nat) (c : LocationColumn)
  | game (c : GameColumn)

namespace PositionColumn

def name : PositionColumn → String
  | id => "id"
  | game => "game_id"
  | number => "move_number"
  | san => "move_san"
  | side => "side_to_move"
  | fingerprint => "fingerprint"
  | material => "material_signature"

def value (p : StoredPosition) : PositionColumn → Option Param
  | id => some (.int p.id)
  | game => some (.int p.game)
  | number => some (.int p.number)
  | san => p.san.map .text
  | side => some (.text (String.singleton p.side.letter))
  | fingerprint => some (.int p.fingerprint.toInt64.toInt)
  | material => some (.text p.material)

end PositionColumn

namespace LocationColumn

def name : LocationColumn → String
  | position => "position_id"
  | square => "square"
  | piece => "piece"

def value (r : IndexRow) : LocationColumn → Option Param
  | position => some (.int r.position)
  | square => some (.int r.square.val)
  | piece => some (.text (String.singleton r.piece.symbol))

end LocationColumn

namespace GameColumn

def name : GameColumn → String
  | id => "id"
  | white => "white"
  | black => "black"
  | opening => "opening"
  | eco => "eco"
  | result => "result"
  | date => "date"
  | whiteElo => "white_elo"
  | blackElo => "black_elo"

def value (g : StoredGame) : GameColumn → Option Param
  | id => some (.int g.id)
  | white => some (.text g.metadata.white)
  | black => some (.text g.metadata.black)
  | opening => g.metadata.opening.map .text
  | eco => g.metadata.eco.map .text
  | result => some (.text g.metadata.result)
  | date => g.metadata.date.map .text
  | whiteElo => g.metadata.whiteElo.map .int
  | blackElo => g.metadata.blackElo.map .int

end GameColumn

def Table.text : Table → String
  | positions => "positions p"
  | locations k => s!"piece_locations l{k}"
  | games => "games g"

def Column.text : Column → String
  | position c => "p." ++ c.name
  | location k c => s!"l{k}." ++ c.name
  | game c => "g." ++ c.name

/-! ### Joined rows -/

/-- The records that stand under the names of the tables. -/
structure Row where
  position : Option StoredPosition
  locations : List (Nat × IndexRow)
  game : Option StoredGame

namespace Row

def empty : Row := ⟨none, [], none⟩

/-- The value of a column; none for NULL. -/
def value (r : Row) : Column → Option Param
  | .position c => r.position.bind (c.value ·)
  | .location k c => (r.locations.lookup k).bind (c.value ·)
  | .game c => r.game.bind (c.value ·)

/-- The row with each record of a table beside it. -/
def joined (s : Store) (r : Row) : Table → List Row
  | .positions => s.positions.map fun p => { r with position := some p }
  | .locations k => s.rows.map fun l => { r with locations := (k, l) :: r.locations }
  | .games => s.games.map fun g => { r with game := some g }

end Row

/-! ### Tests -/

inductive Operator where
  | equal
  | atLeast
  | atMost

namespace Operator

def text : Operator → String
  | equal => "="
  | atLeast => ">="
  | atMost => "<="

def holds : Operator → Param → Param → Bool
  | equal, x, y => x = y
  | atLeast, x, y => y.le x
  | atMost, x, y => x.le y

end Operator

inductive Test where
  | constant (b : Bool)
  | compare (o : Operator) (c : Column) (v : Param)
  | same (c d : Column)
  | among (c : Column) (vs : List Param)
  | like (c : Column) (pattern : String)
  | both (t u : Test)
  | either (t u : Test)

namespace Test
open Statement (values)

def fragments : Test → List Fragment
  | constant b => [.text (if b then "1" else "0")]
  | compare o c v => [.text s!"{c.text} {o.text} ", .value v]
  | same c d => [.text s!"{c.text} = {d.text}"]
  | among c vs => .text s!"{c.text} IN (" :: values vs ++ [.text ")"]
  | like c pattern => [.text s!"{c.text} LIKE ", .value (.text pattern), .text " ESCAPE '\\'"]
  | both t u => .text "(" :: t.fragments ++ .text " AND " :: u.fragments ++ [.text ")"]
  | either t u => .text "(" :: t.fragments ++ .text " OR " :: u.fragments ++ [.text ")"]

/-- Whether a row meets a test; none for NULL. A pattern that is too long for the LIKE operator is an error. -/
def eval (r : Row) : Test → Except ArchiveError (Option Bool)
  | constant b => .ok (some b)
  | compare o c v => .ok ((r.value c).map (o.holds · v))
  | same c d => .ok ((r.value c).bind fun x => (r.value d).map fun y => decide (x = y))
  | among c vs => .ok ((r.value c).map vs.contains)
  | like c pattern =>
    if Like.maxPatternSize < pattern.utf8ByteSize then .error .database
    else .ok ((r.value c).map fun x => Like.holds pattern x.asText)
  | both t u => do
    match ← t.eval r with
    | some false => return some false
    | some true => u.eval r
    | none => return (← u.eval r).filter (!·)
  | either t u => do
    match ← t.eval r with
    | some true => return some true
    | some false => u.eval r
    | none => return (← u.eval r).filter id

end Test

/-- A row meets all tests. They are tried one after the other, up to the first that is not true. -/
def meets (r : Row) : List Test → Except ArchiveError Bool
  | [] => .ok true
  | t :: rest => do
    if (← t.eval r) = some true then meets r rest else return false

/-- The rows that meet all tests. -/
def keep (tests : List Test) : List Row → Except ArchiveError (List Row)
  | [] => .ok []
  | r :: rest => do
    let met ← meets r tests
    let kept ← keep tests rest
    return if met then r :: kept else kept

/-! ### Sources -/

structure Join where
  table : Table
  on : List Test

/-- What follows FROM, as far as the end of the WHERE clause. -/
structure Source where
  table : Table
  joins : List Join
  tests : List Test

/-- Tests that have to be met together. -/
def allOf (tests : List Test) : List Fragment := [Fragment.text " AND "].intercalate (tests.map Test.fragments)

namespace Join

def fragments (j : Join) : List Fragment := .text s!" JOIN {j.table.text} ON " :: allOf j.on

/-- Puts the records of a table beside each row, and keeps the rows that meet the tests. -/
def extend (s : Store) (rows : List Row) (j : Join) : Except ArchiveError (List Row) :=
  keep j.on (rows.flatMap (·.joined s j.table))

end Join

namespace Source

def fragments (q : Source) : List Fragment :=
  .text s!"FROM {q.table.text}" :: q.joins.flatMap Join.fragments ++ .text " WHERE " :: allOf q.tests

def tables (q : Source) : List Table := q.table :: q.joins.map (·.table)

/-- More tables than may be joined, or a table that is not there. -/
def isRefused (s : Store) (q : Source) : Bool :=
  maxJoinedTables < q.tables.length || q.tables.any Table.isIndex && s.damage.indexGone

/-- The joined rows, table by table, and of these the ones that meet the tests. -/
def rows (s : Store) (q : Source) : Except ArchiveError (List Row) := do
  if q.isRefused s then throw .database
  keep q.tests (← q.joins.foldlM (Join.extend s) (Row.empty.joined s q.table))

end Source

/-! ### Statements -/

inductive Direction where
  | ascending
  | descending

def Direction.text : Direction → String
  | ascending => "ASC"
  | descending => "DESC"

/-- The order of values, NULL first. -/
def nullsFirst : Option Param → Option Param → Bool
  | none, _ => true
  | some _, none => false
  | some x, some y => x.le y

/-- A value comes before another one. -/
def Direction.puts : Direction → Option Param → Option Param → Bool
  | ascending, x, y => nullsFirst x y
  | descending, x, y => nullsFirst y x

structure Select where
  distinct : Bool
  columns : List Column
  source : Source
  order : List (Column × Direction)
  window : Option Window

/-- Counts the rows of a source, or the different values of a column. -/
structure Count where
  distinct : Option Column
  source : Source

def orderText : Column × Direction → String
  | (c, direction) => s!"{c.text} {direction.text}"

/-- A row comes before another one, or is like it. -/
def before : List (Column × Direction) → Row → Row → Bool
  | [], _, _ => true
  | (c, direction) :: order, r, t =>
    if r.value c = t.value c then before order r t else direction.puts (r.value c) (t.value c)

namespace Select

def statement (q : Select) : Statement where
  fragments :=
    .text ("SELECT " ++ (if q.distinct then "DISTINCT " else "") ++ ", ".intercalate (q.columns.map Column.text) ++ " ") ::
      q.source.fragments
    ++ (if q.order.isEmpty then [] else [.text (" ORDER BY " ++ ", ".intercalate (q.order.map orderText))])
    ++ match q.window with
      | none => []
      | some w => [.text " LIMIT ", .value (.int w.limit), .text " OFFSET ", .value (.int w.offset)]

/-- The values of the columns, row by row. -/
def eval (s : Store) (q : Select) : Except ArchiveError (List (List (Option Param))) := do
  let rows ← q.source.rows s
  let listed := (rows.mergeSort (before q.order)).map fun r => q.columns.map r.value
  let listed := if q.distinct then listed.eraseDups else listed
  return match q.window with
    | none => listed
    | some w => w.cut listed

end Select

namespace Count

def statement (q : Count) : Statement where
  fragments := match q.distinct with
    | none => .text "SELECT COUNT(*) " :: q.source.fragments
    | some c => .text s!"SELECT COUNT(DISTINCT {c.text}) " :: q.source.fragments

def eval (s : Store) (q : Count) : Except ArchiveError Nat := do
  let rows ← q.source.rows s
  return match q.distinct with
    | none => rows.length
    | some c => (rows.filterMap (·.value c)).eraseDups.length

end Count

/-! ### The statements of a search -/

/-- The join of a look-up, which is condition number `k` of its plan. -/
def joinOf? : Condition × Nat → Option Join
  | (.lookup s allowed, k) => some {
      table := .locations k
      on := [.same (.location k .position) (.position .id), .compare .equal (.location k .square) (.int s.val),
        .among (.location k .piece) (allowed.toList.map fun p => .text (String.singleton p.symbol))] }
  | _ => none

/-- The join of the games of positions. -/
def joinGames : Join := ⟨.games, [.same (.game .id) (.position .game)]⟩

/-- The test of a condition that needs no join. -/
def testOf? : Condition → Option Test
  | .lookup _ _ => none
  | .fingerprint v => some (.compare .equal (.position .fingerprint) (.int v.toInt64.toInt))
  | .material m => some (.compare .equal (.position .material) (.text m))
  | .side c => some (.compare .equal (.position .side) (.text (String.singleton c.letter)))

/-- The test of a condition on a game. -/
def gameTest : GameCondition → Test
  | .white t => .like (.game .white) (Like.containing t)
  | .black t => .like (.game .black) (Like.containing t)
  | .opening t => .like (.game .opening) (Like.containing t)
  | .player t => .either (.like (.game .white) (Like.containing t)) (.like (.game .black) (Like.containing t))
  | .eco v => .compare .equal (.game .eco) (.text v)
  | .result v => .compare .equal (.game .result) (.text v)
  | .dateFrom v => .compare .atLeast (.game .date) (.text v)
  | .dateTo v => .compare .atMost (.game .date) (.text v)
  | .minElo n => .either (.compare .atLeast (.game .whiteElo) (.int n)) (.compare .atLeast (.game .blackElo) (.int n))
  | .maxElo n => .both (.compare .atMost (.game .whiteElo) (.int n)) (.compare .atMost (.game .blackElo) (.int n))

/-- The tests of a WHERE clause, which is always there. -/
def whereAll (tests : List Test) : List Test := if tests.isEmpty then [.constant true] else tests

/-- The positions that a plan selects in games that pass a filter. -/
def candidates (p : Plan) (f : GameFilter) : Source :=
  if p.isNothing then ⟨.positions, [], [.constant false]⟩
  else {
    table := .positions
    joins := p.conditions.zipIdx.filterMap joinOf?
      ++ if f.isEmpty then [] else [joinGames]
    tests := whereAll (p.conditions.filterMap testOf? ++ if f.isEmpty then [] else f.conditions.map gameTest) }

/-- The games that pass a filter. -/
def filtered (f : GameFilter) : Source := ⟨.games, [], whereAll (f.conditions.map gameTest)⟩

/-- A page as it is bound. -/
def bound (w : Window) : Window := ⟨w.limit, min w.offset Statement.maxOffset⟩

/-- One page of the games that a search finds. -/
def gamesOf (f : GameFilter) (w : Window) : Option Plan → Select
  | some p => ⟨true, [.position .game], candidates p f, [(.position .game, .descending)], bound w⟩
  | none => ⟨false, [.game .id], filtered f, [(.game .id, .descending)], bound w⟩

/-- The number of the games that a search finds. -/
def countOf (f : GameFilter) : Option Plan → Count
  | some p => ⟨some (.position .game), candidates p f⟩
  | none => ⟨none, filtered f⟩

/-- The positions that a plan selects in given games. -/
def positionsOf (p : Plan) (games : List Id) : Select where
  distinct := false
  columns := [.position .game, .position .number, .position .san]
  source := { candidates p .empty with
    tests := (candidates p .empty).tests ++ [.among (.position .game) (games.map .int)] }
  order := [(.position .game, .descending), (.position .number, .ascending)]
  window := none

/-! ### Running a search -/

/-- The number of a game in a listed row. -/
def idOf? : List (Option Param) → Option Id
  | [some (.int id)] => some id
  | _ => none

/-- The position of a listed row, if it is one of the game. -/
def matchOf? (game : Id) : List (Option Param) → Option PositionMatch
  | [some (.int id), some (.int number), san] =>
    if id = game then some ⟨number.toNat, san.map Param.asText⟩ else none
  | _ => none

end Sql

namespace Store

/-- The rows for the positions of games. Nothing is asked if there are no games. -/
def listed (s : Store) (ids : List Id) : Option Plan → Except ArchiveError (List (List (Option Param)))
  | some p => if ids.isEmpty then .ok [] else (Sql.positionsOf p ids).eval s
  | none => .ok []

/-- Runs the statements of a search: the games are counted, those of the page are found, and then their positions. The
    records are looked up by number. -/
def runStatements (s : Store) (r : SearchRequest) (plan : Option Plan) : Except ArchiveError SearchResults := do
  let totalGames ← (Sql.countOf r.filter plan).eval s
  let ids := (← (Sql.gamesOf r.filter r.window plan).eval s).filterMap Sql.idOf?
  let found ← s.listed ids plan
  return {
    games := ids.filterMap fun id => (s.game? id).map fun g => ⟨g, found.filterMap (Sql.matchOf? id)⟩
    pagination := r.pagination totalGames }

end Store
end ChessArchive
