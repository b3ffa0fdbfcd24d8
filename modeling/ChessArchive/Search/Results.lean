import ChessArchive.Query.Statement
import ChessArchive.Search.Request
import ChessArchive.Store

/-! Searching the store. A plan selects positions through the index and never looks at a board; the games of the
    selected positions that pass the filter come newest first, a page at a time. -/

namespace ChessArchive

/-- A position that a search found. -/
structure PositionMatch where
  number : Nat
  san : Option String
  deriving DecidableEq, Repr

/-- A game that a search found, with every position that it found there. -/
structure GameMatch where
  game : StoredGame
  positions : List PositionMatch
  deriving DecidableEq, Repr

structure Pagination where
  page : Nat
  pageSize : Nat
  totalGames : Nat
  totalPages : Nat
  hasNext : Bool
  hasPrev : Bool
  deriving DecidableEq, Repr

structure SearchResults where
  games : List GameMatch
  pagination : Pagination
  deriving DecidableEq, Repr

/-- The largest page that is given out. -/
def maxPageSize : Nat := 500

/-- The number of tables that one statement may join. -/
def maxJoinedTables : Nat := 64

/-- Some condition of the plan is a look-up. -/
def Plan.usesIndex (p : Plan) : Bool :=
  p.conditions.any fun
    | .lookup _ _ => true
    | _ => false

/-- In how many ways a position meets a condition. A look-up has one way for each row that it accepts. -/
def Condition.ways (rows : List IndexRow) (p : StoredPosition) : Condition → Nat
  | .lookup s allowed => rows.countP fun r => r.square = s && r.position = p.id && allowed.contains r.piece
  | .fingerprint v => if p.fingerprint = v then 1 else 0
  | .material m => if p.material = m then 1 else 0
  | .side c => if p.side = c then 1 else 0

/-- In how many ways a position meets all the conditions together. -/
def Plan.ways (rows : List IndexRow) (p : StoredPosition) (plan : Plan) : Nat :=
  if plan.isNothing then 0 else (plan.conditions.map (Condition.ways rows p)).foldl (· * ·) 1

namespace Store

/-- The positions that a plan selects, each as often as there are ways, game by game in the order of play. -/
def selected (s : Store) (plan : Plan) : List StoredPosition :=
  (s.positions.flatMap fun p => List.replicate (plan.ways s.rows p) p).mergeSort fun p q => p.number ≤ q.number

/-- The positions that a plan selects in games that pass a filter. The games are joined only if the filter asks for
    anything. -/
def candidates (s : Store) (plan : Plan) (filter : GameFilter) : List StoredPosition :=
  if filter.isEmpty then s.selected plan
  else (s.selected plan).filter fun p => s.games.any fun g => g.id = p.game && filter.passes g.metadata

/-- Numbers of games, newest first. -/
def newestIds (ids : List Id) : List Id := ids.mergeSort fun i j => j ≤ i

/-- The games that a search finds, by number, newest first: those of the candidates, each once, or all that pass the
    filter. -/
def foundIds (s : Store) (filter : GameFilter) : Option Plan → List Id
  | some plan => newestIds ((s.candidates plan filter).map (·.game)).eraseDups
  | none => newestIds ((s.games.filter fun g => filter.passes g.metadata).map (·.id))

/-- The number of games that a search finds. -/
def countFound (s : Store) (filter : GameFilter) : Option Plan → Nat
  | some plan => ((s.candidates plan filter).map (·.game)).eraseDups.length
  | none => s.games.countP fun g => filter.passes g.metadata

/-- The positions that a plan selects in the given games, newest game first and in the order of play. The games have
    passed their filter. -/
def positionsIn (s : Store) (plan : Plan) (games : List Id) : List StoredPosition :=
  ((s.candidates plan .empty).filter fun p => games.contains p.game).mergeSort fun p q => q.game ≤ p.game

/-- The games with the given numbers, with the positions found in each. A number that no game has is passed over. -/
def matchesOf (s : Store) (plan : Option Plan) (ids : List Id) : List GameMatch :=
  let found := (plan.map fun plan => s.positionsIn plan ids).getD []
  ids.filterMap fun id => (s.game? id).map fun g =>
    ⟨g, (found.filter (·.game = id)).map fun p => ⟨p.number, p.san⟩⟩

/-- The plan can be run: its statements are not too large, and the index is there if it is needed. -/
def canRun (s : Store) (plan : Plan) (filter : GameFilter) : Bool :=
  plan.isNothing
    || Statement.joinedTables plan filter ≤ maxJoinedTables && !(plan.usesIndex && s.damage.indexGone)

/-- Some game that the filter is tried on is one that it cannot be tried on, a term being too long. -/
def failsOnSomeGame (s : Store) (filter : GameFilter) (plan : Option Plan) : Bool :=
  filter.conditions.any (·.isTooLong) && s.games.any fun g =>
    plan.all (fun plan => (s.selected plan).any (·.game = g.id))
      && GameFilter.comesToTooLong g.metadata filter.conditions

end Store

/-- The entries of a page. -/
def Window.cut {α : Type} (w : Window) (xs : List α) : List α := (xs.drop w.offset).take w.limit

namespace SearchRequest

/-- What a request asks for, unless it is malformed. The page is looked at first. -/
def checked (keys : FingerprintKeys) (r : SearchRequest) : Except ArchiveError (Option Plan) :=
  if r.page = 0 ∨ r.pageSize = 0 then .error (.invalidPage r.page r.pageSize) else r.plan keys

/-- The size of the pages that are given out. -/
def effectiveSize (r : SearchRequest) : Nat := min r.pageSize maxPageSize

/-- Where the page of a request lies. -/
def window (r : SearchRequest) : Window := ⟨r.effectiveSize, (r.page - 1) * r.effectiveSize⟩

/-- What is said of the page of a request. -/
def pagination (r : SearchRequest) (totalGames : Nat) : Pagination :=
  let totalPages := (totalGames + r.effectiveSize - 1) / r.effectiveSize
  { page := r.page
    pageSize := r.effectiveSize
    totalGames
    totalPages
    hasNext := decide (r.page < totalPages)
    hasPrev := decide (1 < r.page) }

end SearchRequest

namespace Store

/-- Runs a plan that a request asks for: the games are counted, those of the page are found, and then their records
    and positions. -/
def runPlan (s : Store) (r : SearchRequest) (plan : Option Plan) : Except ArchiveError SearchResults :=
  if plan.all (s.canRun · r.filter) && !s.failsOnSomeGame r.filter plan then
    .ok {
      games := s.matchesOf plan (r.window.cut (s.foundIds r.filter plan))
      pagination := r.pagination (s.countFound r.filter plan) }
  else .error .database

/-- Runs a search. -/
def search (s : Store) (keys : FingerprintKeys) (r : SearchRequest) : Except ArchiveError SearchResults := do
  s.runPlan r (← r.checked keys)

end Store
end ChessArchive
