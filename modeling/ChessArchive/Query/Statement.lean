import ChessArchive.Error
import ChessArchive.Query.Filter
import ChessArchive.Query.Plan

/-! Statements: the SQL of a search. A statement is a list of fragments, each a text of its own or the place of a
    value, so that no value is ever part of the text. The joins of a plan come first, one per look-up, then the
    comparisons in one WHERE clause, which is always there. -/

namespace ChessArchive

/-- A bound value. -/
inductive Param where
  | int (value : Int)
  | text (value : String)
  deriving DecidableEq, Repr

inductive Fragment where
  | text (sql : String)
  | value (param : Param)
  deriving DecidableEq, Repr

structure Statement where
  fragments : List Fragment
  deriving DecidableEq, Repr

namespace Statement

/-- The text, with a question mark for each value. -/
def sql (s : Statement) : String :=
  String.join (s.fragments.map fun
    | .text t => t
    | .value _ => "?")

/-- The values in the order of their places. -/
def params (s : Statement) : List Param :=
  s.fragments.filterMap fun
    | .text _ => none
    | .value p => some p

end Statement

/-- The two statements of a search: one page of games, and the number of all. -/
structure SearchStatements where
  games : Statement
  count : Statement

/-- A page of games: at most `limit`, after `offset` others. -/
structure Window where
  limit : Nat
  offset : Nat
  deriving DecidableEq, Repr

namespace Statement

/-! ### Parts -/

/-- Values between commas. -/
def values (ps : List Param) : List Fragment := [Fragment.text ", "].intercalate (ps.map fun p => [.value p])

/-- The join of a look-up, which is condition number `k` of its plan. -/
def joinOf (k : Nat) (square : Square) (allowed : PieceSet) : List Fragment :=
  [.text s!" JOIN piece_locations l{k} ON l{k}.position_id = p.id AND l{k}.square = ", .value (.int square.val),
    .text s!" AND l{k}.piece IN ("]
  ++ values (allowed.toList.map fun p => .text (String.singleton p.symbol)) ++ [.text ")"]

/-- The joins of the look-ups among numbered conditions. -/
def joins (cs : List (Condition × Nat)) : List Fragment :=
  cs.flatMap fun
    | (.lookup s allowed, k) => joinOf k s allowed
    | _ => []

/-- The comparison of a condition that needs no join. -/
def comparison? : Condition → Option (List Fragment)
  | .lookup _ _ => none
  | .fingerprint v => some [.text "p.fingerprint = ", .value (.int v.toInt64.toInt)]
  | .material s => some [.text "p.material_signature = ", .value (.text s)]
  | .side c => some [.text "p.side_to_move = ", .value (.text (String.singleton c.letter))]

/-- `g.column LIKE term` -/
def likeOn (column term : String) : List Fragment :=
  [.text s!"g.{column} LIKE ", .value (.text (Like.containing term)), .text " ESCAPE '\\'"]

/-- The comparison of a condition on a game. -/
def gameComparison : GameCondition → List Fragment
  | .white t => likeOn "white" t
  | .black t => likeOn "black" t
  | .opening t => likeOn "opening" t
  | .player t => .text "(" :: likeOn "white" t ++ .text " OR " :: likeOn "black" t ++ [.text ")"]
  | .eco v => [.text "g.eco = ", .value (.text v)]
  | .result v => [.text "g.result = ", .value (.text v)]
  | .dateFrom v => [.text "g.date >= ", .value (.text v)]
  | .dateTo v => [.text "g.date <= ", .value (.text v)]
  | .minElo n => [.text "(g.white_elo >= ", .value (.int n), .text " OR g.black_elo >= ", .value (.int n), .text ")"]
  | .maxElo n => [.text "(g.white_elo <= ", .value (.int n), .text " AND g.black_elo <= ", .value (.int n), .text ")"]

/-- The WHERE clause of some comparisons. -/
def whereAll (comparisons : List (List Fragment)) : List Fragment :=
  if comparisons = [] then [.text " WHERE 1"]
  else .text " WHERE " :: [Fragment.text " AND "].intercalate comparisons

/-- The positions that a plan selects in games that pass a filter, as far as the end of the WHERE clause. -/
def candidates (p : Plan) (f : GameFilter) : List Fragment :=
  if p.isNothing then [.text "FROM positions p WHERE 0"]
  else
    .text "FROM positions p" :: joins p.conditions.zipIdx
      ++ (if f.isEmpty then [] else [.text " JOIN games g ON g.id = p.game_id"])
      ++ whereAll (p.conditions.filterMap comparison?
        ++ if f.isEmpty then [] else f.conditions.map gameComparison)

/-- The largest signed integer of 64 bits. -/
def maxOffset : Nat := 9223372036854775807

/-- Restricts to a page, newest games first. -/
def paged (column : String) (w : Window) : List Fragment :=
  [.text s!" ORDER BY {column} DESC LIMIT ", .value (.int w.limit), .text " OFFSET ",
    .value (.int (min w.offset maxOffset))]

/-! ### Whole statements -/

/-- The search for games with a position that a plan selects. -/
def ofPlan (p : Plan) (f : GameFilter) (w : Window) : SearchStatements where
  games := ⟨.text "SELECT DISTINCT p.game_id " :: candidates p f ++ paged "p.game_id" w⟩
  count := ⟨.text "SELECT COUNT(DISTINCT p.game_id) " :: candidates p f⟩

/-- The search for games by their headers alone. -/
def ofFilter (f : GameFilter) (w : Window) : SearchStatements where
  games := ⟨.text "SELECT g.id FROM games g" :: whereAll (f.conditions.map gameComparison) ++ paged "g.id" w⟩
  count := ⟨.text "SELECT COUNT(*) FROM games g" :: whereAll (f.conditions.map gameComparison)⟩

/-- The positions that a plan selects in given games. -/
def positionsIn (p : Plan) (games : List Id) : Statement :=
  ⟨.text "SELECT p.game_id, p.move_number, p.move_san " :: candidates p .empty
    ++ .text " AND p.game_id IN (" :: values (games.map .int)
    ++ [.text ") ORDER BY p.game_id DESC, p.move_number ASC"]⟩

/-- The number of tables that the joined part of a plan's statements reads. -/
def joinedTables (p : Plan) (f : GameFilter) : Nat :=
  1 + p.conditions.countP (fun
    | .lookup _ _ => true
    | _ => false) + (if f.isEmpty then 0 else 1)

end Statement
end ChessArchive
