import ChessArchive.Error
import ChessArchive.Fingerprint
import ChessArchive.Query.Filter
import ChessArchive.Query.Plan

/-! Search requests and what they ask for: a plan for the positions, if the mode looks at positions at all. -/

namespace ChessArchive

inductive SearchMode where
  /-- The same placement, side to move and castling flags. -/
  | exact
  /-- The same pieces, wherever they stand. -/
  | material
  /-- A board pattern. -/
  | pattern
  /-- Any game that passes the filter. -/
  | metadata
  deriving DecidableEq, Repr

namespace SearchMode

def all : List SearchMode := [exact, material, pattern, metadata]

def name : SearchMode → String
  | exact => "exact"
  | material => "material"
  | pattern => "pattern"
  | metadata => "metadata"

/-- Reads a name without regard to the case of ASCII letters. -/
def ofName? (s : String) : Option SearchMode := all.find? fun m => m.name = s.toLower

/-- What is said of a name that is none. -/
def unknownMessage (s : String) : String :=
  s!"unknown search mode '{s.toLower}' (expected exact, material, pattern or metadata)"

end SearchMode

structure SearchRequest where
  mode : SearchMode
  /-- A position text, or in pattern mode a pattern. -/
  pattern : String
  /-- In pattern mode, the side to move. -/
  side : Option Color
  filter : GameFilter
  /-- The number of the page, from 1. -/
  page : Nat
  pageSize : Nat

namespace SearchRequest

/-- The plan for the positions that a request is after. -/
def plan (keys : FingerprintKeys) (r : SearchRequest) : Except ArchiveError (Option Plan) :=
  match r.mode with
  | .exact => ((keys.ofFenText r.pattern).mapError .board).map fun v => some (.ofFingerprint v)
  | .material => ((Material.ofText r.pattern).mapError .board).map fun m => some (.ofMaterial m)
  | .pattern => ((Pattern.compile r.pattern).mapError .pattern).map fun p =>
      match r.side with
      | some c => some ((Plan.ofPattern p).withSide c)
      | none => some (.ofPattern p)
  | .metadata => .ok none

end SearchRequest
end ChessArchive
