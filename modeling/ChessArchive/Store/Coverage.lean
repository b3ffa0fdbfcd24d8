import ChessArchive.Store

/-! How well the index covers the stored positions. The positions are read by number, in chunks, each of which begins
    after the last position of the one before. A position whose board cannot be read should have no row. -/

namespace ChessArchive

/-- A position with another number of rows than its board has pieces. -/
structure RowMismatch where
  position : Id
  expected : Nat
  actual : Nat
  deriving DecidableEq, Repr

structure CoverageReport where
  games : Nat
  positions : Nat
  rows : Nat
  /-- Positions with at least one row. -/
  indexed : Nat
  mismatches : List RowMismatch
  deriving DecidableEq, Repr

/-- The share of positions that have rows; all of them if there are none. -/
def CoverageReport.share (r : CoverageReport) : Float :=
  if r.positions = 0 then 1.0 else r.indexed.toFloat / r.positions.toFloat

/-- The number of rows that a board asks for. -/
def expectedRows (board : String) : Nat :=
  match Placement.decode board with
  | .ok occupied => occupied.length
  | .error _ => 0

/-- What is wrong with the rows of a position, if anything is. -/
def StoredPosition.mismatch? (p : StoredPosition) (rows : List IndexRow) : Option RowMismatch :=
  let actual := rows.countP (·.position = p.id)
  if expectedRows p.board = actual then none else some ⟨p.id, expectedRows p.board, actual⟩

namespace Store

/-- The number of positions in a full chunk. -/
def chunkSize : Nat := 1000

/-- The next positions after a number. -/
def chunkAfter (s : Store) (after : Id) : List StoredPosition :=
  (s.positionsById.filter (after < ·.id)).take chunkSize

theorem mem_chunkAfter {s : Store} {after : Id} {p : StoredPosition} (h : p ∈ s.chunkAfter after) :
    p ∈ s.positions ∧ after < p.id := by
  obtain ⟨hp, hafter⟩ := List.mem_filter.mp (List.mem_of_mem_take h)
  exact ⟨by simpa [positionsById] using hp, by simpa using hafter⟩

/-- What comes after a number comes after any smaller one. -/
theorem filter_later {after later : Id} (h : after < later) (ps : List StoredPosition) :
    (ps.filter (after < ·.id)).filter (later < ·.id) = ps.filter (later < ·.id) := by
  rw [List.filter_filter]
  refine List.filter_congr fun p _ => ?_
  by_cases hp : later < p.id
  · simp [hp, Int.lt_trans h hp]
  · simp [hp]

/-- The number of positions after a number. -/
def remaining (s : Store) (after : Id) : Nat := (s.positions.filter (after < ·.id)).length

/-- Fewer positions come after one that comes after a number. -/
theorem remaining_lt {s : Store} {after : Id} {p : StoredPosition} (hp : p ∈ s.positions) (hafter : after < p.id) :
    s.remaining p.id < s.remaining after := by
  rw [remaining, remaining, ← filter_later hafter, List.length_filter_lt_length_iff_exists]
  exact ⟨p, List.mem_filter.mpr ⟨hp, by simpa using hafter⟩, by simp⟩

/-- All chunks of positions after a number. -/
def chunksAfter (s : Store) (after : Id) : List (List StoredPosition) :=
  if h : s.chunkAfter after = [] then []
  else s.chunkAfter after :: s.chunksAfter ((s.chunkAfter after).getLast h).id
termination_by s.remaining after
decreasing_by
  obtain ⟨hp, hafter⟩ := mem_chunkAfter (List.getLast_mem h)
  exact remaining_lt hp hafter

/-- The positions whose rows do not fit their board, by number. Only positive numbers are looked at. -/
def mismatches (s : Store) (rows : List IndexRow) : List RowMismatch :=
  (s.chunksAfter 0).flatMap (·.filterMap (·.mismatch? rows))

def coverage (s : Store) : Except ArchiveError CoverageReport := do
  let rows ← s.index
  return ⟨s.games.length, s.positions.length, rows.length, (rows.map (·.position)).eraseDups.length,
    s.mismatches rows⟩

end Store
end ChessArchive
