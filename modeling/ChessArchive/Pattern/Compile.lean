import ChessArchive.Pattern

/-! Reading patterns. A pattern is written like a placement, with two freedoms: a square may hold a group of
    alternatives such as [P|N], and ranks may be short or missing. A refusal says where: the rank as written and
    the column in it, both from 1. -/

namespace ChessArchive

inductive PatternFault where
  | unterminatedGroup
  | emptyAlternative
  | missingSeparator (found : Char)
  | unknownPiece (symbol : Char)
  | unexpected (found : Char)
  | rankOverflow
  | tooManyRanks
  deriving DecidableEq, Repr

def PatternFault.message : PatternFault → String
  | unterminatedGroup => "unterminated '[' group"
  | emptyAlternative => "empty alternative in group"
  | missingSeparator c => s!"expected '|' or ']' before '{c}'"
  | unknownPiece c => s!"unknown piece symbol '{c}'"
  | unexpected c => s!"unexpected '{c}' outside a group"
  | rankOverflow => "rank spans more than 8 squares"
  | tooManyRanks => "more than 8 ranks"

structure PatternError where
  rank : Nat
  column : Nat
  fault : PatternFault
  deriving DecidableEq, Repr

def PatternError.message (e : PatternError) : String :=
  s!"Pattern syntax error at rank {e.rank}, column {e.column}: {e.fault.message}"

namespace Pattern

/-- A character with its column. -/
abbrev Cell := Nat × Char

/-- What the rest of a group gives: its pieces and the cells after its closing bracket. -/
structure Group where
  allowed : PieceSet
  rest : List Cell

/-- Reads a group after its opening bracket, which stands in column `start`. `expecting` says that an
    alternative has to follow. -/
def compileGroup (rank start : Nat) : Bool → PieceSet → List Cell → Except PatternError Group
  | _, _, [] => .error ⟨rank, start, .unterminatedGroup⟩
  | expecting, set, (column, c) :: cells =>
    if c = ']' then
      if expecting then .error ⟨rank, column, .emptyAlternative⟩ else .ok ⟨set, cells⟩
    else if c = '|' then
      if expecting then .error ⟨rank, column, .emptyAlternative⟩ else compileGroup rank start true set cells
    else if expecting then
      match Piece.ofSymbol? c with
      | some p => compileGroup rank start false (set.insert p) cells
      | none => .error ⟨rank, column, .unknownPiece c⟩
    else .error ⟨rank, column, .missingSeparator c⟩

theorem compileGroup_rest_length {rank start : Nat} {expecting : Bool} {set : PieceSet} {cells : List Cell}
    {g : Group} (h : compileGroup rank start expecting set cells = .ok g) : g.rest.length < cells.length := by
  induction cells generalizing expecting set with
  | nil => simp [compileGroup] at h
  | cons x cells ih =>
    unfold compileGroup at h
    split at h
    · split at h
      · cases h
      · cases h; simp
    · split at h
      · split at h
        · cases h
        · exact Nat.lt_succ_of_lt (ih h)
      · split at h
        · split at h
          · exact Nat.lt_succ_of_lt (ih h)
          · cases h
        · cases h

/-- A skip digit. -/
def skip? (c : Char) : Option Nat := (Placement.digit? c).filter fun n => 1 ≤ n && n ≤ 8

/-- Places a set on the next square of a rank. -/
def place (row : Fin 8) (file column : Nat) (allowed : PieceSet) : Except PatternError Constraint :=
  if h : file < 8 then .ok ⟨.ofFileRank ⟨file, h⟩ row.rev, allowed⟩ else .error ⟨row + 1, column, .rankOverflow⟩

/-- Reads the rest of a rank from file `file` on. -/
def compileRank (row : Fin 8) (file : Nat) (cells : List Cell) : Except PatternError (List Constraint) :=
  match cells with
  | [] => .ok []
  | (column, c) :: cells =>
    match skip? c with
    | some n =>
      if 8 < file + n then .error ⟨row + 1, column, .rankOverflow⟩ else compileRank row (file + n) cells
    | none =>
      if c = '[' then
        match h : compileGroup (row + 1) column true .empty cells with
        | .error e => .error e
        | .ok g => do
          let constraint ← place row file column g.allowed
          return constraint :: (← compileRank row (file + 1) g.rest)
      else if c = ']' ∨ c = '|' then .error ⟨row + 1, column, .unexpected c⟩
      else
        match Piece.ofSymbol? c with
        | none => .error ⟨row + 1, column, .unknownPiece c⟩
        | some p => do
          let constraint ← place row file column (.single p)
          return constraint :: (← compileRank row (file + 1) cells)
termination_by cells.length
decreasing_by
  · simp
  · have := compileGroup_rest_length h; simp; omega
  · simp

/-- Numbers the characters of a rank from 1. -/
def numbered (rank : List Char) : List Cell := (rank.zipIdx 1).map fun (c, i) => (i, c)

/-- Reads ranks, `row` being the number of those before. -/
def compileRanks : Nat → List (List Char) → Except PatternError (List Constraint)
  | _, [] => .ok []
  | row, rank :: ranks =>
    if h : row < 8 then do
      let here ← compileRank ⟨row, h⟩ 0 (numbered rank)
      return here ++ (← compileRanks (row + 1) ranks)
    else .error ⟨row + 1, 1, .tooManyRanks⟩

/-- Reads a pattern text; only its first field counts. -/
def compile (text : String) : Except PatternError Pattern :=
  Pattern.mk <$> compileRanks 0 (((Text.firstField? text.toList).getD []).splitOn '/')

end Pattern
end ChessArchive
