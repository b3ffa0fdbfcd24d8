import ChessArchive.Square

/-! Steps on the board: the square a fixed number of files and ranks away, and the ray of squares that repeating
    a step visits. -/

namespace ChessArchive

/-- A displacement: files to the right, ranks up. -/
structure Step where
  files : Int
  ranks : Int
  deriving DecidableEq, Repr

namespace Step

def rookSteps : List Step := [⟨0, 1⟩, ⟨0, -1⟩, ⟨1, 0⟩, ⟨-1, 0⟩]

def bishopSteps : List Step := [⟨1, 1⟩, ⟨1, -1⟩, ⟨-1, 1⟩, ⟨-1, -1⟩]

def kingSteps : List Step := rookSteps ++ bishopSteps

def knightSteps : List Step := [⟨1, 2⟩, ⟨2, 1⟩, ⟨2, -1⟩, ⟨1, -2⟩, ⟨-1, -2⟩, ⟨-2, -1⟩, ⟨-2, 1⟩, ⟨-1, 2⟩]

end Step

namespace Square

/-- The square a step away, unless the step leaves the board. -/
def step? (s : Square) (d : Step) : Option Square :=
  let f := (s.file : Int) + d.files
  let r := (s.rank : Int) + d.ranks
  if 0 ≤ f ∧ 0 ≤ r then ofCoords? f.toNat r.toNat else none

/-- The squares that at most `n` repetitions of a step visit. -/
def walk (d : Step) : Nat → Square → List Square
  | 0, _ => []
  | n + 1, s =>
    match s.step? d with
    | none => []
    | some t => t :: walk d n t

/-- All squares in one direction, the nearest first. -/
def ray (s : Square) (d : Step) : List Square := walk d 7 s

/-- The squares that the given steps reach. -/
def around (s : Square) (steps : List Step) : List Square := steps.filterMap s.step?

/-- The squares strictly between two files of a rank. -/
def span (rank a b : Fin 8) : List Square :=
  ((List.finRange 8).filter fun f => (a < f && f < b) || (b < f && f < a)).map fun f => ofFileRank f rank

end Square
end ChessArchive
