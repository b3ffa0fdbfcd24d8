import ChessArchive.Placement

/-! Material signatures: how many of each piece stand on a board, wherever they stand. The text of a signature
    has twelve counts of two digits, white before the slash. -/

namespace ChessArchive

/-- The number of each piece. -/
structure Material where
  count : Piece → Nat

namespace Material

/-- The material of a list of occupied squares. -/
def ofOccupied (occupied : Occupied) : Material := ⟨fun p => (occupied.map (·.2)).count p⟩

/-- The material of a board text. -/
def ofText (board : String) : Except FenError Material := ofOccupied <$> Placement.decode board

/-- A count with two digits; 64 squares hold no more than that. -/
def twoDigits (n : Nat) : List Char := [Nat.digitChar (n / 10), Nat.digitChar (n % 10)]

/-- The counts of one side, pawns first. -/
def sideText (m : Material) (c : Color) : List Char :=
  ['.'].intercalate (Kind.all.map fun k => twoDigits (m.count ⟨c, k⟩))

/-- The signature. -/
def signature (m : Material) : String := String.ofList (m.sideText .white ++ '/' :: m.sideText .black)

/-- The counts in index order. -/
def counts (m : Material) : List Nat := Piece.all.map m.count

end Material
end ChessArchive
