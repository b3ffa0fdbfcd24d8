import ChessArchive.Store.Insert

/-! Direct edits of single records, past the rules that hold between tables: what a hand at the database may do,
    and what maintenance has to cope with. Each edit says how many records it touched. -/

namespace ChessArchive
namespace Store

/-- Removes the rows of a position. -/
def clearRows (s : Store) (position : Id) : Except ArchiveError (Nat × Store) := do
  let rows ← s.index
  return (rows.countP (·.position = position), { s with rows := rows.filter (·.position ≠ position) })

/-- Adds one row, given by a square's number and a piece letter. -/
def addRow (s : Store) (position : Id) (square : Int) (symbol : String) : Except ArchiveError (Nat × Store) :=
  match square, symbol.toList with
  | .ofNat n, [c] =>
    match Square.ofNat? n, Piece.ofSymbol? c with
    | some q, some p => return (1, ← s.addRows position [(q, p)])
    | _, _ => .error .database
  | _, _ => .error .database

/-- Replaces the board text of a position. -/
def setBoard (s : Store) (position : Id) (board : String) : Nat × Store :=
  (s.positions.countP (·.id = position),
    { s with positions := s.positions.map fun p => if p.id = position then { p with board } else p })

/-- Takes the index away. -/
def dropIndex (s : Store) : Except ArchiveError Store := do
  let _ ← s.index
  return { s with rows := [], damage := ⟨true, []⟩ }

/-- From now on, rows that are added for a square vanish. No other square number can come up. -/
def loseSquare (s : Store) (square : Int) : Except ArchiveError Store := do
  let _ ← s.index
  match square with
  | .ofNat n =>
    return { s with damage.lostSquares := (Square.ofNat? n).toList ++ s.damage.lostSquares }
  | .negSucc _ => return s

/-- Removes the keys from a slot on. -/
def deleteKeysFrom (s : Store) (slot : Int) : Nat × Store :=
  (s.keys.countP (slot ≤ ·.slot), { s with keys := s.keys.filter (·.slot < slot) })

/-- Removes the key of a slot. -/
def deleteKey (s : Store) (slot : Int) : Nat × Store :=
  (s.keys.countP (·.slot = slot), { s with keys := s.keys.filter (·.slot ≠ slot) })

/-- Moves the key of a slot to another one, which must be free. -/
def moveKey (s : Store) (slot target : Int) : Except ArchiveError (Nat × Store) :=
  if s.keys.any (·.slot = slot) && s.keys.any (fun k => k.slot = target && k.slot ≠ slot) then .error .database
  else .ok (s.keys.countP (·.slot = slot),
    { s with keys := s.keys.map fun k => if k.slot = slot then { k with slot := target } else k })

end Store
end ChessArchive
