import ChessArchive.Placement

/-! Reading a rank with a cursor of one byte. The cursor is moved past a character before it is compared with the edge
    of the board, so it may stand beyond the edge when the rank is refused. -/

namespace ChessArchive
namespace Placement

/-- What a character does: how far it moves the cursor, and the piece that it puts where the cursor stood. -/
structure Stride where
  width : UInt8
  placed : Option (Square × Piece)

/-- Reads a character where the cursor stands. -/
def stride (row : Fin 8) (cursor : UInt8) (c : Char) : Except FenError Stride :=
  match digit? c with
  | some n => if n = 0 ∨ 8 < n then .error (.invalidSkip (row + 1) c) else .ok ⟨n.toUInt8, none⟩
  | none =>
    match Piece.ofSymbol? c with
    | none => .error (.invalidPiece c)
    | some p =>
      if 7 < cursor then .error (.rankOverflow (row + 1))
      else match Square.ofCoords? cursor.toNat row.rev with
        | none => .error (.rankOverflow (row + 1))
        | some s => .ok ⟨1, some (s, p)⟩

/-- Reads the rest of a rank. -/
def scanRank (row : Fin 8) (cursor : UInt8) : List Char → Except FenError Occupied
  | [] => if cursor = 8 then .ok [] else .error (.rankUnderflow (row + 1))
  | c :: cells => do
    let m ← stride row cursor c
    if 8 < cursor + m.width then .error (.rankOverflow (row + 1))
    else return m.placed.toList ++ (← scanRank row (cursor + m.width) cells)

/-- The sums that are put into the cursor while the rest of a rank is read, before they are cut to a byte. -/
def cursorSums (row : Fin 8) (cursor : UInt8) : List Char → List Nat
  | [] => []
  | c :: cells =>
    match stride row cursor c with
    | .error _ => []
    | .ok m =>
      (cursor.toNat + m.width.toNat) ::
        if 8 < cursor + m.width then [] else cursorSums row (cursor + m.width) cells

end Placement
end ChessArchive
