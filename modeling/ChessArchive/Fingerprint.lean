import ChessArchive.Fen
import ChessArchive.KeyStream

/-! Fingerprints: the exclusive or of one key per occupied square and piece, one when black is to move, and one
    per castling flag. Fingerprints can be compared only under the same key table. -/

namespace ChessArchive

/-- The number of keys: 768 for pieces on squares, one for the side, four for castling. -/
def keyCount : Nat := 773

structure FingerprintKeys where
  words : Vector UInt64 keyCount
  deriving DecidableEq

namespace FingerprintKeys

/-- The table with the given words, if there are as many as it takes. -/
def ofWords? (words : List UInt64) : Option FingerprintKeys :=
  if h : words.toArray.size = keyCount then some ⟨⟨words.toArray, h⟩⟩ else none

def toWords (k : FingerprintKeys) : List UInt64 := k.words.toList

/-- The table drawn from the key stream of a seed. -/
def ofSeed (seed : UInt64) : FingerprintKeys :=
  let drawn := (KeyStream.words seed keyCount).toArray
  ⟨.ofFn fun i => drawn.getD i 0⟩

/-- The key of a piece on a square. -/
def pieceKey (k : FingerprintKeys) (s : Square) (p : Piece) : UInt64 :=
  k.words.get ⟨p.index.val * 64 + s.val, by have := p.index.isLt; have := s.isLt; simp only [keyCount]; omega⟩

/-- The key of the side to move; white adds nothing. -/
def sideKey (k : FingerprintKeys) : Color → UInt64
  | .white => 0
  | .black => k.words.get ⟨768, by decide⟩

/-- The key of a castling flag, counted in written order. -/
def flagKey (k : FingerprintKeys) (i : Fin 4) : UInt64 :=
  k.words.get ⟨769 + i.val, by have := i.isLt; simp only [keyCount]; omega⟩

/-- The keys of the flags that are set, combined. -/
def castlingKey (k : FingerprintKeys) (r : CastlingRights) : UInt64 :=
  ((r.flags.zip (List.finRange 4)).map fun (set, i) => if set then k.flagKey i else 0).foldl (· ^^^ ·) 0

/-- The fingerprint of occupied squares, a side to move and castling flags. -/
def ofOccupied (k : FingerprintKeys) (occupied : Occupied) (side : Color) (castling : CastlingRights) : UInt64 :=
  (occupied.foldl (fun acc (s, p) => acc ^^^ k.pieceKey s p) 0) ^^^ k.sideKey side ^^^ k.castlingKey castling

/-- The fingerprint of a board text with a side to move and castling flags. -/
def fingerprint (k : FingerprintKeys) (board : String) (side : Color) (castling : CastlingRights) :
    Except FenError UInt64 := do
  return k.ofOccupied (← Placement.decode board) side castling

/-- The fingerprint of a position. -/
def ofFen (k : FingerprintKeys) (p : Fen) : Except FenError UInt64 := k.fingerprint p.placement p.side p.castling

/-- The fingerprint of a position text. -/
def ofFenText (k : FingerprintKeys) (text : String) : Except FenError UInt64 := do k.ofFen (← Fen.parse text)

end FingerprintKeys
end ChessArchive
