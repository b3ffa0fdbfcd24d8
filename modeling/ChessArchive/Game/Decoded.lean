import ChessArchive.Error
import ChessArchive.Fingerprint
import ChessArchive.Game.Metadata
import ChessArchive.Game.Raw
import ChessArchive.Material

/-! Games ready to be stored: every position that a game reaches, with all that is derived from it. -/

namespace ChessArchive

structure DecodedPosition where
  number : Nat
  san : Option String
  board : String
  side : Color
  castling : CastlingRights
  fingerprint : UInt64
  material : String
  occupied : Occupied

structure DecodedGame where
  metadata : Metadata
  moves : List String
  startFen : Option String
  positions : List DecodedPosition

namespace DecodedGame

/-- The position of a ply. Everything is read off the text of the board. -/
def position (keys : FingerprintKeys) (p : Ply) : Except FenError DecodedPosition := do
  let fen ← Fen.parse p.board.text
  let occupied ← Placement.decode fen.placement
  return {
    number := p.number
    san := p.san
    board := fen.placement
    side := fen.side
    castling := fen.castling
    fingerprint := ← keys.ofFen fen
    material := (← Material.ofText fen.placement).signature
    occupied }

/-- Replays a game and derives its positions. The standard start is not kept as a start position. -/
def ofRaw (keys : FingerprintKeys) (g : RawGame) : Except ArchiveError DecodedGame := do
  let plies ← (Replay.run g.startFen g.moves).mapError .replay
  let positions ← (plies.mapM (position keys)).mapError .board
  return {
    metadata := .ofTags g.tags
    moves := g.moves
    startFen := g.startFen.filter fun f => Text.trimmed f ≠ Fen.start
    positions }

end DecodedGame
end ChessArchive
