import Mathlib.Data.Multiset.MapFold
import ChessArchive.Proofs.Store.Insert

/-! What a store holds, whatever the numbers of its records and their order. Writing a game adds the content of that
    game and leaves the content of all others as it was. -/

namespace ChessArchive

/-- A position with its index rows, without its number in the store. -/
structure PositionContent where
  number : Nat
  san : Option String
  board : String
  side : Color
  castling : CastlingRights
  fingerprint : UInt64
  material : String
  rows : Multiset (Square × Piece)

/-- A game with its positions, without its number in the store. -/
structure GameContent where
  metadata : Metadata
  moves : String
  startFen : Option String
  positions : Multiset PositionContent

def DecodedPosition.content (p : DecodedPosition) : PositionContent :=
  ⟨p.number, p.san, p.board, p.side, p.castling, p.fingerprint, p.material, p.occupied⟩

def DecodedGame.content (g : DecodedGame) : GameContent :=
  ⟨g.metadata, " ".intercalate g.moves, g.startFen, g.positions.map (·.content)⟩

namespace Store

def positionContent (s : Store) (p : StoredPosition) : PositionContent :=
  ⟨p.number, p.san, p.board, p.side, p.castling, p.fingerprint, p.material,
    (s.rowsAt p.id).map fun r => (r.square, r.piece)⟩

def gameContent (s : Store) (g : StoredGame) : GameContent :=
  ⟨g.metadata, g.moves, g.startFen, (s.positions.filter (·.game = g.id)).map s.positionContent⟩

/-- The contents of all games. -/
def contents (s : Store) : Multiset GameContent := s.games.map s.gameContent

section
variable {s t : Store} {g : DecodedGame} {id : Id} {added : List (Id × DecodedPosition)}

theorem Inserted.positionContent_new (h : Inserted s t g id added) (hl : s.Linked) {e : Id × DecodedPosition}
    (he : e ∈ added) : t.positionContent (e.2.stored e.1 id) = e.2.content := by
  have hrows := h.rowsAt_new hl he
  simp [positionContent, DecodedPosition.stored, DecodedPosition.content, hrows, rowsFor, Function.comp_def]

theorem Inserted.gameContent_new (h : Inserted s t g id added) (hl : s.Linked) :
    t.gameContent (g.stored id) = g.content := by
  have hpositions : ((t.positions.filter (·.game = id)).map t.positionContent : Multiset PositionContent) =
      (g.positions.map (·.content) : List PositionContent) := by
    rw [h.positions_of_game (h.game_ne hl.games), List.map_map]
    have hnew : added.map (t.positionContent ∘ fun e => e.2.stored e.1 id) = added.map (·.2.content) :=
      List.map_congr_left fun e he => h.positionContent_new hl he
    rw [hnew, Multiset.coe_eq_coe]
    have hlisted := h.listed.map (·.content)
    rwa [List.map_map] at hlisted
  exact congrArg (GameContent.mk g.metadata (" ".intercalate g.moves) g.startFen) hpositions

theorem Inserted.gameContent_old (h : Inserted s t g id added) {k : StoredGame} (hk : k ∈ s.games) :
    t.gameContent k = s.gameContent k := by
  have hpositions : (t.positions.filter (·.game = k.id)).map t.positionContent =
      (s.positions.filter (·.game = k.id)).map s.positionContent := by
    rw [h.positions_of_other (Int.ne_of_lt (h.newest k hk))]
    refine List.map_congr_left fun p hp => ?_
    rw [positionContent, positionContent, h.rowsAt_old (List.mem_filter.mp hp).1]
  rw [gameContent, gameContent, hpositions]

theorem Inserted.contents (h : Inserted s t g id added) (hl : s.Linked) : t.contents = g.content ::ₘ s.contents := by
  have hold : s.games.map t.gameContent = s.games.map s.gameContent :=
    List.map_congr_left fun k hk => h.gameContent_old hk
  rw [Store.contents, h.games, List.map_cons, h.gameContent_new hl, hold]
  rfl

/-- The records that were there are there, and the new ones come before them. -/
structure Extends (t s : Store) : Prop where
  games : s.games <:+ t.games
  positions : s.positions <:+ t.positions
  rows : s.rows <:+ t.rows
  keys : t.keys = s.keys

theorem Extends.refl (s : Store) : s.Extends s := ⟨⟨[], rfl⟩, ⟨[], rfl⟩, ⟨[], rfl⟩, rfl⟩

theorem Extends.trans {u : Store} (h : u.Extends t) (k : t.Extends s) : u.Extends s :=
  ⟨k.games.trans h.games, k.positions.trans h.positions, k.rows.trans h.rows, h.keys.trans k.keys⟩

theorem Inserted.extension (h : Inserted s t g id added) : t.Extends s :=
  ⟨h.games ▸ List.suffix_cons _ _, h.positions ▸ List.suffix_append _ _, h.rows ▸ List.suffix_append _ _, h.keys⟩

/-- Games that are written one after the other add their contents, and keep all records that were there. -/
theorem Takes.grows {gs : List DecodedGame} (h : Takes s gs t) (hl : s.Linked) (hkeep : s.damage.lostSquares = []) :
    t.contents = s.contents + (gs.map (·.content) : List GameContent) ∧ t.Extends s := by
  induction h with
  | nil => exact ⟨by simp, .refl _⟩
  | cons hg _ ih =>
    obtain ⟨added, -, hinserted⟩ := insertGame_ok hg
    have hi := hinserted hkeep
    obtain ⟨hcontents, hextends⟩ := ih (hi.linked hl) (hi.damage ▸ hkeep)
    rw [hcontents, hi.contents hl]
    refine ⟨?_, hextends.trans hi.extension⟩
    rw [List.map_cons, ← Multiset.cons_coe, Multiset.cons_add, Multiset.add_cons]

end

end Store
end ChessArchive
