import ChessArchive.Game.Decoded
import ChessArchive.Proofs.Reading

/-! What decoding a game yields. Its positions are numbered from 0 on without a gap, each is derived from its
    board, and its result is one of the four. -/

namespace ChessArchive

/-! ### Replays -/

namespace Replay

theorem playAll_numbers {n : Nat} {b : Board} {moves : List String} {plies : List Ply}
    (h : playAll n b moves = .ok plies) :
    plies.map (·.number) = List.range' (n + 1) moves.length ∧ ∀ p ∈ plies, p.san.isSome := by
  induction moves generalizing n b plies with
  | nil =>
    cases h
    simp
  | cons text rest ih =>
    unfold playAll at h
    split at h
    · cases h
    · split at h
      · cases h
      · obtain ⟨later, hlater, rfl⟩ := map_ok_iff.mp h
        obtain ⟨hnum, hsan⟩ := ih hlater
        simp only [List.map_cons, hnum, List.length_cons, List.range'_succ, List.forall_mem_cons]
        exact ⟨trivial, rfl, hsan⟩

theorem run_numbers {start : Option String} {moves : List String} {plies : List Ply}
    (h : run start moves = .ok plies) :
    plies.map (·.number) = List.range (moves.length + 1) ∧ ∀ p ∈ plies, p.san = none ↔ p.number = 0 := by
  obtain ⟨b, -, h⟩ := bind_ok_iff.mp h
  obtain ⟨later, hlater, h⟩ := bind_ok_iff.mp h
  obtain rfl := pure_ok_iff.mp h
  obtain ⟨hnum, hsan⟩ := playAll_numbers hlater
  refine ⟨by simp [hnum, List.range_eq_range', List.range'_succ], fun p hp => ?_⟩
  rcases List.mem_cons.mp hp with rfl | hp
  · simp
  · have hpos : p.number ∈ List.range' (0 + 1) moves.length := hnum ▸ List.mem_map_of_mem hp
    have hsome := hsan p hp
    rw [List.mem_range'_1] at hpos
    constructor
    · intro hnone
      simp [hnone] at hsome
    · omega

end Replay

/-! ### Positions -/

/-- All that a position holds is derived from its board, and only the start has no move that led to it. -/
structure DecodedPosition.Consistent (keys : FingerprintKeys) (p : DecodedPosition) : Prop where
  occupied : Placement.decode p.board = .ok p.occupied
  material : p.material = (Material.ofOccupied p.occupied).signature
  fingerprint : keys.fingerprint p.board p.side p.castling = .ok p.fingerprint
  start : p.san = none ↔ p.number = 0

/-- The positions of a game are consistent and numbered from 0 on, and its result is one of the four. -/
structure DecodedGame.Consistent (keys : FingerprintKeys) (g : DecodedGame) : Prop where
  positions : ∀ p ∈ g.positions, p.Consistent keys
  numbers : ∃ n, g.positions.map (·.number) = List.range (n + 1)
  result : (GameResult.ofToken? g.metadata.result).isSome

namespace DecodedGame

theorem position_consistent {keys : FingerprintKeys} {ply : Ply} {p : DecodedPosition}
    (h : position keys ply = .ok p) (hstart : ply.san = none ↔ ply.number = 0) : p.Consistent keys := by
  obtain ⟨fen, -, h⟩ := bind_ok_iff.mp h
  obtain ⟨occupied, hocc, h⟩ := bind_ok_iff.mp h
  obtain ⟨fingerprint, hfp, h⟩ := bind_ok_iff.mp h
  obtain ⟨material, hmat, h⟩ := bind_ok_iff.mp h
  obtain rfl := pure_ok_iff.mp h
  obtain ⟨occupied', hocc', rfl⟩ := map_ok_iff.mp hmat
  obtain rfl : occupied = occupied' := Except.ok.inj (hocc.symm.trans hocc')
  exact ⟨hocc, rfl, hfp, hstart⟩

/-- A position has the number and the move of its ply, and what it takes from the board can be read off its text. -/
theorem position_ok {keys : FingerprintKeys} {ply : Ply} {p : DecodedPosition} (h : position keys ply = .ok p) :
    p.number = ply.number ∧ p.san = ply.san ∧ Fen.parse ply.board.text = .ok ⟨p.board, p.side, p.castling⟩ := by
  obtain ⟨fen, hfen, h⟩ := bind_ok_iff.mp h
  obtain ⟨_, -, h⟩ := bind_ok_iff.mp h
  obtain ⟨_, -, h⟩ := bind_ok_iff.mp h
  obtain ⟨_, -, h⟩ := bind_ok_iff.mp h
  obtain rfl := pure_ok_iff.mp h
  exact ⟨rfl, rfl, hfen⟩

theorem positions_numbers {keys : FingerprintKeys} {plies : List Ply} {ps : List DecodedPosition}
    (h : List.Forall₂ (fun ply p => position keys ply = .ok p) plies ps) :
    ps.map (·.number) = plies.map (·.number) := by
  induction h with
  | nil => rfl
  | cons hp _ ih => rw [List.map_cons, List.map_cons, (position_ok hp).1, ih]

/-- A decoded game has a position for each ply of its replay. -/
theorem ofRaw_ok {keys : FingerprintKeys} {raw : RawGame} {g : DecodedGame} (h : ofRaw keys raw = .ok g) :
    ∃ plies positions, Replay.run raw.startFen raw.moves = .ok plies ∧
      List.Forall₂ (fun ply p => position keys ply = .ok p) plies positions ∧
      g = ⟨.ofTags raw.tags, raw.moves, raw.startFen.filter fun f => Text.trimmed f ≠ Fen.start, positions⟩ := by
  obtain ⟨plies, hplies, h⟩ := bind_ok_iff.mp h
  obtain ⟨positions, hpositions, h⟩ := bind_ok_iff.mp h
  exact ⟨plies, positions, mapError_ok_iff.mp hplies, mapM_ok_iff.mp (mapError_ok_iff.mp hpositions),
    (pure_ok_iff.mp h).symm⟩

/-- Every game that decoding accepts is consistent. -/
theorem ofRaw_consistent {keys : FingerprintKeys} {raw : RawGame} {g : DecodedGame} (h : ofRaw keys raw = .ok g) :
    g.Consistent keys := by
  obtain ⟨plies, positions, hplies, hpos, rfl⟩ := ofRaw_ok h
  obtain ⟨hnum, hstart⟩ := Replay.run_numbers hplies
  refine ⟨fun p hp => ?_, ⟨raw.moves.length, ?_⟩, by simp [Metadata.ofTags, GameResult.ofToken?_token]⟩
  · obtain ⟨ply, hply, h⟩ := exists_of_mem_right hpos p hp
    exact position_consistent h (hstart ply hply)
  · rw [← hnum]
    exact positions_numbers hpos

end DecodedGame
end ChessArchive
