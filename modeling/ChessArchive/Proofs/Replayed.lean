import ChessArchive.Proofs.Board.Written
import ChessArchive.Proofs.Decoded
import ChessArchive.Proofs.Fingerprint

/-! Games decoded from their replays. The text of every board can be read, so that a game is decoded as soon as it can be
    replayed; and each of its positions is what stands on the board that its moves lead to. -/

namespace ChessArchive

/-! ### Boards that moves lead to -/

namespace Replay

/-- The board after some moves, if each of them can be read on the board that the ones before it lead to. -/
def after? (b : Board) (moves : List String) : Option Board :=
  moves.foldlM (fun b text => (readMove b text).toOption.map b.play) b

theorem after?_cons {b : Board} {text : String} {m : Move} (h : readMove b text = .ok m) (moves : List String) :
    after? b (text :: moves) = after? (b.play m) moves := by
  simp [after?, h, Except.toOption]

theorem playAll_after {n : Nat} {b : Board} {moves : List String} {plies : List Ply}
    (h : playAll n b moves = .ok plies) {i : Nat} {ply : Ply} (hi : plies[i]? = some ply) :
    after? b (moves.take (i + 1)) = some ply.board := by
  induction moves generalizing n b plies i with
  | nil =>
    cases h
    cases hi
  | cons text rest ih =>
    unfold playAll at h
    split at h
    · cases h
    · split at h
      · cases h
      · rename_i m hm
        obtain ⟨later, hlater, rfl⟩ := map_ok_iff.mp h
        rw [List.take_succ_cons, after?_cons hm]
        cases i with
        | zero => exact congrArg (some ∘ Ply.board) (Option.some.inj hi)
        | succ i => exact ih hlater hi

/-- The boards of a replay are those that the first moves lead to, from none of them on to all. -/
theorem run_after {start : Option String} {moves : List String} {plies : List Ply} (h : run start moves = .ok plies) :
    ∃ b, startBoard start = .ok b ∧
      ∀ i ply, plies[i]? = some ply → ply.number = i ∧ after? b (moves.take i) = some ply.board := by
  obtain ⟨hnumbers, -⟩ := run_numbers h
  obtain ⟨b, hstart, h⟩ := bind_ok_iff.mp h
  obtain ⟨later, hlater, h⟩ := bind_ok_iff.mp h
  obtain rfl := pure_ok_iff.mp h
  refine ⟨b, hstart, fun i ply hi => ⟨?_, ?_⟩⟩
  · have hnumber : (List.range (moves.length + 1))[i]? = some ply.number := by
      rw [← hnumbers, List.getElem?_map, hi, Option.map_some]
    obtain ⟨hlt, hrange⟩ := List.getElem?_eq_some_iff.mp hnumber
    rw [← hrange, List.getElem_range]
  · cases i with
    | zero =>
      cases hi
      rfl
    | succ i => exact playAll_after hlater hi

end Replay

/-! ### Positions of boards -/

/-- A position holds what is on a board: its pieces, each on its square and no other, the side to move and the rights
    to castle; and what is derived from these is derived as it should be. -/
structure DecodedPosition.Depicts (keys : FingerprintKeys) (b : Board) (p : DecodedPosition) : Prop where
  board : p.board = String.ofList b.placement
  occupied : p.occupied = b.occupied
  placed : ∀ s q, (s, q) ∈ p.occupied ↔ b.piece? s = some q
  side : p.side = b.side
  castling : p.castling = b.castling
  material : p.material = b.material.signature
  fingerprint : p.fingerprint = xorOver keys.key (traits b.occupied b.side b.castling)

namespace DecodedGame

/-- Whatever its board is, a ply has a position. -/
theorem exists_position (keys : FingerprintKeys) (ply : Ply) :
    ∃ p, position keys ply = .ok p ∧ p.number = ply.number ∧ p.Depicts keys ply.board := by
  have hnodup : ply.board.occupied.Nodup := .of_map _ (ply.board.occupied_squares.imp Square.Before.ne)
  have hdecode := ply.board.decode_placement
  have hmaterial : Material.ofText (String.ofList ply.board.placement) = .ok ply.board.material := by
    rw [Material.ofText, hdecode, ← ply.board.ofOccupied_occupied]
    rfl
  have hfingerprint : keys.ofFen ⟨String.ofList ply.board.placement, ply.board.side, ply.board.castling⟩ =
      .ok (keys.ofOccupied ply.board.occupied ply.board.side ply.board.castling) :=
    bind_ok_iff.mpr ⟨_, hdecode, rfl⟩
  refine ⟨_, bind_ok_iff.mpr ⟨_, ply.board.parse_text, bind_ok_iff.mpr ⟨_, hdecode, bind_ok_iff.mpr ⟨_, hfingerprint,
    bind_ok_iff.mpr ⟨_, hmaterial, rfl⟩⟩⟩⟩, rfl, rfl, rfl, fun _ _ => Board.mem_occupied, rfl, rfl, rfl, ?_⟩
  exact FingerprintKeys.ofOccupied_eq hnodup _ _

theorem exists_positions (keys : FingerprintKeys) (plies : List Ply) :
    ∃ ps, plies.mapM (position keys) = .ok ps := by
  choose p hp _ using exists_position keys
  exact ⟨plies.map p, mapM_ok_iff.mpr (by simp [hp])⟩

/-- Decoding fails only where the replay does, and with the error of the replay. -/
theorem ofRaw_error {keys : FingerprintKeys} {raw : RawGame} {e : ArchiveError} (h : ofRaw keys raw = .error e) :
    ∃ cause, e = .replay cause ∧ Replay.run raw.startFen raw.moves = .error cause := by
  cases hrun : Replay.run raw.startFen raw.moves with
  | error cause =>
    rw [ofRaw, hrun] at h
    exact ⟨cause, (Except.error.inj h).symm, rfl⟩
  | ok plies =>
    obtain ⟨ps, hps⟩ := exists_positions keys plies
    rw [ofRaw, hrun] at h
    simp only [Except.mapError, hps, bind, Except.bind] at h
    cases h

theorem ofRaw_of_run {keys : FingerprintKeys} {raw : RawGame} {plies : List Ply}
    (h : Replay.run raw.startFen raw.moves = .ok plies) : ∃ g, ofRaw keys raw = .ok g := by
  cases hdecoded : ofRaw keys raw with
  | ok g => exact ⟨g, rfl⟩
  | error e =>
    obtain ⟨cause, -, hrun⟩ := ofRaw_error hdecoded
    rw [h] at hrun
    cases hrun

theorem ofRaw_positions {keys : FingerprintKeys} {raw : RawGame} {g : DecodedGame} (h : ofRaw keys raw = .ok g) :
    g.positions.length = raw.moves.length + 1 ∧ ∃ start, Replay.startBoard raw.startFen = .ok start ∧
      ∀ i p, g.positions[i]? = some p → p.number = i ∧
        ∃ b, Replay.after? start (raw.moves.take i) = some b ∧ p.Depicts keys b := by
  obtain ⟨plies, positions, hrun, hpositions, rfl⟩ := ofRaw_ok h
  obtain ⟨hnumbers, -⟩ := Replay.run_numbers hrun
  obtain ⟨start, hstart, hplies⟩ := Replay.run_after hrun
  refine ⟨?_, start, hstart, fun i p hp => ?_⟩
  · rw [← hpositions.length_eq, ← List.length_map (f := Ply.number), hnumbers, List.length_range]
  · obtain ⟨hlt, hp⟩ := List.getElem?_eq_some_iff.mp hp
    have hi : i < plies.length := hpositions.length_eq ▸ hlt
    have hposition : position keys plies[i] = .ok p := hp ▸ (List.forall₂_iff_get.mp hpositions).2 i hi hlt
    obtain ⟨hnumber, hafter⟩ := hplies i plies[i] (List.getElem?_eq_getElem hi)
    obtain ⟨q, hq, hqnumber, hdepicts⟩ := exists_position keys plies[i]
    obtain rfl : q = p := Except.ok.inj (hq.symm.trans hposition)
    exact ⟨hqnumber.trans hnumber, _, hafter, hdepicts⟩

/-- A game is decoded exactly if it can be replayed, since the text of each board of a replay can be read; and then its
    positions, one for the start and one for each move, show the boards that its moves lead to. -/
theorem decodes_iff_replays (keys : FingerprintKeys) (raw : RawGame) :
    ((∃ g, ofRaw keys raw = .ok g) ↔ ∃ plies, Replay.run raw.startFen raw.moves = .ok plies) ∧
    (∀ e, ofRaw keys raw = .error e → ∃ cause, e = .replay cause ∧
      Replay.run raw.startFen raw.moves = .error cause) ∧
    (∀ plies, Replay.run raw.startFen raw.moves = .ok plies →
      ∀ ply ∈ plies, ∃ fen, Fen.parse ply.board.text = .ok fen) ∧
    ∀ g, ofRaw keys raw = .ok g → g.positions.length = raw.moves.length + 1 ∧
      ∃ start, Replay.startBoard raw.startFen = .ok start ∧ ∀ i p, g.positions[i]? = some p → p.number = i ∧
        ∃ b, Replay.after? start (raw.moves.take i) = some b ∧ p.Depicts keys b := by
  refine ⟨⟨?_, ?_⟩, fun e he => ofRaw_error he, fun _ _ ply _ => ⟨_, ply.board.parse_text⟩, fun g hg => ofRaw_positions hg⟩
  · rintro ⟨g, hg⟩
    obtain ⟨plies, -, hrun, -⟩ := ofRaw_ok hg
    exact ⟨plies, hrun⟩
  · rintro ⟨plies, hrun⟩
    exact ofRaw_of_run hrun

/-- Each side may castle with one rook, neither of them in the corner, and white does so. -/
theorem decodes_iff_replays_castling :
    let keys : FingerprintKeys := ⟨.ofFn fun i => UInt64.ofNat i.val⟩
    let raw : RawGame := ⟨.empty, ["O-O"], some "1r2k3/8/8/8/8/8/8/4K1R1 w Gb - 3 9"⟩
    ∃ g start p b, ofRaw keys raw = .ok g ∧ Replay.startBoard raw.startFen = .ok start ∧ g.positions.length = 2 ∧
      g.positions[1]? = some p ∧ p.board = "1r2k3/8/8/8/8/8/8/5RK1" ∧ p.castling = ⟨false, false, false, true⟩ ∧
      p.number = 1 ∧ Replay.after? start ["O-O"] = some b ∧ p.Depicts keys b := by
  intro keys raw
  have hdecoded : (ofRaw keys raw).toOption.any (fun g => g.positions[1]?.map (fun p => (p.board, p.castling)) =
      some ("1r2k3/8/8/8/8/8/8/5RK1", ⟨false, false, false, true⟩)) = true := by
    decide +kernel
  obtain ⟨g, hg, hsecond⟩ := exists_ok_of_all hdecoded
  obtain ⟨p, hp, hread⟩ := Option.map_eq_some_iff.mp hsecond
  obtain ⟨hboard, hcastling⟩ := Prod.mk.inj hread
  obtain ⟨hlength, start, hstart, hpositions⟩ := (decodes_iff_replays keys raw).2.2.2 g hg
  obtain ⟨hnumber, b, hafter, hdepicts⟩ := hpositions 1 p hp
  exact ⟨g, start, p, b, hg, hstart, hlength, hp, hboard, hcastling, hnumber, hafter, hdepicts⟩

end DecodedGame
end ChessArchive
