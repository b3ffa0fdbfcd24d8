import ChessArchive.Material
import ChessArchive.Proofs.Board.Text
import ChessArchive.Proofs.Fen

/-! Boards as they are written. The six fields of such a text are words, so that whatever the board is, its text is read
    as a position: what stands on the board, the side to move and the rights to castle come back, while the names of the
    rooks, the en passant square and the clocks are not read. -/

namespace ChessArchive

/-! ### Fields -/

theorem Text.isWord_repr (n : Nat) : IsWord n.repr.toList := by
  rw [Nat.toList_repr]
  refine ⟨Nat.toDigits_ne_nil, fun c hc => ?_⟩
  exact not_blank_of_isDigit (Nat.isDigit_of_mem_toDigits (by decide) (by decide) hc)

theorem Square.isWord_name : ∀ s : Square, Text.IsWord s.name := by decide

theorem CastlingRights.isWord_text (r : CastlingRights) : Text.IsWord r.text.toList := by
  rcases r with ⟨a, b, c, d⟩
  cases a <;> cases b <;> cases c <;> cases d <;> decide

theorem Fen.parseSide_letter (c : Color) : parseSide (some [c.letter]) = .ok c := by
  cases c <;> rfl

namespace Board
open Placement

theorem isWord_enPassantText (b : Board) : Text.IsWord b.enPassantText := by
  rw [enPassantText]
  cases b.enPassantSquare? with
  | none => exact (by decide : Text.IsWord ['-'])
  | some s => exact s.isWord_name

theorem fields_text (b : Board) : Text.fields b.text.toList =
    [b.placement, [b.side.letter], b.castling.text.toList, b.enPassantText, b.halfmoves.repr.toList,
      b.fullmoves.repr.toList] := by
  have hside : Text.IsWord [b.side.letter] := by
    cases b.side <;> decide
  have htext : b.text.toList = [' '].intercalate [b.placement, [b.side.letter], b.castling.text.toList,
      b.enPassantText, b.halfmoves.repr.toList, b.fullmoves.repr.toList] := by
    simp [text]
  rw [htext]
  refine Text.fields_intercalate ?_
  simp only [List.forall_mem_cons]
  exact ⟨isWord_encodeBoard _, hside, b.castling.isWord_text, b.isWord_enPassantText, Text.isWord_repr _,
    Text.isWord_repr _, nofun⟩

/-! ### What stands on a board -/

theorem mem_occupied {b : Board} {s : Square} {p : Piece} : (s, p) ∈ b.occupied ↔ b.piece? s = some p := by
  simp only [occupied, List.mem_flatMap, List.mem_filterMap, List.mem_finRange, true_and, Option.map_eq_some_iff,
    Prod.mk.injEq]
  constructor
  · rintro ⟨row, file, q, hq, rfl, rfl⟩
    exact hq
  · intro h
    refine ⟨s.rankIndex.rev, s.fileIndex, p, ?_, ?_, rfl⟩
    · rwa [Fin.rev_rev, Square.ofFileRank_index]
    · rw [Fin.rev_rev, Square.ofFileRank_index]

/-- The pieces of a board are listed as they are written. -/
theorem occupied_squares (b : Board) : (b.occupied.map (·.1)).Pairwise Square.Before := by
  rw [List.pairwise_map, occupied, List.pairwise_flatMap]
  constructor
  · intro row _
    rw [List.pairwise_filterMap]
    refine (List.pairwise_lt_finRange 8).imp fun hlt e he e' he' => Or.inr ?_
    obtain ⟨p, -, rfl⟩ := Option.map_eq_some_iff.mp he
    obtain ⟨p', -, rfl⟩ := Option.map_eq_some_iff.mp he'
    simpa using hlt
  · refine (List.pairwise_lt_finRange 8).imp fun hlt e he e' he' => Or.inl ?_
    obtain ⟨file, -, he⟩ := List.mem_filterMap.mp he
    obtain ⟨file', -, he'⟩ := List.mem_filterMap.mp he'
    obtain ⟨p, -, rfl⟩ := Option.map_eq_some_iff.mp he
    obtain ⟨p', -, rfl⟩ := Option.map_eq_some_iff.mp he'
    simp only [Square.rank_ofFileRank, Fin.val_rev]
    omega

theorem decodeField_placement (b : Board) : decodeField b.placement = .ok b.occupied := by
  obtain ⟨placed, hplaced, hon⟩ := decodeField_encodeBoard b.piece?
  rw [placement, hplaced, eq_of_mem_iff (decodeField_squares hplaced) b.occupied_squares fun s p => ?_]
  rw [hon, mem_occupied]

theorem decode_placement (b : Board) : decode (String.ofList b.placement) = .ok b.occupied :=
  (decode_ofList (isWord_encodeBoard b.piece?)).trans b.decodeField_placement

/-- Of the text of a board, the position is read. -/
theorem parse_text (b : Board) : Fen.parse b.text = .ok ⟨String.ofList b.placement, b.side, b.castling⟩ := by
  simp only [Fen.parse, b.fields_text, b.decodeField_placement, List.head?_cons, List.tail_cons,
    Fen.parseSide_letter, Fen.parseCastling, b.castling.parse_text]
  rfl

/-- How many of each piece stand on a board. -/
def material (b : Board) : Material := ⟨fun p => (List.finRange 64).countP fun s => b.piece? s = some p⟩

theorem ofOccupied_occupied (b : Board) : Material.ofOccupied b.occupied = b.material := by
  have hnodup : (b.occupied.map (·.1)).Nodup := b.occupied_squares.imp Square.Before.ne
  refine congrArg Material.mk (funext fun p => ?_)
  -- Both count the squares with the piece.
  have hperm : ((b.occupied.filter fun e => e.2 = p).map (·.1)).Perm
      ((List.finRange 64).filter fun s => b.piece? s = some p) := by
    refine (List.perm_ext_iff_of_nodup ?_ ((List.nodup_finRange 64).filter _)).mpr fun s => ?_
    · exact hnodup.sublist (List.filter_sublist.map _)
    · simp [mem_occupied]
  rw [List.count_eq_countP, List.countP_map, List.countP_eq_length_filter, List.countP_eq_length_filter,
    ← hperm.length_eq, List.length_map]
  rfl

end Board
end ChessArchive
