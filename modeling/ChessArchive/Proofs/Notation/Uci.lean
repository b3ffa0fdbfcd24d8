import ChessArchive.Proofs.Notation.San
import ChessArchive.Replay

/-! Coordinate texts of legal moves, read back. A text denotes the move that it writes, with one exception: a rook or
    queen that leaves the e-file of a back rank for the g- or c-file is read as going into the corner of that rank, if
    it can go there. And a king that could castle is read as castling whatever the rank of its target. -/

namespace ChessArchive

/-! ### Texts of moves -/

/-- A character that a coordinate text can hold. -/
def Uci.isPlain (c : Char) : Bool :=
  !Text.isBlank c && !San.isMark c && !c.isUpper && c != 'x' && c != '=' && c != '0'

theorem Uci.plain_name : ∀ s : Square, s.name.all isPlain = true := by decide

theorem Uci.plain_lower : ∀ k : Kind, isPlain k.lower = true := by rintro (_ | _ | _ | _ | _ | _) <;> decide

theorem Uci.plain_text (m : Move) : ∀ c ∈ m.text, isPlain c = true := by
  intro c hc
  simp only [Move.text, List.mem_append, Option.mem_toList, Option.map_eq_some_iff] at hc
  rcases hc with (hc | hc) | ⟨k, -, rfl⟩
  · exact List.all_eq_true.mp (plain_name _) c hc
  · exact List.all_eq_true.mp (plain_name _) c hc
  · exact plain_lower k

theorem Move.ofText?_text {m : Move} (h : m.promotion ≠ some .king ∧ m.promotion ≠ some .pawn) :
    ofText? m.text = some m := by
  rcases m with ⟨s, t, promotion⟩
  have hread : promotionOf? (promotion.map Kind.lower).toList = some promotion := by
    cases promotion with
    | none => rfl
    | some k => cases k <;> simp_all <;> decide
  have hs := Square.ofName?_name s
  have ht := Square.ofName?_name t
  simp only [Square.name] at hs ht
  simp [text, Square.name, ofText?, hs, ht, hread]

/-! ### Read as algebraic notation -/

namespace San

theorem core_format (m : Move) : core (Uci.format m) = m.text := by
  have hplain := Uci.plain_text m
  simp only [Uci.isPlain, Bool.and_eq_true, Bool.not_eq_true'] at hplain
  have hblank : ∀ c ∈ m.text, Text.isBlank c = false := fun c hc => (hplain c hc).1.1.1.1.1
  have hmark : ∀ c ∈ m.text, isMark c = false := fun c hc => (hplain c hc).1.1.1.1.2
  rw [core, Uci.format, String.toList_ofList, Text.trim, Text.dropWhile_of_none hblank,
    Text.dropEndWhile_of_none hblank, Text.dropEndWhile_of_none hmark]

theorem castlingWing?_text (m : Move) : castlingWing? m.text = none :=
  castlingWing?_of_all (by decide) (List.all_eq_true.mpr (Uci.plain_text m))

theorem readKind_plain {s : List Char} (h : ∀ c ∈ s, Uci.isPlain c = true) :
    MoveSpec.readKind s = some (.pawn, s) ∧ MoveSpec.readPromotion .pawn s = some (none, s) := by
  have hupper : ∀ c ∈ s, c.isUpper = false := by
    intro c hc
    have := h c hc
    simp only [Uci.isPlain, Bool.and_eq_true, Bool.not_eq_true'] at this
    exact this.1.1.1.2
  constructor
  · cases s with
    | nil => rfl
    | cons c s => simp [MoveSpec.readKind, hupper c List.mem_cons_self]
  · unfold MoveSpec.readPromotion
    split
    · rename_i c hc
      simp [hupper c (List.mem_of_getLast? hc)]
    · rfl

theorem readOrigin_name : ∀ s : Square, MoveSpec.readOrigin s.name = some (some s.fileIndex, some s.rankIndex) := by
  decide

/-- As algebraic notation, a coordinate text is a pawn move between the two squares; with a promotion it is nothing. -/
theorem spec_text (m : Move) : MoveSpec.parse m.text =
    if m.promotion = none then
      some ⟨.pawn, some m.source.fileIndex, some m.source.rankIndex, m.target, none⟩
    else none := by
  have hplain := Uci.plain_text m
  have hfilter : m.text.filter (fun c => c != 'x' && c != '=') = m.text := by
    refine List.filter_eq_self.mpr fun c hc => ?_
    have := hplain c hc
    simp only [Uci.isPlain, Bool.and_eq_true] at this
    rw [Bool.and_eq_true]
    exact ⟨this.1.1.2, this.1.2⟩
  obtain ⟨hkind, hpromotion⟩ := readKind_plain hplain
  rw [MoveSpec.parse, hfilter, hkind]
  simp only [bind, Option.bind, hpromotion]
  rcases m with ⟨s, t, promotion⟩
  have hs := readOrigin_name s
  have ht := Square.ofName?_name t
  simp only [Square.name] at hs ht
  cases promotion with
  | none => simp [Move.text, Square.name, hs, ht]
  | some k => simp [Move.text, Square.name]

/-- Algebraic notation gives a coordinate text its own meaning, if any. -/
theorem parse_format {b : Board} {m m' : Move} (h : San.parse b (Uci.format m) = .ok m') :
    m' = m ∧ b.piece? m.source = some ⟨b.side, .pawn⟩ := by
  simp only [parse, core_format, castlingWing?_text, spec_text] at h
  split at h
  · cases h
  · by_cases hp : m.promotion = none
    · rw [if_pos hp] at h
      simp only at h
      split at h
      · cases h
      · rename_i m'' hfilter
        cases h
        have hmem : m' ∈ b.legalMoves.filter (MoveSpec.accepts ⟨.pawn, some m.source.fileIndex,
            some m.source.rankIndex, m.target, none⟩ b) := hfilter ▸ List.mem_singleton.mpr rfl
        have haccepts := (List.mem_filter.mp hmem).2
        simp only [MoveSpec.accepts, Bool.and_eq_true, decide_eq_true_eq, Option.all_some] at haccepts
        obtain ⟨⟨⟨⟨⟨hpiece, -⟩, htarget⟩, hpromotion⟩, hfile⟩, hrank⟩ := haccepts
        have hsource : m'.source = m.source := Square.ext_coords hfile hrank
        refine ⟨?_, hsource ▸ hpiece⟩
        cases m
        cases m'
        simp_all only
      · cases h
    · rw [if_neg hp] at h
      cases h

end San

/-! ### Moves toward the corners -/

namespace Uci

/-- `m` goes two files from the e-file of a back rank, and `corner` to the corner of that rank which lies that way. -/
structure TowardCorner (m corner : Move) : Prop where
  backRank : ∃ c : Color, c.backRank = m.source.rankIndex
  file : m.source.file = 4
  promotion : m.promotion = none
  wing : (m.target.file = 6 ∧ corner = ⟨m.source, .ofFileRank 7 m.source.rankIndex, none⟩) ∨
    (m.target.file = 2 ∧ corner = ⟨m.source, .ofFileRank 0 m.source.rankIndex, none⟩)

/-- A rook or a queen makes a move whose text is read as that of its move into the corner. -/
structure Misread (b : Board) (m corner : Move) : Prop where
  piece : b.piece? m.source = some ⟨b.side, .rook⟩ ∨ b.piece? m.source = some ⟨b.side, .queen⟩
  toward : TowardCorner m corner
  legal : corner ∈ b.legalMoves

/-- `m` is `castling` written as the king going where it then stands, on the rank that it stands on. -/
structure WritesCastling (b : Board) (m castling : Move) : Prop where
  legal : castling ∈ b.castlings
  source : castling.source = m.source
  target : m.target = .ofFileRank (b.castlingFiles castling.target.file).1 m.source.rankIndex
  promotion : m.promotion = none

variable {b : Board} {m m' corner : Move}

theorem castlingFor?_iff : castlingFor? m = some corner ↔ TowardCorner m corner := by
  have hranks : [Color.white, .black].any (·.backRank = m.source.rankIndex) = true ↔
      ∃ c : Color, c.backRank = m.source.rankIndex := by
    simp only [List.any_eq_true, decide_eq_true_eq]
    exact exists_congr fun c => and_iff_right (by cases c <;> decide)
  simp only [castlingFor?]
  constructor
  · intro h
    split at h
    · rename_i hstart
      obtain ⟨hrank, hfile, hpromotion⟩ := hstart
      refine ⟨hranks.mp hrank, hfile, hpromotion, ?_⟩
      split at h
      · rename_i htarget
        cases h
        exact Or.inl ⟨htarget, rfl⟩
      · split at h
        · rename_i htarget
          cases h
          exact Or.inr ⟨htarget, rfl⟩
        · cases h
    · cases h
  · rintro ⟨hrank, hfile, hpromotion, hwing⟩
    rw [if_pos ⟨hranks.mpr hrank, hfile, hpromotion⟩]
    rcases hwing with ⟨htarget, rfl⟩ | ⟨htarget, rfl⟩ <;> rw [htarget] <;> rfl

namespace TowardCorner

theorem source (h : TowardCorner m corner) : corner.source = m.source := by
  rcases h.wing with ⟨-, rfl⟩ | ⟨-, rfl⟩ <;> rfl

theorem rank (h : TowardCorner m corner) : corner.target.rank = m.source.rank := by
  rcases h.wing with ⟨-, rfl⟩ | ⟨-, rfl⟩ <;> exact Square.rank_ofFileRank _ _

theorem files (h : TowardCorner m corner) :
    (m.target.file = 6 ∧ corner.target.file = 7) ∨ (m.target.file = 2 ∧ corner.target.file = 0) := by
  rcases h.wing with ⟨htarget, rfl⟩ | ⟨htarget, rfl⟩
  · exact Or.inl ⟨htarget, Square.file_ofFileRank _ _⟩
  · exact Or.inr ⟨htarget, Square.file_ofFileRank _ _⟩

theorem ne (h : TowardCorner m corner) : corner ≠ m := by
  rintro rfl
  rcases h.files with ⟨h₁, h₂⟩ | ⟨h₁, h₂⟩ <;> omega

/-- Into a corner a rook or a queen moves, and a king castles. -/
theorem legal (h : TowardCorner m corner) (hc : corner ∈ b.legalMoves) :
    (b.piece? m.source = some ⟨b.side, .rook⟩ ∨ b.piece? m.source = some ⟨b.side, .queen⟩) ∨
      (corner ∈ b.castlings ∧ b.piece? m.source = some ⟨b.side, .king⟩) := by
  rcases Board.mem_legalMoves.mp hc with ⟨hmove, -⟩ | hcastling
  · obtain ⟨-, k, hk, ht, -⟩ := Board.mem_movesFrom.mp hmove
    rw [h.source] at hk ht
    have hfar : m.source.file + 1 < corner.target.file ∨ corner.target.file + 1 < m.source.file := by
      rcases h.files with ⟨-, hfile⟩ | ⟨-, hfile⟩ <;> rw [h.file, hfile] <;> decide
    rcases Board.far_target_kind ht h.rank hfar with rfl | rfl
    · exact Or.inl (Or.inl hk)
    · exact Or.inl (Or.inr hk)
  · exact Or.inr ⟨hcastling, h.source ▸ Board.king?_piece (Board.mem_castlings hcastling).1⟩

end TowardCorner

/-! ### Texts of legal moves -/

theorem resolve_toward {legal : List Move} (h : TowardCorner m corner) (hc : corner ∈ legal) :
    resolve legal m = corner := by
  rw [resolve, castlingFor?_iff.mpr h]
  exact if_pos hc

theorem resolve_changed {legal : List Move} (h : resolve legal m ≠ m) :
    TowardCorner m (resolve legal m) ∧ resolve legal m ∈ legal := by
  unfold resolve at h ⊢
  split
  · rename_i corner hcorner
    rw [hcorner] at h
    by_cases hlegal : corner ∈ legal
    · rw [if_pos hlegal]
      exact ⟨castlingFor?_iff.mp hcorner, hlegal⟩
    · exact absurd (if_neg hlegal) h
  · rename_i hnone
    rw [hnone] at h
    exact absurd rfl h

theorem parse_eq_some {text : String} (h : Move.ofText? text.toList = some m) :
    parse b text = some m' ↔ resolve b.legalMoves m = m' ∧ m' ∈ b.legalMoves := by
  simp only [parse, h, Option.bind_some, Option.ite_none_right_eq_some, Option.some.injEq]
  constructor
  · rintro ⟨hlegal, rfl⟩
    exact ⟨rfl, hlegal⟩
  · rintro ⟨rfl, hlegal⟩
    exact ⟨hlegal, rfl⟩

theorem ofText?_format (hm : m ∈ b.legalMoves) : Move.ofText? (format m).toList = some m := by
  rw [format, String.toList_ofList]
  exact Move.ofText?_text (Board.promotion_of_legal hm)

/-- Kings do not move two files but castle, and a king that can castle one way goes that way. -/
theorem piece_of_toward (hb : b.RooksBeside) (hm : m ∈ b.legalMoves) (h : TowardCorner m corner)
    (hc : corner ∈ b.legalMoves) :
    b.piece? m.source = some ⟨b.side, .rook⟩ ∨ b.piece? m.source = some ⟨b.side, .queen⟩ := by
  rcases h.legal hc with hpiece | ⟨hcastling, hking⟩
  · exact hpiece
  · exfalso
    have hfile := h.file
    rcases Board.mem_legalMoves.mp hm with ⟨hmove, -⟩ | hcastling'
    · obtain ⟨-, k, hk, ht, -⟩ := Board.mem_movesFrom.mp hmove
      obtain rfl : Kind.king = k := by
        rw [hking, Option.some.injEq, Piece.mk.injEq] at hk
        exact hk.2
      have hnear := Board.king_target_near ht
      rcases h.files with ⟨htarget, -⟩ | ⟨htarget, -⟩ <;> omega
    · refine h.ne (Board.castlings_eq hb hcastling hcastling' ?_)
      rw [h.source]
      rcases h.files with ⟨htarget, hcorner⟩ | ⟨htarget, hcorner⟩ <;> omega

theorem not_misread_of_pawn (h : b.piece? m.source = some ⟨b.side, .pawn⟩) : ¬ Misread b m corner := by
  rintro ⟨hpiece | hpiece, -, -⟩ <;> rw [h] at hpiece <;> cases hpiece

theorem parse_format_iff (hb : b.RooksBeside) (hm : m ∈ b.legalMoves) :
    parse b (format m) = some m ↔ ∀ corner, ¬ Misread b m corner := by
  rw [parse_eq_some (ofText?_format hm), and_iff_left hm]
  constructor
  · rintro hsame corner ⟨-, htoward, hlegal⟩
    exact htoward.ne (resolve_toward htoward hlegal ▸ hsame)
  · intro hnone
    by_contra hchanged
    obtain ⟨htoward, hlegal⟩ := resolve_changed hchanged
    exact hnone _ ⟨piece_of_toward hb hm htoward hlegal, htoward, hlegal⟩

theorem readMove_format_iff (hb : b.RooksBeside) (hm : m ∈ b.legalMoves) :
    Replay.readMove b (format m) = .ok m ↔ ∀ corner, ¬ Misread b m corner := by
  unfold Replay.readMove
  cases hsan : San.parse b (format m) with
  | ok m' =>
    obtain ⟨rfl, hpawn⟩ := San.parse_format hsan
    exact iff_of_true rfl fun _ => not_misread_of_pawn hpawn
  | error cause =>
    rw [← parse_format_iff hb hm]
    cases parse b (format m) with
    | none => exact iff_of_false nofun nofun
    | some m' => simp only [Except.ok.injEq, Option.some.injEq]

theorem castlingFiles_toward (hb : b.RooksBeside) (h : TowardCorner m corner) (hc : corner ∈ b.castlings) :
    m.target.file = (b.castlingFiles corner.target.file).1.val := by
  rw [Board.castlingFiles_side hb hc, h.source, h.file]
  rcases h.files with ⟨htarget, hcorner⟩ | ⟨htarget, hcorner⟩ <;> rw [htarget, hcorner] <;> rfl

/-- A move that is read as castling writes it if a king makes it along its rank. -/
theorem writesCastling_iff (hb : b.RooksBeside) (h : TowardCorner m corner) (hc : corner ∈ b.legalMoves) :
    WritesCastling b m corner ↔ b.piece? m.source = some ⟨b.side, .king⟩ ∧ m.target.rank = m.source.rank := by
  constructor
  · rintro ⟨hcastling, hsource, htarget, -⟩
    refine ⟨hsource ▸ Board.king?_piece (Board.mem_castlings hcastling).1, ?_⟩
    rw [htarget, Square.rank_ofFileRank]
    rfl
  · rintro ⟨hking, hrank⟩
    rcases h.legal hc with (hpiece | hpiece) | ⟨hcastling, -⟩
    · rw [hking] at hpiece
      cases hpiece
    · rw [hking] at hpiece
      cases hpiece
    · refine ⟨hcastling, h.source, Square.ext_coords ?_ ?_, h.promotion⟩
      · rw [Square.file_ofFileRank]
        exact castlingFiles_toward hb h hcastling
      · rw [Square.rank_ofFileRank]
        exact hrank

/-- A legal move is read back from its text, by the reader of coordinates and in a game, exactly if it is not one of
    a rook or a queen that could go into the corner. A text that is read as another move than it spells writes
    castling exactly if it spells a king's move along its rank. -/
theorem texts_denote (hb : b.Reached) :
    (∀ m ∈ b.legalMoves,
      (parse b (format m) = some m ↔ ∀ corner, ¬ Misread b m corner) ∧
      (Replay.readMove b (format m) = .ok m ↔ ∀ corner, ¬ Misread b m corner)) ∧
    ∀ text m m', Move.ofText? text.toList = some m → parse b text = some m' → m' ≠ m →
      (WritesCastling b m m' ↔
        b.piece? m.source = some ⟨b.side, .king⟩ ∧ m.target.rank = m.source.rank) := by
  have hrooks := hb.rooksBeside
  refine ⟨fun m hm => ⟨parse_format_iff hrooks hm, readMove_format_iff hrooks hm⟩, ?_⟩
  intro text m m' htext hparse hne
  obtain ⟨rfl, hlegal⟩ := (parse_eq_some htext).mp hparse
  exact writesCastling_iff hrooks (resolve_changed hne).1 hlegal

/-- With a rook on e1, its move to g1 is read as its move to h1. -/
theorem texts_denote_rook_on_e_file : ∃ b, Board.ofText? "k7/8/8/8/8/8/8/K3R3 w - - 0 1" = some b ∧
    (⟨4, 5, none⟩ ∈ b.legalMoves ∧ parse b (format ⟨4, 5, none⟩) = some ⟨4, 5, none⟩) ∧
    (⟨4, 6, none⟩ ∈ b.legalMoves ∧ parse b (format ⟨4, 6, none⟩) ≠ some ⟨4, 6, none⟩ ∧
      Replay.readMove b (format ⟨4, 6, none⟩) ≠ .ok ⟨4, 6, none⟩) ∧
    parse b "e1g1" = some ⟨4, 7, none⟩ ∧ ¬ WritesCastling b ⟨4, 6, none⟩ ⟨4, 7, none⟩ := by
  obtain ⟨b, hb, hrun⟩ := (Option.any_eq_true (fun b : Board => decide (b.piece? 4 = some ⟨.white, .rook⟩ ∧
    b.side = .white ∧ ⟨4, 5, none⟩ ∈ b.legalMoves ∧ ⟨4, 6, none⟩ ∈ b.legalMoves ∧ ⟨4, 7, none⟩ ∈ b.legalMoves ∧
    parse b "e1g1" = some ⟨4, 7, none⟩)) (Board.ofText? "k7/8/8/8/8/8/8/K3R3 w - - 0 1")).mp (by decide +kernel)
  obtain ⟨hrook, hside, hstep, hfar, hcorner, hread⟩ := of_decide_eq_true hrun
  obtain ⟨htexts, hconverse⟩ := texts_denote (Board.Reached.read hb)
  have hmisread : Misread b ⟨4, 6, none⟩ ⟨4, 7, none⟩ :=
    ⟨Or.inl (hside ▸ hrook), castlingFor?_iff.mp rfl, hcorner⟩
  have hnear : ∀ corner, ¬ Misread b ⟨4, 5, none⟩ corner := fun corner h =>
    absurd (castlingFor?_iff.mpr h.toward) nofun
  refine ⟨b, hb, ⟨hstep, (htexts _ hstep).1.mpr hnear⟩, ⟨hfar, ?_, ?_⟩, hread, ?_⟩
  · exact fun h => (htexts _ hfar).1.mp h _ hmisread
  · exact fun h => (htexts _ hfar).2.mp h _ hmisread
  · intro hwrites
    have hking := ((hconverse "e1g1" _ _ (by decide) hread (by decide)).mp hwrites).1
    simp [hrook] at hking

end Uci

end ChessArchive
