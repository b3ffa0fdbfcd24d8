import ChessArchive.Board.Text
import ChessArchive.Proofs.Board.Moves
import ChessArchive.Proofs.Reading

/-! Castling rooks in the boards of a game. A side's short rook stands to the right of its king and its long rook to
    the left, for as long as it may castle with them. -/

namespace ChessArchive

namespace Rooks

/-- The rights of `r` are rights of `s`. -/
structure Within (r s : Rooks) : Prop where
  short : ∀ f, r.short = some f → s.short = some f
  long : ∀ f, r.long = some f → s.long = some f

theorem Within.refl (r : Rooks) : r.Within r := ⟨fun _ h => h, fun _ h => h⟩

theorem none_within (r : Rooks) : Rooks.none.Within r := ⟨nofun, nofun⟩

theorem drop_within (r : Rooks) (file : Nat) : (r.drop file).Within r :=
  ⟨fun _ h => (Option.filter_eq_some_iff.mp h).1, fun _ h => (Option.filter_eq_some_iff.mp h).1⟩

end Rooks

namespace Board

/-- The boards of games: those that can be read or that a game starts with, and all that legal moves lead to. -/
inductive Reached : Board → Prop where
  | start : Reached .start
  | read {text : String} {b : Board} : ofText? text = some b → Reached b
  | play {b : Board} {m : Move} : Reached b → m ∈ b.legalMoves → Reached (b.play m)

/-- The castling rooks of each side stand on their sides of its king. -/
def RooksBeside (b : Board) : Prop := ∀ c s, b.piece? s = some ⟨c, .king⟩ →
  (∀ f, (b.rooks c).short = some f → s.file < f.val) ∧ (∀ f, (b.rooks c).long = some f → f.val < s.file)

variable {b : Board} {m : Move}

/-! ### Playing -/

theorem ownRooksAfter_within (b : Board) (m : Move) : (b.ownRooksAfter m).Within (b.rooks b.side) := by
  simp only [ownRooksAfter]
  split
  · exact Rooks.none_within _
  · split
    · exact Rooks.drop_within _ _
    · exact .refl _
  · exact .refl _

theorem otherRooksAfter_within (b : Board) (m : Move) : (b.otherRooksAfter m).Within (b.rooks b.side.flip) := by
  simp only [otherRooksAfter]
  split
  · exact Rooks.drop_within _ _
  · exact .refl _

theorem ownRooksAfter_king {c : Color} (h : b.piece? m.source = some ⟨c, .king⟩) : b.ownRooksAfter m = .none := by
  simp [ownRooksAfter, h]

theorem rooks_play (b : Board) (m : Move) (c : Color) :
    (b.play m).rooks c = if c = b.side then b.ownRooksAfter m else b.otherRooksAfter m := by
  cases hs : b.side <;> cases c <;> simp [play, rooks, hs]

theorem rooks_play_within (b : Board) (m : Move) (c : Color) : ((b.play m).rooks c).Within (b.rooks c) := by
  rw [rooks_play]
  split
  · rename_i hc
    exact hc ▸ ownRooksAfter_within b m
  · rename_i hc
    have hflip : c = b.side.flip := by
      cases hs : b.side <;> cases c <;> simp_all [Color.flip]
    exact hflip ▸ otherRooksAfter_within b m

theorem piece?_castled {s : Square} {p : Piece} (h : (b.castled m).piece? s = some p) :
    p.color = b.side ∨ b.piece? s = some p := by
  simp only [castled, Cells.piece?_put] at h
  split at h
  · cases h
    exact Or.inl rfl
  · split at h
    · cases h
      exact Or.inl rfl
    · split at h
      · cases h
      · split at h
        · cases h
        · exact Or.inr h

theorem piece?_arrived {cells : Cells} {s t u : Square} {p : Piece} {arriving : Option Piece}
    (h : ((cells.put s none).put t arriving).piece? u = some p) : cells.piece? u = some p ∨ arriving = some p := by
  simp only [Cells.piece?_put] at h
  split at h
  · exact Or.inr h
  · split at h
    · cases h
    · exact Or.inl h

theorem piece?_moved {s : Square} {p : Piece} (h : (b.moved m).piece? s = some p) :
    b.piece? s = some p ∨
      (b.piece? m.source).map (fun q => { q with kind := m.promotion.getD q.kind }) = some p := by
  simp only [moved] at h
  split at h
  · split at h
    · rw [Cells.piece?_put] at h
      split at h
      · cases h
      · exact piece?_arrived h
    · exact piece?_arrived h
  · exact piece?_arrived h

/-- A king stands where it stood, unless it has just moved. -/
theorem king_play (hm : m ∈ b.legalMoves) {c : Color} {s : Square} (h : (b.play m).piece? s = some ⟨c, .king⟩) :
    b.piece? s = some ⟨c, .king⟩ ∨ (c = b.side ∧ b.piece? m.source = some ⟨b.side, .king⟩) := by
  have hcells : (b.cellsAfter m).piece? s = some ⟨c, .king⟩ := h
  unfold cellsAfter at hcells
  split at hcells
  · rename_i hcastling
    have hking := king?_piece (mem_castlings (castlings_of_isCastling hm hcastling)).1
    rcases piece?_castled hcells with hc | hstood
    · exact Or.inr ⟨hc, hking⟩
    · exact Or.inl hstood
  · rcases piece?_moved hcells with hstood | harrived
    · exact Or.inl hstood
    · obtain ⟨k, hk⟩ := source_of_legal hm
      rw [hk, Option.map_some, Option.some.injEq, Piece.mk.injEq] at harrived
      obtain ⟨rfl, hkind⟩ := harrived
      cases hp : m.promotion with
      | none =>
        rw [hp] at hkind
        obtain rfl : k = .king := hkind
        exact Or.inr ⟨rfl, hk⟩
      | some k' =>
        rw [hp] at hkind
        obtain rfl : k' = .king := hkind
        exact absurd hp (promotion_of_legal hm).1

theorem RooksBeside.play (h : b.RooksBeside) (hm : m ∈ b.legalMoves) : (b.play m).RooksBeside := by
  intro c s hs
  have hwithin := rooks_play_within b m c
  rcases king_play hm hs with hstood | ⟨rfl, hking⟩
  · obtain ⟨hshort, hlong⟩ := h c s hstood
    exact ⟨fun f hf => hshort f (hwithin.short f hf), fun f hf => hlong f (hwithin.long f hf)⟩
  · rw [rooks_play, if_pos rfl, ownRooksAfter_king hking]
    exact ⟨nofun, nofun⟩

/-! ### Reading -/

theorem rooksBeside_start : Board.start.RooksBeside := by
  have hkings : ∀ s : Square, (Board.start.piece? s = some ⟨.white, .king⟩ → s.file = 4) ∧
      (Board.start.piece? s = some ⟨.black, .king⟩ → s.file = 4) := by decide +kernel
  intro c s hs
  have hfile : s.file = 4 := by
    cases c
    · exact (hkings s).1 hs
    · exact (hkings s).2 hs
  have hrooks : Board.start.rooks c = .corners := by cases c <;> rfl
  rw [hrooks, hfile]
  constructor
  · rintro f ⟨⟩
    decide
  · rintro f ⟨⟩
    decide

theorem eq_of_countP_le_one {α : Type} {p : α → Bool} {xs : List α} (h : xs.countP p ≤ 1) {i j : Nat} {x y : α}
    (hi : xs[i]? = some x) (hj : xs[j]? = some y) (hx : p x = true) (hy : p y = true) : i = j := by
  induction xs generalizing i j with
  | nil => simp at hi
  | cons z xs ih =>
    rw [List.countP_cons] at h
    have hlone : p z = true → ∀ k w, xs[k]? = some w → ¬ p w = true := fun hz k w hw hpw => by
      have hpos := List.countP_pos_iff.mpr ⟨w, List.mem_of_getElem? hw, hpw⟩
      rw [if_pos hz] at h
      omega
    cases i with
    | zero =>
      obtain rfl : z = x := by simpa using hi
      cases j with
      | zero => rfl
      | succ j => exact absurd hy (hlone hx j y (by simpa using hj))
    | succ i =>
      cases j with
      | zero =>
        obtain rfl : z = y := by simpa using hj
        exact absurd hx (hlone hy i x (by simpa using hi))
      | succ j =>
        have hrest : xs.countP p ≤ 1 := Nat.le_trans (Nat.le_add_right _ _) h
        exact congrArg Nat.succ (ih hrest (by simpa using hi) (by simpa using hj))

theorem countCells_king (cells : Cells) (h : hasFairMaterial cells = true) (c : Color) :
    countCells cells (· = ⟨c, .king⟩) = 1 := by
  simp only [hasFairMaterial, List.all_cons, List.all_nil, Bool.and_eq_true, Bool.and_true, decide_eq_true_eq] at h
  cases c
  · exact h.1.1.1.1
  · exact h.1.2.1.1

/-- Boards with fair material have no second king of a colour. -/
theorem king?_of_fair {cells : Cells} (h : hasFairMaterial cells = true) {c : Color} {s : Square}
    (hs : cells.piece? s = some ⟨c, .king⟩) : cells.king? c = some s := by
  cases hk : cells.king? c with
  | none =>
    have hnone := List.find?_eq_none.mp hk s (List.mem_finRange s)
    simp [hs] at hnone
  | some k =>
    have hcell : ∀ {u : Square}, cells.piece? u = some ⟨c, .king⟩ → cells.toList[u.val]? = some (some ⟨c, .king⟩) := by
      intro u hu
      rw [← hu, Cells.piece?, Vector.getElem?_toList]
      exact Vector.getElem?_eq_getElem u.isLt
    have heq := eq_of_countP_le_one (countCells_king cells h c).le (hcell (king?_piece hk)) (hcell hs) (by simp) (by simp)
    rw [Fin.ext heq]

theorem readRooks_inPlace {cells : Cells} {grant? : Char → Option Grant} {field : List Char} {rooks : Rooks × Rooks}
    (h : readRooks cells grant? field = some rooks) :
    rooksInPlace cells .white rooks.1 = true ∧ rooksInPlace cells .black rooks.2 = true := by
  simp only [readRooks] at h
  obtain ⟨grants, -, h⟩ := Option.bind_eq_some_iff.mp h
  obtain ⟨found, -, h⟩ := Option.bind_eq_some_iff.mp h
  split at h
  · rename_i hplace
    cases h
    exact Bool.and_eq_true_iff.mp hplace
  · cases h

theorem readCastling_inPlace {cells : Cells} {field : List Char} {rooks : Rooks × Rooks}
    (h : readCastling cells field = some rooks) :
    rooksInPlace cells .white rooks.1 = true ∧ rooksInPlace cells .black rooks.2 = true := by
  unfold readCastling at h
  cases hcorner : readRooks cells cornerGrant? field with
  | some found =>
    rw [hcorner] at h
    cases h
    exact readRooks_inPlace hcorner
  | none =>
    rw [hcorner] at h
    exact readRooks_inPlace h

theorem rooksInPlace_beside {cells : Cells} {c : Color} {r : Rooks} {s : Square} (hk : cells.king? c = some s)
    (h : rooksInPlace cells c r = true) :
    (∀ f, r.short = some f → s.file < f.val) ∧ (∀ f, r.long = some f → f.val < s.file) := by
  simp only [rooksInPlace, hk, Bool.and_eq_true] at h
  constructor
  · intro f hf
    have := h.1.2
    simp [hf] at this
    exact this.2
  · intro f hf
    have := h.2
    simp [hf] at this
    exact this.2

/-- Boards that can be read have fair material, and their castling rooks in place. -/
theorem fair_of_read {text : String} (h : ofText? text = some b) :
    hasFairMaterial b.cells = true ∧ ∀ c, rooksInPlace b.cells c (b.rooks c) = true := by
  unfold ofText? at h
  split at h
  · obtain ⟨cells, -, h⟩ := Option.bind_eq_some_iff.mp h
    obtain ⟨side, -, h⟩ := Option.bind_eq_some_iff.mp h
    split at h
    · rename_i hfair
      rw [Bool.and_eq_true] at hfair
      obtain ⟨⟨whiteRooks, blackRooks⟩, hrooks, h⟩ := Option.bind_eq_some_iff.mp h
      obtain ⟨enPassant, -, h⟩ := Option.bind_eq_some_iff.mp h
      obtain ⟨halfmoves, -, h⟩ := Option.bind_eq_some_iff.mp h
      obtain ⟨fullmoves, -, h⟩ := Option.bind_eq_some_iff.mp h
      cases h
      obtain ⟨hwhite, hblack⟩ := readCastling_inPlace hrooks
      refine ⟨hfair.1, fun c => ?_⟩
      cases c with
      | white => exact hwhite
      | black => exact hblack
    · cases h
  · cases h

theorem rooksBeside_read {text : String} (h : ofText? text = some b) : b.RooksBeside := by
  obtain ⟨hfair, hrooks⟩ := fair_of_read h
  intro c s hs
  exact rooksInPlace_beside (king?_of_fair hfair hs) (hrooks c)

theorem Reached.rooksBeside (h : b.Reached) : b.RooksBeside := by
  induction h with
  | start => exact rooksBeside_start
  | read h => exact rooksBeside_read h
  | play _ hm ih => exact ih.play hm

/-! ### Castling one way or the other -/

theorem castling_side (hb : b.RooksBeside) (h : m ∈ b.castlings) :
    ((b.rooks b.side).short = some m.target.fileIndex ∧ m.source.file < m.target.file) ∨
      ((b.rooks b.side).long = some m.target.fileIndex ∧ m.target.file < m.source.file) := by
  obtain ⟨hking, -, f, htarget, hright⟩ := mem_castlings h
  obtain ⟨hshort, hlong⟩ := hb b.side m.source (king?_piece hking)
  have hfile : m.target.file = f.val := by rw [htarget, Square.file_ofFileRank]
  have hindex : m.target.fileIndex = f := Fin.ext hfile
  rw [hindex, hfile]
  exact hright.imp (fun hf => ⟨hf, hshort f hf⟩) fun hf => ⟨hf, hlong f hf⟩

/-- A side can castle in at most one way to the right and one way to the left. -/
theorem castlings_eq (hb : b.RooksBeside) {m' : Move} (h : m ∈ b.castlings) (h' : m' ∈ b.castlings)
    (hside : m.source.file < m.target.file ↔ m.source.file < m'.target.file) : m = m' := by
  obtain ⟨hking, hpromotion, f, htarget, -⟩ := mem_castlings h
  obtain ⟨hking', hpromotion', f', htarget', -⟩ := mem_castlings h'
  have hsource : m.source = m'.source := Option.some.inj (hking.symm.trans hking')
  have hindex : m.target.fileIndex = m'.target.fileIndex := by
    rcases castling_side hb h with ⟨hright, hlt⟩ | ⟨hright, hlt⟩ <;>
      rcases castling_side hb h' with ⟨hright', hlt'⟩ | ⟨hright', hlt'⟩
    · exact Option.some.inj (hright.symm.trans hright')
    · rw [← hsource] at hlt'
      omega
    · rw [← hsource] at hlt'
      omega
    · exact Option.some.inj (hright.symm.trans hright')
  have hrank : m.target.rank = m'.target.rank := by rw [htarget, htarget', Square.rank_ofFileRank, Square.rank_ofFileRank]
  have heq : m.target = m'.target := Square.ext_coords (congrArg Fin.val hindex) hrank
  cases m
  cases m'
  simp_all only

theorem castlingFiles_side (hb : b.RooksBeside) (h : m ∈ b.castlings) :
    b.castlingFiles m.target.file =
      if m.source.file < m.target.file then Rooks.shortFiles else Rooks.longFiles := by
  rcases castling_side hb h with ⟨hright, hlt⟩ | ⟨-, hlt⟩
  · rw [if_pos hlt, castlingFiles, hright]
    exact if_pos (decide_eq_true rfl)
  · rw [if_neg hlt.not_gt, castlingFiles, if_neg]
    rw [Bool.not_eq_true, Option.any_eq_false]
    refine fun f hf => decide_eq_false fun heq => ?_
    have := (hb b.side m.source (king?_piece (mem_castlings h).1)).1 f hf
    omega

end Board
end ChessArchive
