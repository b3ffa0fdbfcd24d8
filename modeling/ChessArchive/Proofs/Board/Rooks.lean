import ChessArchive.Proofs.Board.Castling

/-! Castling rooks stay where they are. As long as a side may castle with a rook, that rook stands on the side's back
    rank: whatever moves it, or takes it, ends the right. -/

namespace ChessArchive

/-- The rooks that a side may castle with are on these files. -/
def Rooks.On (r : Rooks) (f : Fin 8) : Prop := r.short = some f ∨ r.long = some f

theorem Rooks.On.mono {r s : Rooks} {f : Fin 8} (hwithin : r.Within s) (h : r.On f) : s.On f :=
  h.imp (hwithin.short f) (hwithin.long f)

theorem Rooks.on_drop {r : Rooks} {file : Nat} {f : Fin 8} (h : (r.drop file).On f) : f.val ≠ file := by
  rcases h with h | h <;> simpa using (Option.filter_eq_some_iff.mp h).2

theorem Color.backRank_injective {c d : Color} (h : c.backRank = d.backRank) : c = d := by
  revert h
  cases c <;> cases d <;> decide

namespace Board
variable {b : Board} {m : Move}

/-- The rooks that a side may castle with stand on its back rank. -/
def RooksStand (b : Board) : Prop :=
  ∀ c f, (b.rooks c).On f → b.piece? (.ofFileRank f c.backRank) = some ⟨c, .rook⟩

theorem RooksStand.castles (h : b.RooksStand) (hm : m ∈ b.castlings) :
    b.piece? m.target = some ⟨b.side, .rook⟩ ∧ b.isCastling m = true := by
  obtain ⟨-, -, f, htarget, hright⟩ := mem_castlings hm
  have hrook : b.piece? m.target = some ⟨b.side, .rook⟩ := htarget ▸ h b.side f hright
  exact ⟨hrook, by simp [isCastling, hrook]⟩

/-! ### Playing -/

/-- Castling leaves the other side's back rank alone. -/
theorem piece?_castled_of_rank {s : Square} (hm : m ∈ b.castlings) (hrank : s.rank ≠ b.side.backRank)
    (hsource : s ≠ m.source) : (b.castled m).piece? s = b.piece? s := by
  obtain ⟨-, -, f, htarget, -⟩ := mem_castlings hm
  have hoff : ∀ f, Square.ofFileRank f b.side.backRank ≠ s := by
    rintro f rfl
    exact hrank (Square.rank_ofFileRank f _)
  simp only [castled, Cells.piece?_put, if_neg (hoff _), htarget, if_neg hsource.symm]
  rfl

/-- A move that is not castling changes its own two squares, and on the middle ranks the square of a pawn taken in
    passing. -/
theorem piece?_moved_of_ne {s : Square} (hsource : s ≠ m.source) (htarget : s ≠ m.target)
    (hrank : ∃ c : Color, s.rank = c.backRank) : (b.moved m).piece? s = b.piece? s := by
  have hkept : ∀ arriving, ((b.cells.put m.source none).put m.target arriving).piece? s = b.piece? s := by
    intro arriving
    rw [Cells.piece?_put, if_neg htarget.symm, Cells.piece?_put, if_neg hsource.symm]
    rfl
  simp only [moved]
  split
  · rename_i hpassing
    split
    · rename_i t ht
      have hne : t ≠ s := by
        rintro rfl
        obtain ⟨c, hc⟩ := hrank
        have hsquare : b.enPassantSquare? = some m.target := by
          simp only [isEnPassant, Bool.and_eq_true, decide_eq_true_eq] at hpassing
          exact hpassing.1.2
        obtain ⟨f, -, hf⟩ := Option.map_eq_some_iff.mp hsquare
        have htargetRank := congrArg Square.rank hf
        obtain ⟨-, hstep⟩ := Square.step?_coords ht
        rw [Square.rank_ofFileRank] at htargetRank
        rw [hc, ← htargetRank] at hstep
        revert hstep
        cases b.side <;> cases c <;> decide
      rw [Cells.piece?_put, if_neg hne, hkept]
    · exact hkept _
  · exact hkept _

theorem RooksStand.play (h : b.RooksStand) (hm : m ∈ b.legalMoves) : (b.play m).RooksStand := by
  intro c f hright
  have hrook := h c f (hright.mono (rooks_play_within b m c))
  have hfile : (Square.ofFileRank f c.backRank).file = f := Square.file_ofFileRank f _
  have hrank : (Square.ofFileRank f c.backRank).rank = c.backRank := Square.rank_ofFileRank f _
  generalize Square.ofFileRank f c.backRank = s at hrook hfile hrank ⊢
  obtain ⟨k, hk⟩ := source_of_legal hm
  rw [rooks_play] at hright
  -- A move of this rook would have ended the right, and so would a move that takes it.
  have hsource : s ≠ m.source := by
    rintro rfl
    rw [hrook, Option.some.injEq, Piece.mk.injEq] at hk
    obtain ⟨rfl, -⟩ := hk
    rw [if_pos rfl] at hright
    simp only [ownRooksAfter, hrook, Option.map_some, if_pos hrank] at hright
    exact Rooks.on_drop hright hfile.symm
  show (b.cellsAfter m).piece? s = _
  rw [← hrook, cellsAfter]
  by_cases hcastling : b.isCastling m = true
  · have hm' := castlings_of_isCastling hm hcastling
    rw [if_pos hcastling]
    refine piece?_castled_of_rank hm' (fun hback => ?_) hsource
    obtain rfl : c = b.side := Color.backRank_injective (Fin.ext (hrank.symm.trans hback))
    rw [if_pos rfl, ownRooksAfter_king (king?_piece (mem_castlings hm').1)] at hright
    rcases hright with hright | hright <;> cases hright
  · rw [if_neg hcastling]
    refine piece?_moved_of_ne hsource ?_ ⟨c, hrank⟩
    rintro rfl
    by_cases hc : c = b.side
    · exact hcastling (by simp [isCastling, hrook, hc])
    · rw [if_neg hc] at hright
      have hflip : b.side.flip = c := by cases hs : b.side <;> cases c <;> simp_all [Color.flip]
      have hother : b.otherRooksAfter m = (b.rooks c).drop m.target.file := by
        simp [otherRooksAfter, hflip, hcastling, hrook, hrank]
      rw [hother] at hright
      exact Rooks.on_drop hright hfile.symm

/-! ### Reading -/

theorem rooksStand_start : Board.start.RooksStand := by
  rintro (_ | _) f (⟨⟨⟩⟩ | ⟨⟨⟩⟩) <;> decide

theorem rooksInPlace_stand {cells : Cells} {c : Color} {r : Rooks} {f : Fin 8} (h : rooksInPlace cells c r = true)
    (hright : r.On f) : cells.piece? (.ofFileRank f c.backRank) = some ⟨c, .rook⟩ := by
  unfold rooksInPlace at h
  split at h
  · cases h
  · simp only [Bool.and_eq_true, Option.all_eq_true, decide_eq_true_eq] at h
    rcases hright with hf | hf
    · exact (h.1.2 f hf).1
    · exact (h.2 f hf).1

theorem rooksStand_read {text : String} (h : ofText? text = some b) : b.RooksStand := by
  intro c f hright
  exact rooksInPlace_stand ((fair_of_read h).2 c) hright

theorem Reached.rooksStand (h : b.Reached) : b.RooksStand := by
  induction h with
  | start => exact rooksStand_start
  | read h => exact rooksStand_read h
  | play _ hm ih => exact ih.play hm

end Board
end ChessArchive
