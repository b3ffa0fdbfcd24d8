import Mathlib.Data.List.Flatten
import Mathlib.Data.List.Nodup
import ChessArchive.Proofs.Board.Rooks

/-! No legal move is listed twice: the rays of a piece have no square in common, a pawn does not capture where it can
    advance, and castling alone goes to a square of the mover's own side. -/

namespace ChessArchive

theorem Square.nodup_rays : ∀ s : Square, (Step.kingSteps.flatMap s.ray).Nodup := by decide +kernel

theorem Square.nodup_around : ∀ s : Square, (s.around Step.kingSteps).Nodup ∧ (s.around Step.knightSteps).Nodup := by
  decide +kernel

theorem Square.nodup_pawn : ∀ s : Square, ∀ c ∈ [Color.white, .black],
    (s.ray c.forward ++ s.around c.captures).Nodup := by decide +kernel

namespace Board
variable {b : Board}

/-! ### Targets -/

theorem slide_sublist (b : Board) (squares : List Square) : (b.slide squares).Sublist squares := by
  induction squares with
  | nil => exact .slnil
  | cons s squares ih =>
    unfold slide
    split
    · exact ih.cons_cons s
    · split
      · exact List.nil_sublist _
      · exact (List.nil_sublist _).cons_cons s

theorem nodup_lineTargets (b : Board) (s : Square) {steps : List Step} (h : steps.Sublist Step.kingSteps) :
    (b.lineTargets s steps).Nodup :=
  ((List.Sublist.flatMap_right steps fun d _ => b.slide_sublist (s.ray d)).trans (h.flatMap s.ray)).nodup s.nodup_rays

theorem nodup_targets (b : Board) (s : Square) (k : Kind) : (b.targets s k).Nodup := by
  cases k with
  | pawn =>
    have hpawn := s.nodup_pawn b.side (by cases b.side <;> simp)
    refine List.Sublist.nodup (.append ?_ List.filter_sublist) hpawn
    exact (List.take_sublist _ _).trans (List.takeWhile_sublist _)
  | knight => exact s.nodup_around.2.filter _
  | king => exact s.nodup_around.1.filter _
  | bishop => exact b.nodup_lineTargets s (by decide)
  | rook => exact b.nodup_lineTargets s (by decide)
  | queen => exact b.nodup_lineTargets s (.refl _)

theorem nodup_promotions (b : Board) (k : Kind) (t : Square) : (b.promotions k t).Nodup := by
  unfold promotions
  split <;> decide

/-! ### Moves -/

theorem nodup_movesFrom (b : Board) (s : Square) : (b.movesFrom s).Nodup := by
  unfold movesFrom
  split
  · exact .nil
  · rename_i p _
    split
    · refine List.nodup_flatMap.mpr ⟨fun t _ => ?_, (b.nodup_targets s p.kind).imp fun {t u} htu => ?_⟩
      · exact (b.nodup_promotions p.kind t).map fun _ _ h => (Move.mk.inj h).2.2
      · intro m hm hm'
        obtain ⟨_, -, rfl⟩ := List.mem_map.mp hm
        obtain ⟨_, -, heq⟩ := List.mem_map.mp hm'
        exact htu (Move.mk.inj heq).2.1.symm
    · exact .nil

theorem nodup_castlings (hb : b.RooksBeside) : b.castlings.Nodup := by
  unfold castlings
  split
  · exact .nil
  · rename_i king hking
    split
    · have hwing : ∀ (file : Option (Fin 8)) (move : Fin 8 → Move), (file.toList.map move).Nodup := by
        intro file move
        rw [← Option.toList_map]
        exact Option.toList_nodup _
      refine List.nodup_append'.mpr ⟨hwing _ _, hwing _ _, fun m hshort hlong => ?_⟩
      simp only [List.mem_map, Option.mem_toList, Option.filter_eq_some_iff] at hshort hlong
      obtain ⟨f, ⟨hf, -⟩, rfl⟩ := hshort
      obtain ⟨g, ⟨hg, -⟩, heq⟩ := hlong
      have hfile := congrArg Square.file (Move.mk.inj heq).2.1
      rw [Square.file_ofFileRank, Square.file_ofFileRank] at hfile
      obtain ⟨hright, hleft⟩ := hb b.side king (king?_piece hking)
      have := hright f hf
      have := hleft g hg
      omega
    · exact .nil

/-- The legal moves of a board are listed once each. -/
theorem nodup_legalMoves (hb : b.RooksBeside) (hstand : b.RooksStand) : b.legalMoves.Nodup := by
  have hmoves : ((List.finRange 64).flatMap b.movesFrom).Nodup := by
    refine List.nodup_flatMap.mpr ⟨fun s _ => b.nodup_movesFrom s, (List.nodup_finRange 64).imp fun {s t} hst => ?_⟩
    intro m hm hm'
    exact hst ((mem_movesFrom.mp hm).1.symm.trans (mem_movesFrom.mp hm').1)
  refine List.nodup_append'.mpr ⟨hmoves.filter _, nodup_castlings hb, fun m hm hcastling => ?_⟩
  obtain ⟨s, -, hfrom⟩ := List.mem_flatMap.mp (List.mem_of_mem_filter hm)
  obtain ⟨-, k, -, htarget, -⟩ := mem_movesFrom.mp hfrom
  exact target_not_own htarget (hstand.castles hcastling).1 rfl

end Board
end ChessArchive
