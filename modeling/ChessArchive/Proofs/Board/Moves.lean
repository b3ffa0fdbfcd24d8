import Mathlib.Data.List.TakeWhile
import Mathlib.Tactic.Ring
import ChessArchive.Board.Legal

/-! What a legal move can be. It is castling, or it takes a piece of the side to move along the steps of that piece to
    a square that holds no piece of its own side. -/

namespace ChessArchive

/-! ### Steps -/

namespace Square

theorem ofCoords?_coords {f r : Nat} {s : Square} (h : ofCoords? f r = some s) : s.file = f ∧ s.rank = r := by
  unfold ofCoords? at h
  split at h
  · cases h
    simp only [file, rank]
    omega
  · cases h

theorem step?_coords {s t : Square} {d : Step} (h : s.step? d = some t) :
    (t.file : Int) = s.file + d.files ∧ (t.rank : Int) = s.rank + d.ranks := by
  simp only [step?] at h
  split at h
  · obtain ⟨hfile, hrank⟩ := ofCoords?_coords h
    omega
  · cases h

/-- The squares of a walk are some steps away. -/
theorem walk_coords {s t : Square} {d : Step} {n : Nat} (h : t ∈ walk d n s) :
    ∃ k : Nat, 0 < k ∧ (t.file : Int) = s.file + k * d.files ∧ (t.rank : Int) = s.rank + k * d.ranks := by
  induction n generalizing s with
  | zero => simp [walk] at h
  | succ n ih =>
    unfold walk at h
    split at h
    · cases h
    · rename_i u hu
      obtain ⟨hfile, hrank⟩ := step?_coords hu
      rcases List.mem_cons.mp h with rfl | h
      · exact ⟨1, Nat.one_pos, by simpa using hfile, by simpa using hrank⟩
      · obtain ⟨k, -, hkf, hkr⟩ := ih h
        refine ⟨k + 1, Nat.succ_pos k, ?_, ?_⟩
        · rw [hkf, hfile]
          push_cast
          ring
        · rw [hkr, hrank]
          push_cast
          ring

theorem around_coords {s t : Square} {steps : List Step} (h : t ∈ s.around steps) :
    ∃ d ∈ steps, (t.file : Int) = s.file + d.files ∧ (t.rank : Int) = s.rank + d.ranks := by
  obtain ⟨d, hd, ht⟩ := List.mem_filterMap.mp h
  exact ⟨d, hd, step?_coords ht⟩

end Square

namespace Board
variable {b : Board} {s t : Square} {m : Move} {k : Kind}

/-! ### Targets -/

theorem mem_slide {squares : List Square} (h : t ∈ b.slide squares) :
    t ∈ squares ∧ ∀ p, b.piece? t = some p → p.color ≠ b.side := by
  induction squares with
  | nil => cases h
  | cons u squares ih =>
    unfold slide at h
    split at h
    · rename_i hfree
      rcases List.mem_cons.mp h with rfl | h
      · exact ⟨List.mem_cons_self, by simp [hfree]⟩
      · exact ⟨List.mem_cons_of_mem _ (ih h).1, (ih h).2⟩
    · rename_i p hp
      split at h
      · cases h
      · rename_i hcolor
        obtain rfl := List.mem_singleton.mp h
        exact ⟨List.mem_cons_self, by simpa [hp] using hcolor⟩

theorem mem_lineTargets {steps : List Step} (h : t ∈ b.lineTargets s steps) :
    (∃ d ∈ steps, t ∈ s.ray d) ∧ ∀ p, b.piece? t = some p → p.color ≠ b.side := by
  obtain ⟨d, hd, ht⟩ := List.mem_flatMap.mp h
  exact ⟨⟨d, hd, (mem_slide ht).1⟩, (mem_slide ht).2⟩

theorem mem_stepTargets {steps : List Step} (h : t ∈ b.stepTargets s steps) :
    t ∈ s.around steps ∧ ∀ p, b.piece? t = some p → p.color ≠ b.side := by
  obtain ⟨ht, hfree⟩ := List.mem_filter.mp h
  exact ⟨ht, fun p hp => by simpa [hp] using hfree⟩

theorem mem_advances (h : t ∈ b.advances s) : t ∈ s.ray b.side.forward ∧ b.piece? t = none := by
  have hfree := List.mem_of_mem_take h
  exact ⟨(List.takeWhile_sublist _).subset hfree, by simpa using List.mem_takeWhile_imp hfree⟩

theorem mem_pawnCaptures (h : t ∈ b.pawnCaptures s) :
    t ∈ s.around b.side.captures ∧ ∀ p, b.piece? t = some p → p.color ≠ b.side := by
  obtain ⟨ht, hfree⟩ := List.mem_filter.mp h
  exact ⟨ht, fun p hp => by simpa [hp] using hfree⟩

/-- No piece goes to a square of its own side. -/
theorem target_not_own (h : t ∈ b.targets s k) {p : Piece} (hp : b.piece? t = some p) : p.color ≠ b.side := by
  cases k with
  | pawn =>
    rcases List.mem_append.mp h with h | h
    · simp [(mem_advances h).2] at hp
    · exact (mem_pawnCaptures h).2 p hp
  | knight | king => exact (mem_stepTargets h).2 p hp
  | bishop | rook | queen => exact (mem_lineTargets h).2 p hp

/-- A king goes to a neighbouring file at most. -/
theorem king_target_near (h : t ∈ b.targets s .king) : t.file ≤ s.file + 1 ∧ s.file ≤ t.file + 1 := by
  obtain ⟨d, hd, hfile, -⟩ := Square.around_coords (mem_stepTargets h).1
  simp only [Step.kingSteps, Step.rookSteps, Step.bishopSteps, List.cons_append, List.nil_append, List.mem_cons,
    List.not_mem_nil, or_false] at hd
  rcases hd with rfl | rfl | rfl | rfl | rfl | rfl | rfl | rfl <;> simp only at hfile <;> omega

/-- Only rooks and queens go far along a rank. -/
theorem far_target_kind (h : t ∈ b.targets s k) (hrank : t.rank = s.rank)
    (hfar : s.file + 1 < t.file ∨ t.file + 1 < s.file) : k = .rook ∨ k = .queen := by
  cases k with
  | pawn =>
    rcases List.mem_append.mp h with h | h
    · obtain ⟨n, -, hfile, -⟩ := Square.walk_coords (mem_advances h).1
      have hforward : b.side.forward.files = 0 := by cases b.side <;> rfl
      rw [hforward, Int.mul_zero] at hfile
      omega
    · obtain ⟨d, hd, -, hranks⟩ := Square.around_coords (mem_pawnCaptures h).1
      have hcaptures : ∀ c : Color, ∀ d ∈ c.captures, d.ranks ≠ 0 := by
        rintro (_ | _) <;> simp [Color.captures]
      have := hcaptures b.side d hd
      omega
  | knight =>
    obtain ⟨d, hd, -, hranks⟩ := Square.around_coords (mem_stepTargets h).1
    have hknight : ∀ d ∈ Step.knightSteps, d.ranks ≠ 0 := by decide
    have := hknight d hd
    omega
  | bishop =>
    obtain ⟨⟨d, hd, ht⟩, -⟩ := mem_lineTargets h
    obtain ⟨n, hn, -, hranks⟩ := Square.walk_coords ht
    have hbishop : ∀ d ∈ Step.bishopSteps, d.ranks ≠ 0 := by decide
    have := Int.mul_ne_zero (Int.natCast_ne_zero.mpr hn.ne') (hbishop d hd)
    omega
  | rook => exact Or.inl rfl
  | queen => exact Or.inr rfl
  | king =>
    have := king_target_near h
    omega

/-! ### Legal moves -/

theorem mem_promotions {promotion : Option Kind} (h : promotion ∈ b.promotions k t) :
    promotion ≠ some .king ∧ promotion ≠ some .pawn := by
  unfold promotions at h
  split at h
  · simp only [List.mem_cons, List.not_mem_nil, or_false] at h
    rcases h with rfl | rfl | rfl | rfl <;> decide
  · obtain rfl := List.mem_singleton.mp h
    decide

theorem mem_movesFrom : m ∈ b.movesFrom s ↔ m.source = s ∧
    ∃ k, b.piece? s = some ⟨b.side, k⟩ ∧ m.target ∈ b.targets s k ∧ m.promotion ∈ b.promotions k m.target := by
  unfold movesFrom
  split
  · rename_i hnone
    simp [hnone]
  · rename_i p hp
    rcases p with ⟨c, k⟩
    split
    · rename_i hcolor
      obtain rfl : c = b.side := hcolor
      simp only [List.mem_flatMap, List.mem_map, hp, Option.some.injEq, Piece.mk.injEq, true_and]
      constructor
      · rintro ⟨t, ht, promotion, hpr, rfl⟩
        exact ⟨rfl, k, rfl, ht, hpr⟩
      · rintro ⟨rfl, _, rfl, ht, hpr⟩
        exact ⟨m.target, ht, m.promotion, hpr, rfl⟩
    · rename_i hcolor
      have hne : c ≠ b.side := hcolor
      simp [hp, hne]

theorem mem_legalMoves : m ∈ b.legalMoves ↔ (m ∈ b.movesFrom m.source ∧ b.isSafe m = true) ∨ m ∈ b.castlings := by
  rw [legalMoves, List.mem_append, List.mem_filter, List.mem_flatMap]
  refine or_congr_left (and_congr_left fun _ => ⟨?_, fun h => ⟨m.source, List.mem_finRange _, h⟩⟩)
  rintro ⟨s, -, h⟩
  rwa [(mem_movesFrom.mp h).1]

theorem king?_piece {cells : Cells} {c : Color} (h : cells.king? c = some s) : cells.piece? s = some ⟨c, .king⟩ := by
  simpa using List.find?_some h

/-- Castling takes the king of the side to move to a rook that it may castle with. -/
theorem mem_castlings (h : m ∈ b.castlings) : b.cells.king? b.side = some m.source ∧ m.promotion = none ∧
    ∃ f, m.target = .ofFileRank f b.side.backRank ∧
      ((b.rooks b.side).short = some f ∨ (b.rooks b.side).long = some f) := by
  unfold castlings at h
  split at h
  · cases h
  · rename_i king hking
    split at h
    · simp only [List.mem_append, List.mem_map, Option.mem_toList, Option.filter_eq_some_iff] at h
      rcases h with ⟨f, ⟨hf, -⟩, rfl⟩ | ⟨f, ⟨hf, -⟩, rfl⟩
      · exact ⟨hking, rfl, f, rfl, Or.inl hf⟩
      · exact ⟨hking, rfl, f, rfl, Or.inr hf⟩
    · cases h

/-- A legal move is one of a piece of the side to move. -/
theorem source_of_legal (h : m ∈ b.legalMoves) : ∃ k, b.piece? m.source = some ⟨b.side, k⟩ := by
  rcases mem_legalMoves.mp h with ⟨h, -⟩ | h
  · obtain ⟨-, k, hk, -⟩ := mem_movesFrom.mp h
    exact ⟨k, hk⟩
  · exact ⟨.king, king?_piece (mem_castlings h).1⟩

theorem promotion_of_legal (h : m ∈ b.legalMoves) : m.promotion ≠ some .king ∧ m.promotion ≠ some .pawn := by
  rcases mem_legalMoves.mp h with ⟨h, -⟩ | h
  · obtain ⟨-, k, -, -, hpr⟩ := mem_movesFrom.mp h
    exact mem_promotions hpr
  · simp [(mem_castlings h).2.1]

/-- A legal move to a square of the mover's own side is castling. -/
theorem castlings_of_isCastling (h : m ∈ b.legalMoves) (hc : b.isCastling m = true) : m ∈ b.castlings := by
  rcases mem_legalMoves.mp h with ⟨h, -⟩ | h
  · obtain ⟨-, k, -, ht, -⟩ := mem_movesFrom.mp h
    cases hp : b.piece? m.target with
    | none => simp [isCastling, hp] at hc
    | some p => exact absurd (by simpa [isCastling, hp] using hc) (target_not_own ht hp)
  · exact h

end Board
end ChessArchive
