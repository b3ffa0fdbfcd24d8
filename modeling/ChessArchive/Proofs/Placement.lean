import Mathlib.Data.List.Induction
import ChessArchive.Proofs.Rank
import ChessArchive.Proofs.Reading

/-! Placements list each occupied square once, in written order. So a list that comes from a placement text
    and the board it stands for say the same about every square. -/

namespace ChessArchive
namespace Placement

/-! ### Reading -/

/-- The sign for a piece. -/
def sign (p : Piece) : List Char := [p.symbol]

theorem decodeRank_text (row : Fin 8) {file : Nat} {r : WrittenRank Piece} (h : file + r.width = 8) :
    decodeRank row file (r.text sign) = .ok (r.listing row.rev file) := by
  induction r generalizing file with
  | nil => exact if_pos h
  | cons item r ih =>
    cases item with
    | skip n within =>
      rw [WrittenRank.width_skip] at h
      have hdigit : digit? (Nat.digitChar n) = some n := digit?_digitChar (by omega)
      rw [WrittenRank.text_skip, decodeRank, hdigit]
      simp only [if_neg (show ¬ (n = 0 ∨ 8 < n) by omega), if_neg (show ¬ 8 < file + n by omega)]
      exact ih (by omega)
    | put p =>
      rw [WrittenRank.width_put] at h
      have hfile : file < 8 := by omega
      rw [WrittenRank.text_put, WrittenRank.listing_put hfile, sign, List.singleton_append, decodeRank, digit?_symbol]
      simp only [Piece.ofSymbol?_symbol, dif_pos hfile]
      exact bind_ok_iff.mpr ⟨_, ih (by omega), rfl⟩

/-- What is read as a rank is written by items that fill it. -/
theorem exists_of_decodeRank {row : Fin 8} {file : Nat} {cells : List Char} {occupied : Occupied}
    (h : decodeRank row file cells = .ok occupied) :
    ∃ r : WrittenRank Piece, cells = r.text sign ∧ file + r.width = 8 := by
  induction cells generalizing file occupied with
  | nil =>
    unfold decodeRank at h
    split at h
    · rename_i hfile
      exact ⟨[], rfl, hfile⟩
    · cases h
  | cons c cells ih =>
    unfold decodeRank at h
    split at h
    · rename_i n hn
      obtain ⟨-, rfl⟩ := digit?_eq_some.mp hn
      split at h
      · cases h
      · rename_i hzero
        split at h
        · cases h
        · obtain ⟨r, rfl, hwidth⟩ := ih h
          exact ⟨.skip n (by omega) :: r, rfl, by rw [WrittenRank.width_skip]; omega⟩
    · split at h
      · cases h
      · rename_i p hp
        obtain rfl := Piece.eq_symbol_of_ofSymbol? hp
        split at h
        · obtain ⟨later, hlater, -⟩ := bind_ok_iff.mp h
          obtain ⟨r, rfl, hwidth⟩ := ih hlater
          exact ⟨.put p :: r, rfl, by rw [WrittenRank.width_put]; omega⟩
        · cases h

/-- A field is read as a placement exactly if it is written by eight ranks that are eight squares wide each, and what
    is read are the pieces they put on their squares. -/
theorem decodeField_iff {field : List Char} {occupied : Occupied} :
    decodeField field = .ok occupied ↔ ∃ ranks : List (WrittenRank Piece),
      field.splitOn '/' = ranks.map (·.text sign) ∧ ranks.length = 8 ∧ (∀ r ∈ ranks, r.width = 8) ∧
        occupied = WrittenRank.listAll ranks := by
  have hread : ∀ ranks : List (WrittenRank Piece), (∀ r ∈ ranks, r.width = 8) →
      ((List.finRange 8).zip (ranks.map (·.text sign))).mapM (fun x => decodeRank x.1 0 x.2) =
        .ok (((List.finRange 8).zip ranks).map fun x => x.2.listing x.1.rev 0) := by
    intro ranks hwidth
    rw [mapM_ok_iff, List.zip_map_right, List.forall₂_map_left_iff, List.forall₂_map_right_iff, List.forall₂_same]
    intro x hx
    exact decodeRank_text x.1 ((Nat.zero_add _).trans (hwidth x.2 (List.of_mem_zip hx).2))
  constructor
  · intro h
    simp only [decodeField] at h
    split at h
    · rename_i hlen
      obtain ⟨rows, hrows, hocc⟩ := bind_ok_iff.mp h
      obtain ⟨ranks, hsplit, hwidth⟩ : ∃ ranks : List (WrittenRank Piece),
          field.splitOn '/' = ranks.map (·.text sign) ∧ ∀ r ∈ ranks, r.width = 8 := by
        have hparts : ((List.finRange 8).zip (field.splitOn '/')).map (·.2) = field.splitOn '/' :=
          List.map_snd_zip (by simp [hlen])
        rw [← hparts]
        refine exists_map_eq fun cells hcells => ?_
        obtain ⟨x, hx, rfl⟩ := List.mem_map.mp hcells
        obtain ⟨row, -, hrow⟩ := exists_of_mem_right (List.Forall₂.flip (mapM_ok_iff.mp hrows)) x hx
        obtain ⟨r, hr, hfull⟩ := exists_of_decodeRank hrow
        exact ⟨r, hr, (Nat.zero_add _).symm.trans hfull⟩
      refine ⟨ranks, hsplit, by rw [← hlen, hsplit, List.length_map], hwidth, ?_⟩
      rw [hsplit, hread ranks hwidth] at hrows
      obtain rfl := Except.ok.inj hrows
      rw [← pure_ok_iff.mp hocc, ← List.flatMap_def]
      rfl
    · cases h
  · rintro ⟨ranks, hsplit, hlen, hwidth, rfl⟩
    simp only [decodeField, hsplit, List.length_map, if_pos hlen]
    refine bind_ok_iff.mpr ⟨_, hread ranks hwidth, ?_⟩
    rw [← List.flatMap_def]
    rfl

theorem decodeField_squares {field : List Char} {occupied : Occupied} (h : decodeField field = .ok occupied) :
    (occupied.map (·.1)).Pairwise Square.Before := by
  obtain ⟨ranks, -, -, -, rfl⟩ := decodeField_iff.mp h
  exact WrittenRank.listAll_squares ranks

/-- A placement text lists its occupied squares in written order. -/
theorem decode_squares {board : String} {occupied : Occupied} (h : decode board = .ok occupied) :
    (occupied.map (·.1)).Pairwise Square.Before := by
  unfold decode decodeText at h
  split at h
  · cases h
  · exact decodeField_squares h

/-- A placement text lists each occupied square once. -/
theorem decode_nodup {board : String} {occupied : Occupied} (h : decode board = .ok occupied) :
    (occupied.map (·.1)).Nodup :=
  (decode_squares h).imp Square.Before.ne

/-! ### What a list puts on a square -/

theorem pieceOn_append (occupied : Occupied) (e : Square × Piece) (s : Square) :
    pieceOn (occupied ++ [e]) s = if e.1 = s then some e.2 else pieceOn occupied s := by
  simp [pieceOn]

theorem mem_of_pieceOn {occupied : Occupied} {s : Square} {p : Piece} (h : pieceOn occupied s = some p) :
    (s, p) ∈ occupied := by
  induction occupied using List.reverseRecOn with
  | nil => simp [pieceOn] at h
  | append_singleton occupied e ih =>
    rw [pieceOn_append] at h
    split at h
    · rename_i hs
      cases h
      simp [← hs]
    · exact List.mem_append_left _ (ih h)

/-- A list with each square once puts on a square what it lists for it. -/
theorem pieceOn_iff {occupied : Occupied} (hn : (occupied.map (·.1)).Nodup) {s : Square} {p : Piece} :
    pieceOn occupied s = some p ↔ (s, p) ∈ occupied := by
  refine ⟨mem_of_pieceOn, fun hm => ?_⟩
  induction occupied using List.reverseRecOn with
  | nil => simp at hm
  | append_singleton occupied e ih =>
    rw [pieceOn_append]
    rw [List.map_append, List.nodup_append] at hn
    rcases List.mem_append.mp hm with hm | hm
    · have hne : e.1 ≠ s := fun hs => hn.2.2 s (List.mem_map.mpr ⟨_, hm, rfl⟩) e.1 (by simp) hs.symm
      rw [if_neg hne]
      exact ih hn.1 hm
    · obtain rfl := List.mem_singleton.mp hm
      simp

/-- On a list with each square once, at most one entry puts a piece of some kind on a square. -/
theorem countP_square {occupied : Occupied} (hn : (occupied.map (·.1)).Nodup) (s : Square) (f : Piece → Bool) :
    occupied.countP (fun e => e.1 = s && f e.2) = if (pieceOn occupied s).any f then 1 else 0 := by
  induction occupied using List.reverseRecOn with
  | nil => simp [pieceOn]
  | append_singleton occupied e ih =>
    rw [List.map_append, List.nodup_append] at hn
    rw [List.countP_append, pieceOn_append, ih hn.1]
    by_cases hs : e.1 = s
    · have hnone : pieceOn occupied s = none := by
        cases hp : pieceOn occupied s with
        | none => rfl
        | some p => exact absurd hs.symm (hn.2.2 s (List.mem_map_of_mem (mem_of_pieceOn hp)) e.1 (by simp))
      simp [hs, hnone, List.countP_singleton]
    · simp [hs]

end Placement
end ChessArchive
