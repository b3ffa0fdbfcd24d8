import ChessArchive.Proofs.Listing
import ChessArchive.Proofs.Store.Reindex
import ChessArchive.Store.Coverage

/-! Reports on how well the index covers the positions. Whatever the index holds, a report lists exactly the positions
    with another number of rows than their board has pieces, since its chunks come to each position once. -/

namespace ChessArchive
namespace Store
open Placement

section
variable {s : Store} {after : Id}

/-! ### Chunks -/

theorem positionsById_ascending (hids : (s.positions.map (·.id)).Nodup) :
    s.positionsById.Pairwise fun p q => p.id < q.id := by
  refine pairwise_lt_of_nodup ?_ (((List.mergeSort_perm _ _).map _).nodup_iff.mpr hids)
  exact pairwise_sorted (r := fun p q : StoredPosition => p.id ≤ q.id) (fun _ _ _ => Int.le_trans)
    (fun _ _ => Int.le_total _ _) _

theorem later_ascending (hids : (s.positions.map (·.id)).Nodup) (after : Id) :
    (s.positionsById.filter (after < ·.id)).Pairwise fun p q => p.id < q.id :=
  (positionsById_ascending hids).filter _

theorem chunkAfter_eq_nil : s.chunkAfter after = [] ↔ s.positionsById.filter (after < ·.id) = [] := by
  rw [chunkAfter, List.take_eq_nil_iff, or_iff_right (by decide)]

/-- What comes after a chunk is what comes after its last position. -/
theorem drop_chunk (hids : (s.positions.map (·.id)).Nodup) (hne : s.chunkAfter after ≠ []) :
    s.positionsById.filter (((s.chunkAfter after).getLast hne).id < ·.id) =
      (s.positionsById.filter (after < ·.id)).drop chunkSize := by
  obtain ⟨init, last, hchunk⟩ : ∃ init last, s.chunkAfter after = init ++ [last] :=
    ⟨_, _, (List.dropLast_append_getLast hne).symm⟩
  have hlast : (s.chunkAfter after).getLast hne = last := by simp [hchunk]
  have hsplit : s.positionsById.filter (after < ·.id) =
      init ++ last :: (s.positionsById.filter (after < ·.id)).drop chunkSize := by
    conv_lhs => rw [← List.take_append_drop chunkSize (s.positionsById.filter (after < ·.id))]
    rw [← chunkAfter, hchunk, List.append_assoc, List.singleton_append]
  have hordered := later_ascending hids after
  rw [hsplit] at hordered
  have hafter : after < last.id := (mem_chunkAfter (hchunk ▸ List.mem_append_right _ List.mem_cons_self)).2
  calc s.positionsById.filter (((s.chunkAfter after).getLast hne).id < ·.id)
    _ = (s.positionsById.filter (after < ·.id)).filter (last.id < ·.id) := by rw [hlast, filter_later hafter]
    _ = (init ++ last :: (s.positionsById.filter (after < ·.id)).drop chunkSize).filter (last.id < ·.id) :=
      congrArg _ hsplit
    _ = (s.positionsById.filter (after < ·.id)).drop chunkSize := filter_after hordered

/-- The chunks together are all positions after a number, in order. -/
theorem flatten_chunksAfter (hids : (s.positions.map (·.id)).Nodup) (after : Id) :
    (s.chunksAfter after).flatten = s.positionsById.filter (after < ·.id) := by
  induction after using chunksAfter.induct (s := s) with
  | case1 after hnil => rw [chunksAfter, dif_pos hnil, chunkAfter_eq_nil.mp hnil, List.flatten_nil]
  | case2 after hne ih =>
    rw [chunksAfter, dif_neg hne, List.flatten_cons, ih, drop_chunk hids hne, chunkAfter, List.take_append_drop]

/-- No chunk is fetched in vain: all but the last are full. -/
theorem length_chunksAfter (hids : (s.positions.map (·.id)).Nodup) (after : Id) :
    (s.chunksAfter after).length =
      ((s.positionsById.filter (after < ·.id)).length + chunkSize - 1) / chunkSize := by
  induction after using chunksAfter.induct (s := s) with
  | case1 after hnil =>
    rw [chunksAfter, dif_pos hnil, chunkAfter_eq_nil.mp hnil]
    rfl
  | case2 after hne ih =>
    have hpos : 0 < (s.positionsById.filter (after < ·.id)).length :=
      List.length_pos_iff.mpr (chunkAfter_eq_nil.not.mp hne)
    rw [chunksAfter, dif_neg hne, List.length_cons, ih, drop_chunk hids hne, List.length_drop]
    simp only [chunkSize]
    omega

theorem length_le_of_mem_chunksAfter {chunk : List StoredPosition} (h : chunk ∈ s.chunksAfter after) :
    chunk.length ≤ chunkSize := by
  induction after using chunksAfter.induct (s := s) with
  | case1 after hnil =>
    rw [chunksAfter, dif_pos hnil] at h
    cases h
  | case2 after hne ih =>
    rw [chunksAfter, dif_neg hne] at h
    rcases List.mem_cons.mp h with rfl | h
    · exact List.length_take_le _ _
    · exact ih h

/-! ### Mismatches -/

theorem expectedRows_eq (board : String) : expectedRows board = (occupiedOf board).length := by
  cases hboard : decode board with
  | ok occupied => simp [expectedRows, occupiedOf, hboard, Except.toOption]
  | error _ => simp [expectedRows, occupiedOf, hboard, Except.toOption]

end
end Store

/-- A position has as many rows as are told, which is another number than its board has pieces. -/
structure RowMismatch.Tells (m : RowMismatch) (s : Store) (p : StoredPosition) : Prop where
  position : m.position = p.id
  expected : m.expected = (Placement.occupiedOf p.board).length
  actual : m.actual = (s.rowsAt p.id).length
  differ : m.expected ≠ m.actual

namespace Store
open Placement

section
variable {s : Store}

theorem mismatch?_eq_some {p : StoredPosition} {m : RowMismatch} : p.mismatch? s.rows = some m ↔ m.Tells s p := by
  have hactual : s.rows.countP (·.position = p.id) = (s.rowsAt p.id).length := List.countP_eq_length_filter
  simp only [StoredPosition.mismatch?, hactual, expectedRows_eq]
  split
  · rename_i hsame
    constructor
    · exact nofun
    · rintro ⟨-, hexpected, hrows, hdiffer⟩
      exact absurd (hexpected.trans (hsame.trans hrows.symm)) hdiffer
  · rename_i hdiffer
    constructor
    · rintro ⟨⟩
      exact ⟨rfl, rfl, rfl, hdiffer⟩
    · rintro ⟨hposition, hexpected, hrows, -⟩
      rw [← hexpected, ← hrows, ← hposition]

/-- The mismatches are those of the positions with positive numbers. -/
theorem mismatches_eq (hids : (s.positions.map (·.id)).Nodup) (rows : List IndexRow) :
    s.mismatches rows = (s.positionsById.filter (0 < ·.id)).filterMap (·.mismatch? rows) := by
  rw [mismatches, ← flatten_chunksAfter hids, List.filterMap_flatten, List.flatMap_def]

theorem mem_mismatches (hids : (s.positions.map (·.id)).Nodup) {m : RowMismatch} :
    m ∈ s.mismatches s.rows ↔ ∃ p ∈ s.positions, 0 < p.id ∧ m.Tells s p := by
  rw [mismatches_eq hids, List.mem_filterMap]
  simp only [List.mem_filter, decide_eq_true_eq, mismatch?_eq_some, and_assoc, positionsById, List.mem_mergeSort]

theorem mismatches_ascending (hids : (s.positions.map (·.id)).Nodup) :
    (s.mismatches s.rows).Pairwise fun m n => m.position < n.position := by
  rw [mismatches_eq hids, List.pairwise_filterMap]
  refine (later_ascending hids 0).imp fun hlt m hm n hn => ?_
  rw [(mismatch?_eq_some.mp hm).position, (mismatch?_eq_some.mp hn).position]
  exact hlt

/-! ### Counts -/

theorem rows_length {ps : List StoredPosition} (hn : (ps.map (·.id)).Nodup)
    (hrows : ∀ r ∈ s.rows, ∃ p ∈ ps, p.id = r.position) :
    s.rows.length = (ps.map fun p => (s.rowsAt p.id).length).sum := by
  have hperm := flatMap_filter_perm (·.position) s.rows hn
  have hall : s.rows.filter (·.position ∈ ps.map (·.id)) = s.rows := by
    rw [List.filter_eq_self]
    intro r hr
    simpa using hrows r hr
  rw [← hall, ← hperm.length_eq, List.length_flatMap, List.map_map]
  rfl

/-- The positions that rows point to are those that have rows. -/
theorem length_positions_of_rows (hids : (s.positions.map (·.id)).Nodup)
    (hrows : ∀ r ∈ s.rows, ∃ p ∈ s.positions, p.id = r.position) :
    (s.rows.map (·.position)).eraseDups.length = s.positions.countP (s.rowsAt ·.id ≠ []) := by
  have hsame : (s.rows.map (·.position)).eraseDups.Perm ((s.positions.filter (s.rowsAt ·.id ≠ [])).map (·.id)) := by
    refine (List.perm_ext_iff_of_nodup (nodup_eraseDups _) (hids.sublist (List.filter_sublist.map _))).mpr fun id => ?_
    simp only [List.mem_eraseDups, List.mem_map, List.mem_filter, decide_eq_true_eq]
    constructor
    · rintro ⟨r, hr, rfl⟩
      obtain ⟨p, hp, hid⟩ := hrows r hr
      have hat : r ∈ s.rowsAt p.id := List.mem_filter.mpr ⟨hr, by simp [hid]⟩
      exact ⟨p, ⟨hp, List.ne_nil_of_mem hat⟩, hid⟩
    · rintro ⟨p, ⟨-, hat⟩, rfl⟩
      obtain ⟨r, hr⟩ := List.exists_mem_of_ne_nil _ hat
      obtain ⟨hr, hid⟩ := List.mem_filter.mp hr
      exact ⟨r, hr, by simpa using hid⟩
  rw [hsame.length_eq, List.length_map, List.countP_eq_length_filter]

/-! ### Reports -/

/-- What a report says of a store. -/
structure Covers (s : Store) (r : CoverageReport) : Prop where
  games : r.games = s.games.length
  positions : r.positions = s.positions.length
  mismatches : ∀ m, m ∈ r.mismatches ↔ ∃ p ∈ s.positions, m.Tells s p
  ascending : r.mismatches.Pairwise fun m n => m.position < n.position
  rows : r.rows = (s.positions.map fun p => (s.rowsAt p.id).length).sum
  indexed : r.indexed = s.positions.countP (s.rowsAt ·.id ≠ [])
  indexed_le : r.indexed ≤ r.positions
  share : r.positions = 0 → r.share = 1.0

end

/-- Whatever the index holds, as long as its rows belong to positions, a report can be made, and tells exactly which
    positions have another number of rows than their board has pieces. For this it comes to each position once, by
    number, and takes no more chunks than the positions fill. -/
theorem coverage_exact {s : Store} (hindex : s.damage.indexGone = false) (hids : (s.positions.map (·.id)).Nodup)
    (hpositive : ∀ p ∈ s.positions, 0 < p.id) (hrows : ∀ r ∈ s.rows, ∃ p ∈ s.positions, p.id = r.position) :
    (∃ r, s.coverage = .ok r ∧ Covers s r) ∧ (s.chunksAfter 0).flatten = s.positionsById ∧
      (∀ chunk ∈ s.chunksAfter 0, chunk.length ≤ chunkSize) ∧
      (s.chunksAfter 0).length = (s.positions.length + chunkSize - 1) / chunkSize := by
  have hall : s.positionsById.filter (0 < ·.id) = s.positionsById := by
    rw [List.filter_eq_self]
    intro p hp
    simpa using hpositive p (List.mem_mergeSort.mp hp)
  have hopen : s.index = .ok s.rows := by simp [index, hindex]
  refine ⟨⟨_, bind_ok_iff.mpr ⟨s.rows, hopen, rfl⟩, ?_⟩, ?_, fun _ => length_le_of_mem_chunksAfter, ?_⟩
  · constructor
    case games => rfl
    case positions => rfl
    case mismatches =>
      intro m
      refine (mem_mismatches hids).trans (exists_congr fun p => and_congr_right fun hp => ?_)
      exact and_iff_right (hpositive p hp)
    case ascending => exact mismatches_ascending hids
    case rows => exact rows_length hids hrows
    case indexed => exact length_positions_of_rows hids hrows
    case indexed_le => exact Nat.le_trans (Nat.le_of_eq (length_positions_of_rows hids hrows)) List.countP_le_length
    case share => exact fun hnone => if_pos hnone
  · rw [flatten_chunksAfter hids, hall]
  · rw [length_chunksAfter hids, hall, positionsById, List.length_mergeSort]

/-- Of two positions the first has a row too few, and the second has a row although its board cannot be read. -/
theorem coverage_exact_unreadable_board : ∃ r, coverage
      { games := [⟨1, .ofTags ⟨[]⟩, "", none⟩]
        positions := [⟨2, 1, 0, none, "8/8/8/8/8/8/8/K6k", .white, .none, 0, ""⟩,
          ⟨7, 1, 1, none, "8/8", .black, .none, 0, ""⟩]
        rows := [⟨7, 0, ⟨.white, .king⟩⟩, ⟨2, 0, ⟨.white, .king⟩⟩]
        keys := []
        damage := .none } = .ok r ∧
    r.rows = 2 ∧ r.indexed = 2 ∧ ⟨2, 2, 1⟩ ∈ r.mismatches ∧ ⟨7, 0, 1⟩ ∈ r.mismatches := by
  obtain ⟨⟨r, hr, hcovers⟩, -⟩ := coverage_exact
    (s := { games := [⟨1, .ofTags ⟨[]⟩, "", none⟩]
            positions := [⟨2, 1, 0, none, "8/8/8/8/8/8/8/K6k", .white, .none, 0, ""⟩,
              ⟨7, 1, 1, none, "8/8", .black, .none, 0, ""⟩]
            rows := [⟨7, 0, ⟨.white, .king⟩⟩, ⟨2, 0, ⟨.white, .king⟩⟩]
            keys := []
            damage := .none }) rfl (by decide) (by decide) (by decide)
  refine ⟨r, hr, hcovers.rows.trans (by decide), hcovers.indexed.trans (by decide), ?_, ?_⟩
  · exact (hcovers.mismatches _).mpr ⟨_, List.mem_cons_self, rfl, by decide +kernel, by decide, by decide⟩
  · refine (hcovers.mismatches _).mpr ⟨_, List.mem_cons_of_mem _ List.mem_cons_self, rfl, ?_, by decide, by decide⟩
    decide +kernel

end Store
end ChessArchive
