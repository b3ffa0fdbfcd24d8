import Mathlib.Data.List.Chain
import ChessArchive.Proofs.Placement
import ChessArchive.Proofs.Text.Blank

/-! Boards written as placements and read back. A board is read back as it was written; and of the placements that are
    read as the same board, the one that the board is written as is the one without two digits side by side. -/

namespace ChessArchive
namespace Placement

/-! ### Boards -/

/-- The last entry of a list for a square gives it the piece. -/
def LastOn (occupied : Occupied) (s : Square) (p : Piece) : Prop :=
  ∃ before after, occupied = before ++ (s, p) :: after ∧ ∀ e ∈ after, e.1 ≠ s

theorem lastOn_iff {occupied : Occupied} {s : Square} {p : Piece} :
    LastOn occupied s p ↔ pieceOn occupied s = some p := by
  constructor
  · rintro ⟨before, after, rfl, hafter⟩
    induction after using List.reverseRecOn with
    | nil => simp [pieceOn_append]
    | append_singleton after e ih =>
      rw [List.forall_mem_append, List.forall_mem_singleton] at hafter
      rw [← List.cons_append, ← List.append_assoc, pieceOn_append, if_neg hafter.2]
      exact ih hafter.1
  · intro h
    induction occupied using List.reverseRecOn with
    | nil => cases h
    | append_singleton occupied e ih =>
      rw [pieceOn_append] at h
      by_cases hs : e.1 = s
      · rw [if_pos hs] at h
        cases h
        exact ⟨occupied, [], by rw [← hs], nofun⟩
      · rw [if_neg hs] at h
        obtain ⟨before, after, rfl, hafter⟩ := ih h
        refine ⟨before, after ++ [e], by simp, ?_⟩
        rw [List.forall_mem_append, List.forall_mem_singleton]
        exact ⟨hafter, hs⟩

/-- In written order, a list is determined by its entries. -/
theorem eq_of_mem_iff {xs ys : Occupied} (hxs : (xs.map (·.1)).Pairwise Square.Before)
    (hys : (ys.map (·.1)).Pairwise Square.Before) (h : ∀ s p, (s, p) ∈ xs ↔ (s, p) ∈ ys) : xs = ys := by
  rw [List.pairwise_map] at hxs hys
  have hnodup : ∀ {zs : Occupied}, zs.Pairwise (fun x y => x.1.Before y.1) → zs.Nodup := fun hz =>
    hz.imp fun hxy heq => hxy.ne (congrArg Prod.fst heq)
  have hperm := (List.perm_ext_iff_of_nodup (hnodup hxs) (hnodup hys)).mpr fun e => h e.1 e.2
  refine hperm.eq_of_pairwise (fun x y _ _ hxy hyx => ?_) hxs hys
  simp only [Square.Before] at hxy hyx
  omega

/-! ### Digits side by side -/

/-- No two digits stand side by side. -/
def Merged (s : List Char) : Prop := s.IsChain fun c d => ¬ (c.isDigit = true ∧ d.isDigit = true)

instance : DecidablePred Merged := fun s => inferInstanceAs (Decidable (s.IsChain _))

theorem merged_sign {c : Char} (hc : c.isDigit = false) {s t : List Char} :
    Merged (s ++ c :: t) ↔ Merged s ∧ Merged t := by
  simp [Merged, List.isChain_append, List.isChain_cons, hc]

theorem merged_skipText (n : Nat) : Merged (skipText n) := by
  unfold skipText
  split
  · exact .nil
  · exact .singleton _

theorem isDigit_symbol (p : Piece) : p.symbol.isDigit = false := by
  rcases p with ⟨c, k⟩
  cases c <;> cases k <;> rfl

theorem merged_encodeCells (n : Nat) (cells : List (Option Piece)) : Merged (encodeCells n cells) := by
  induction cells generalizing n with
  | nil => exact merged_skipText n
  | cons cell cells ih =>
    cases cell with
    | none => exact ih (n + 1)
    | some p => exact (merged_sign (isDigit_symbol p)).mpr ⟨merged_skipText n, ih 0⟩

theorem merged_intercalate {parts : List (List Char)} :
    Merged (['/'].intercalate parts) ↔ ∀ part ∈ parts, Merged part := by
  induction parts with
  | nil => simp [Merged]
  | cons part parts ih =>
    cases parts with
    | nil => simp
    | cons next parts =>
      rw [List.intercalate_cons_cons, List.append_assoc, List.singleton_append, merged_sign (by decide), ih,
        List.forall_mem_cons (a := part)]

/-! ### Ranks -/

theorem encodeCells_replicate (n k : Nat) (cells : List (Option Piece)) :
    encodeCells n (List.replicate k none ++ cells) = encodeCells (n + k) cells := by
  induction k generalizing n with
  | zero => rfl
  | succ k ih =>
    rw [List.replicate_succ, List.cons_append, encodeCells, ih]
    congr 1
    omega

/-- A rank is written again as it was, if no two of its digits stand side by side. -/
theorem encodeCells_cells {n : Nat} {r : WrittenRank Piece} (hn : n ≤ 8) (h : Merged (skipText n ++ r.text sign)) :
    encodeCells n r.cells = skipText n ++ r.text sign := by
  induction r generalizing n with
  | nil => exact (List.append_nil _).symm
  | cons item r ih =>
    cases item with
    | skip k within =>
      -- A count that is still open would be written next to this digit.
      obtain rfl : n = 0 := by
        by_contra hne
        rw [WrittenRank.text_skip, skipText, if_neg hne, List.singleton_append] at h
        have hdigits := (List.isChain_cons_cons.mp h).1
        simp only [Nat.isDigit_digitChar, decide_eq_true_eq, not_and] at hdigits
        exact hdigits (by omega) (by omega)
      have hskip : skipText k = [Nat.digitChar k] := if_neg (by omega)
      have hrest := ih (n := k) within.2 (by rw [hskip]; exact h)
      rw [hskip] at hrest
      exact (encodeCells_replicate 0 k _).trans ((congrArg (encodeCells · _) (Nat.zero_add k)).trans hrest)
    | put p =>
      have hrest := ih (n := 0) (Nat.zero_le _) ((merged_sign (isDigit_symbol p)).mp h).2
      exact congrArg (skipText n ++ p.symbol :: ·) hrest

theorem text_skipped {n : Nat} (hn : n ≤ 8) (r : WrittenRank Piece) :
    ∃ r' : WrittenRank Piece, r'.text sign = skipText n ++ r.text sign ∧
      r'.cells = List.replicate n none ++ r.cells := by
  by_cases hzero : n = 0
  · subst hzero
    exact ⟨r, rfl, rfl⟩
  · exact ⟨.skip n (by omega) :: r, by rw [skipText, if_neg hzero]; rfl, rfl⟩

/-- What is written for the cells of a rank is a rank with these cells. -/
theorem exists_rank {n : Nat} {cells : List (Option Piece)} (h : n + cells.length ≤ 8) :
    ∃ r : WrittenRank Piece, encodeCells n cells = r.text sign ∧ r.cells = List.replicate n none ++ cells := by
  induction cells generalizing n with
  | nil =>
    obtain ⟨r, htext, hcells⟩ := text_skipped h []
    exact ⟨r, by simp [htext, encodeCells], hcells⟩
  | cons cell cells ih =>
    rw [List.length_cons] at h
    cases cell with
    | none =>
      obtain ⟨r, htext, hcells⟩ := ih (n := n + 1) (by omega)
      exact ⟨r, htext, by rw [hcells, List.replicate_succ', List.append_assoc, List.singleton_append]⟩
    | some p =>
      obtain ⟨r, htext, hcells⟩ := ih (n := 0) (by omega)
      obtain ⟨r', htext', hcells'⟩ := text_skipped (n := n) (by omega) (.put p :: r)
      refine ⟨r', ?_, ?_⟩
      · rw [htext', WrittenRank.text_put, ← htext]
        rfl
      · rw [hcells']
        exact congrArg (List.replicate n none ++ some p :: ·) hcells

/-- Ranks are written without slashes and blanks. -/
theorem plain_text (r : WrittenRank Piece) : ∀ c ∈ r.text sign, c ≠ '/' ∧ Text.isBlank c = false := by
  induction r with
  | nil => simp
  | cons item r ih =>
    cases item with
    | skip n within =>
      have hdigit : ∀ n ≤ 8, Nat.digitChar n ≠ '/' ∧ Text.isBlank (Nat.digitChar n) = false := by decide
      rw [WrittenRank.text_skip, List.forall_mem_cons]
      exact ⟨hdigit n within.2, ih⟩
    | put p =>
      rw [WrittenRank.text_put, sign, List.singleton_append, List.forall_mem_cons]
      refine ⟨?_, ih⟩
      rcases p with ⟨c, k⟩
      cases c <;> cases k <;> decide

/-! ### Boards written and read -/

theorem rankCells_file (cell : Square → Option Piece) (s : Square) :
    (rankCells cell s.rankIndex)[s.file]? = some (cell s) := by
  have hfile : (List.finRange 8)[s.file]? = some s.fileIndex := WrittenRank.getElem?_finRange s.fileIndex
  rw [rankCells, List.getElem?_map, hfile, Option.map_some, Square.ofFileRank_index]

/-- Ranks that list what is on a board have its cells. -/
theorem cells_of_listAll {cell : Square → Option Piece} {ranks : List (WrittenRank Piece)}
    (hwidth : ∀ r ∈ ranks, r.width = 8) (h : ∀ s p, (s, p) ∈ WrittenRank.listAll ranks ↔ cell s = some p)
    {row : Fin 8} {r : WrittenRank Piece} (hr : ranks[row.val]? = some r) : rankCells cell row.rev = r.cells := by
  have hlen : r.cells.length = 8 := (WrittenRank.length_cells r).trans (hwidth r (List.mem_of_getElem? hr))
  refine List.ext_getElem (by simp [rankCells, hlen]) fun i hi hi' => Option.ext fun p => ?_
  let s : Square := .ofFileRank ⟨i, hlen ▸ hi'⟩ row.rev
  have hfile : s.file = i := Square.file_ofFileRank _ _
  have hrow : s.rankIndex = row.rev := Fin.ext (Square.rank_ofFileRank _ _)
  calc (rankCells cell row.rev)[i] = some p
    _ ↔ (rankCells cell s.rankIndex)[s.file]? = some (some p) := by
      simp only [hrow, hfile, List.getElem?_eq_getElem hi, Option.some.injEq]
    _ ↔ ∃ r', ranks[s.rankIndex.rev.val]? = some r' ∧ r'.cells[s.file]? = some (some p) := by
      rw [rankCells_file, Option.some.injEq, ← h, WrittenRank.mem_listAll fun r hr => (hwidth r hr).le]
    _ ↔ r.cells[i] = some p := by
      simp only [hrow, Fin.rev_rev, hr, hfile, List.getElem?_eq_getElem hi', Option.some.injEq, exists_eq_left']

/-- What a board is written as is read as that board. -/
theorem decodeField_encodeBoard (cell : Square → Option Piece) :
    ∃ occupied, decodeField (encodeBoard cell) = .ok occupied ∧ ∀ s p, (s, p) ∈ occupied ↔ cell s = some p := by
  have hrank : ∀ row : Fin 8, ∃ r : WrittenRank Piece,
      encodeCells 0 (rankCells cell row.rev) = r.text sign ∧ r.cells = rankCells cell row.rev := fun row =>
    exists_rank (n := 0) (by simp [rankCells])
  choose rank htext hcells using hrank
  have hwidth : ∀ r ∈ (List.finRange 8).map rank, r.width = 8 := by
    intro r hr
    obtain ⟨row, -, rfl⟩ := List.mem_map.mp hr
    rw [← WrittenRank.length_cells, hcells, rankCells, List.length_map, List.length_finRange]
  have hsplit : (encodeBoard cell).splitOn '/' = ((List.finRange 8).map rank).map (·.text sign) := by
    have hboard : encodeBoard cell = ['/'].intercalate (((List.finRange 8).map rank).map (·.text sign)) := by
      simp only [encodeBoard, htext, List.map_map, Function.comp_def]
    rw [hboard]
    refine List.splitOn_intercalate '/' (fun s hs hslash => ?_) (by simp)
    obtain ⟨r, -, rfl⟩ := List.mem_map.mp hs
    exact (plain_text r '/' hslash).1 rfl
  refine ⟨_, decodeField_iff.mpr ⟨(List.finRange 8).map rank, hsplit, by simp, hwidth, rfl⟩, fun s p => ?_⟩
  have hrow : ((List.finRange 8).map rank)[s.rankIndex.rev.val]? = some (rank s.rankIndex.rev) := by
    rw [List.getElem?_map, WrittenRank.getElem?_finRange, Option.map_some]
  have hcell : (rank s.rankIndex.rev).cells[s.file]? = some (cell s) := by
    rw [hcells, Fin.rev_rev, rankCells_file]
  rw [WrittenRank.mem_listAll fun r hr => (hwidth r hr).le]
  simp only [hrow, Option.some.injEq, exists_eq_left', hcell]

/-- A placement is written again as it was exactly if no two of its digits stand side by side. -/
theorem encodeBoard_eq_iff {field : List Char} {occupied : Occupied} (h : decodeField field = .ok occupied) :
    encodeBoard (pieceOn occupied) = field ↔ Merged field := by
  constructor
  · intro heq
    rw [← heq, encodeBoard, merged_intercalate]
    intro part hpart
    obtain ⟨row, -, rfl⟩ := List.mem_map.mp hpart
    exact merged_encodeCells 0 _
  · intro hmerged
    have hnodup : (occupied.map (·.1)).Nodup := (decodeField_squares h).imp Square.Before.ne
    obtain ⟨ranks, hsplit, hlen, hwidth, rfl⟩ := decodeField_iff.mp h
    have hfield : field = ['/'].intercalate (ranks.map (·.text sign)) := by
      rw [← hsplit, List.intercalate_splitOn]
    rw [hfield, merged_intercalate] at hmerged
    rw [hfield, encodeBoard]
    congr 1
    refine List.ext_getElem (by simp [hlen]) fun i hi hi' => ?_
    have hrank : i < ranks.length := by simpa using hi'
    have hr : ranks[(⟨i, by simpa using hi⟩ : Fin 8).val]? = some ranks[i] := by simp
    rw [List.getElem_map, List.getElem_map, List.getElem_finRange]
    refine (congrArg _ (cells_of_listAll hwidth (fun s p => (pieceOn_iff hnodup).symm) hr)).trans ?_
    exact encodeCells_cells (Nat.zero_le 8) (hmerged _ (List.mem_map_of_mem (List.getElem_mem _)))

theorem isWord_encodeBoard (cell : Square → Option Piece) : Text.IsWord (encodeBoard cell) := by
  obtain ⟨occupied, hdecode, -⟩ := decodeField_encodeBoard cell
  constructor
  · intro hnil
    rw [hnil] at hdecode
    cases hdecode
  · obtain ⟨ranks, hsplit, -, -, -⟩ := decodeField_iff.mp hdecode
    have hjoined : ['/'].intercalate ((encodeBoard cell).splitOn '/') = encodeBoard cell :=
      List.intercalate_splitOn '/'
    rw [← hjoined, hsplit]
    refine Text.forall_mem_intercalate (List.forall_mem_singleton.mpr (by decide)) fun part hpart c hc => ?_
    obtain ⟨r, -, rfl⟩ := List.mem_map.mp hpart
    exact (plain_text r c hc).2

/-- What a board is written as is one field. -/
theorem firstField?_encodeBoard (cell : Square → Option Piece) :
    Text.firstField? (encodeBoard cell) = some (encodeBoard cell) :=
  Text.firstField?_of_plain (isWord_encodeBoard cell).1 (isWord_encodeBoard cell).2

theorem decode_encode (occupied : Occupied) :
    decode (encode occupied) = decodeField (encodeBoard (pieceOn occupied)) := by
  rw [decode, encode, String.toList_ofList, decodeText, firstField?_encodeBoard]

/-- The board codec. What a list of occupied squares is written as is read as the last pieces that the list gives for
    its squares, in written order. A text that is read as a placement is written again as a text for the same
    placement, which is the field that was read exactly if no two digits of this field stand side by side. And lists
    are written alike exactly if they give the same board. -/
theorem board_codec :
    (∀ occupied, ∃ placed, decode (encode occupied) = .ok placed ∧ (placed.map (·.1)).Pairwise Square.Before ∧
      ∀ s p, (s, p) ∈ placed ↔ LastOn occupied s p) ∧
    (∀ text placed, decode text = .ok placed → decode (encode placed) = .ok placed ∧
      ∃ field, Text.firstField? text.toList = some field ∧ (encode placed = String.ofList field ↔ Merged field)) ∧
    ∀ occupied other, encode occupied = encode other ↔ ∀ s p, LastOn occupied s p ↔ LastOn other s p := by
  have hread : ∀ occupied, ∃ placed, decode (encode occupied) = .ok placed ∧
      (placed.map (·.1)).Pairwise Square.Before ∧ ∀ s p, (s, p) ∈ placed ↔ LastOn occupied s p := by
    intro occupied
    obtain ⟨placed, hdecode, hon⟩ := decodeField_encodeBoard (pieceOn occupied)
    exact ⟨placed, (decode_encode occupied).trans hdecode, decodeField_squares hdecode,
      fun s p => (hon s p).trans lastOn_iff.symm⟩
  refine ⟨hread, fun text placed h => ⟨?_, ?_⟩, fun occupied other => ⟨fun heq s p => ?_, fun hsame => ?_⟩⟩
  · obtain ⟨again, hagain, hordered, hon⟩ := hread placed
    rw [hagain, eq_of_mem_iff hordered (decode_squares h) fun s p => ?_]
    rw [hon, lastOn_iff, pieceOn_iff (decode_nodup h)]
  · unfold decode decodeText at h
    split at h
    · cases h
    · rename_i field hfield
      exact ⟨field, hfield, by rw [encode, String.ofList_inj, encodeBoard_eq_iff h]⟩
  · obtain ⟨placed, hdecode, -, hon⟩ := hread occupied
    obtain ⟨placed', hdecode', -, hon'⟩ := hread other
    rw [heq, hdecode'] at hdecode
    obtain rfl := Except.ok.inj hdecode
    rw [← hon, ← hon']
  · have hboard : pieceOn occupied = pieceOn other := by
      funext s
      refine Option.ext fun p => ?_
      rw [← lastOn_iff, ← lastOn_iff, hsame]
    rw [encode, encode, hboard]

theorem board_codec_pawn_on_d4 :
    decode "44/8/8/8/3P4/8/8/8 w" = .ok [(27, ⟨.white, .pawn⟩)] ∧
      decode (encode [(27, ⟨.white, .pawn⟩)]) = .ok [(27, ⟨.white, .pawn⟩)] ∧
      encode [(27, ⟨.white, .pawn⟩)] ≠ "44/8/8/8/3P4/8/8/8" := by
  have hdecode : decode "44/8/8/8/3P4/8/8/8 w" = .ok [(27, ⟨.white, .pawn⟩)] := by decide +kernel
  obtain ⟨hagain, field, hfield, hwritten⟩ := board_codec.2.1 _ _ hdecode
  obtain rfl : "44/8/8/8/3P4/8/8/8".toList = field := Option.some.inj ((by decide +kernel : _ = _).trans hfield)
  refine ⟨hdecode, hagain, fun h => ?_⟩
  have hmerged := hwritten.mp (h.trans String.ofList_toList.symm)
  exact absurd hmerged (by decide +kernel)

end Placement
end ChessArchive
