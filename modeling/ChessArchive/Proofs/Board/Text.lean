import ChessArchive.Proofs.Pgn.Tags
import ChessArchive.Proofs.Rank
import ChessArchive.Proofs.Reading
import ChessArchive.Proofs.Text.Blank
import ChessArchive.Replay

/-! Texts of boards as they are read. No blanks stand around such a text, so one that is the standard start up to blanks
    is the standard start. -/

namespace ChessArchive

namespace Text

theorem not_blank_of_digit {n : Nat} (h : n < 10) : isBlank (Nat.digitChar n) = false := by
  revert n
  decide

theorem not_blank_of_isDigit {c : Char} (h : c.isDigit = true) : isBlank c = false := by
  have hdigit : Placement.digit? c = some (c.toNat - '0'.toNat) := if_pos h
  obtain ⟨hlt, hc⟩ := Placement.digit?_eq_some.mp hdigit
  exact hc ▸ not_blank_of_digit hlt

theorem last_of_digitsValue? {r : List Char} (h : (digitsValue? r).isSome) :
    ∃ rest d, r = rest ++ [d] ∧ isBlank d = false := by
  unfold digitsValue? at h
  split at h
  · rename_i hall
    rcases List.eq_nil_or_concat' r with rfl | ⟨rest, d, rfl⟩
    · exact absurd rfl hall.1
    · exact ⟨rest, d, rfl, not_blank_of_isDigit (List.all_eq_true.mp hall.2 d (by simp))⟩
  · cases h

/-- What is read as a number does not end with a blank. -/
theorem last_of_natUpTo? {max n : Nat} {s : List Char} (h : natUpTo? max s = some n) :
    ∃ rest d, s = rest ++ [d] ∧ isBlank d = false := by
  obtain ⟨h, -⟩ := Option.filter_eq_some_iff.mp h
  split at h
  · obtain ⟨rest, d, rfl, hd⟩ := last_of_digitsValue? (Option.isSome_of_eq_some h)
    exact ⟨'+' :: rest, d, rfl, hd⟩
  · exact last_of_digitsValue? (Option.isSome_of_eq_some h)

end Text

namespace Board

theorem not_blank_of_readCell {c : Char} (h : (readCell c).isSome) : Text.isBlank c = false := by
  unfold readCell at h
  split at h
  · rename_i n hn
    obtain ⟨hlt, rfl⟩ := Placement.digit?_eq_some.mp hn
    exact Text.not_blank_of_digit hlt
  · rw [Option.isSome_map] at h
    obtain ⟨p, hp⟩ := Option.isSome_iff_exists.mp h
    obtain rfl := Piece.eq_symbol_of_ofSymbol? hp
    rcases p with ⟨c, k⟩
    cases c <;> cases k <;> decide

/-- What is read as a placement does not begin with a blank. -/
theorem head_of_readCells {field : List Char} {cells : Cells} (h : readCells field = some cells) :
    ∃ c rest, field = c :: rest ∧ Text.isBlank c = false := by
  obtain ⟨ranks, hranks, -⟩ := Option.bind_eq_some_iff.mp h
  have hread := isSome_of_mapM hranks
  have hjoined : ['/'].intercalate (field.splitOn '/') = field := List.intercalate_splitOn '/'
  cases hsplit : field.splitOn '/' with
  | nil => exact absurd hsplit (List.splitOn_ne_nil _ _)
  | cons part parts =>
    have hpart := hread part (by simp [hsplit])
    cases part with
    | nil => cases hpart
    | cons c rest =>
      obtain ⟨row, hrow⟩ := Option.isSome_iff_exists.mp hpart
      obtain ⟨rows, hrows, -⟩ := Option.map_eq_some_iff.mp (Option.filter_eq_some_iff.mp hrow).1
      obtain ⟨more, hmore⟩ : ∃ more, ['/'].intercalate ((c :: rest) :: parts) = c :: (rest ++ more) := by
        cases parts with
        | nil => exact ⟨[], by simp⟩
        | cons next parts => exact ⟨_, List.append_assoc .. ▸ List.intercalate_cons_cons⟩
      rw [hsplit, hmore] at hjoined
      exact ⟨c, _, hjoined.symm, not_blank_of_readCell (isSome_of_mapM hrows c List.mem_cons_self)⟩

/-- Nothing is trimmed off a text that is read as a board. -/
theorem trim_of_read {text : String} {b : Board} (h : ofText? text = some b) : Text.trimmed text = text := by
  unfold ofText? at h
  split at h
  · rename_i placement sideField castlingField enPassantField halfmoveField fullmoveField hsplit
    obtain ⟨cells, hcells, h⟩ := Option.bind_eq_some_iff.mp h
    obtain ⟨side, -, h⟩ := Option.bind_eq_some_iff.mp h
    split at h
    · obtain ⟨rooks, -, h⟩ := Option.bind_eq_some_iff.mp h
      obtain ⟨enPassant, -, h⟩ := Option.bind_eq_some_iff.mp h
      obtain ⟨halfmoves, -, h⟩ := Option.bind_eq_some_iff.mp h
      obtain ⟨fullmoves, hfullmoves, -⟩ := Option.bind_eq_some_iff.mp h
      obtain ⟨c, rest, rfl, hc⟩ := head_of_readCells hcells
      obtain ⟨rest', d, rfl, hd⟩ := Text.last_of_natUpTo? (Option.filter_eq_some_iff.mp hfullmoves).1
      have hjoined : [' '].intercalate (text.toList.splitOn ' ') = text.toList := List.intercalate_splitOn ' '
      have hends : ∃ s, text.toList = c :: (s ++ [d]) := by
        rw [← hjoined, hsplit]
        exact ⟨rest ++ ' ' :: sideField ++ ' ' :: castlingField ++ ' ' :: enPassantField ++ ' ' :: halfmoveField ++
          ' ' :: rest', by simp [List.intercalate]⟩
      obtain ⟨s, hs⟩ := hends
      rw [Text.trimmed, hs, Text.trim_of_ends hc hd, ← hs, String.ofList_toList]
    · cases h
  · cases h

theorem read_start : ofText? Fen.start = some .start := by decide +kernel

end Board

/-- A game starts from the same board whether or not the standard start is left out. -/
theorem Replay.startBoard_filter {start : Option String} {b : Board} (h : startBoard start = .ok b) :
    startBoard (start.filter fun f => Text.trimmed f ≠ Fen.start) = .ok b := by
  cases start with
  | none => exact h
  | some text =>
    by_cases hstart : Text.trimmed text = Fen.start
    · rw [Option.filter_some_neg (by simpa using hstart)]
      simp only [startBoard] at h
      split at h
      · rename_i found hread
        obtain rfl : text = Fen.start := (Board.trim_of_read hread).symm.trans hstart
        rw [← h]
        exact congrArg Except.ok (Option.some.inj (Board.read_start.symm.trans hread))
      · cases h
    · rw [Option.filter_some_pos (by simpa using hstart)]
      exact h

end ChessArchive
