import ChessArchive.Proofs.Pgn.Movetext

/-! Tag pairs, written and read back. A text that has a line for each of them, a blank line and a result gives back the
    same pairs: no value is changed, none gets lost, and none is added. -/

namespace ChessArchive

/-- If each name comes once, a name has the value that is listed with it, and no other. -/
theorem Tags.get?_eq_some_iff {t : Tags} (h : (t.entries.map (·.1)).Nodup) {name value : String} :
    t.get? name = some value ↔ (name, value) ∈ t.entries := by
  obtain ⟨entries⟩ := t
  simp only [get?] at h ⊢
  induction entries with
  | nil => simp
  | cons e entries ih =>
    rw [List.map_cons, List.nodup_cons] at h
    rw [List.lookup_cons, List.mem_cons]
    by_cases hname : name = e.1
    · subst hname
      have habsent : (e.1, value) ∉ entries := fun hmem => h.1 (List.mem_map.mpr ⟨_, hmem, rfl⟩)
      rw [beq_self_eq_true]
      simp [habsent, Prod.ext_iff, eq_comm]
    · rw [beq_eq_false_iff_ne.mpr hname]
      simp [hname, ih h.2, Prod.ext_iff]

namespace Pgn
open Text

/-- A line for each tag pair, and a blank one. -/
def headerLines (entries : List (String × String)) : List (List Char) := (entries.map fun e => tagLine e.1 e.2) ++ [[]]

/-- Tag pairs, a result, and what may come after it. -/
def tagsText (entries : List (String × String)) (result : GameResult) (after : List Char) : List Char :=
  ((headerLines entries).flatMap fun l => l ++ ['\n']) ++ (result.token.toList ++ after)

theorem feed_not_mem_headerLines {entries : List (String × String)} (hnames : ∀ e ∈ entries, IsTagName e.1)
    (hvalues : ∀ e ∈ entries, '\n' ∉ e.2.toList) : ∀ l ∈ headerLines entries, '\n' ∉ l := by
  refine List.forall_mem_append.mpr ⟨fun l hl => ?_, by simp⟩
  obtain ⟨e, he, rfl⟩ := List.mem_map.mp hl
  exact feed_not_mem_tagLine (hnames e he) (hvalues e he)

/-! ### The end of the header -/

theorem readHeader_blank (t : Tags) (rest : List (List Char)) : readHeader t ([] :: rest) = readHeader t rest := rfl

/-- The header ends where a line begins with something else than a blank or a bracket. -/
theorem readHeader_stop {c : Char} (hblank : isBlank c = false) (hbracket : c ≠ '[') (t : Tags) (line : List Char)
    (rest : List (List Char)) : readHeader t ((c :: line) :: rest) = .ok (t, (c :: line) :: rest) := by
  have hhead : (trim (c :: line)).head? = some c := by
    rw [trim, List.dropWhile_cons_of_neg (by simp [hblank])]
    exact head?_dropEndWhile hblank line
  obtain ⟨s, hs⟩ := List.head?_eq_some_iff.mp hhead
  rw [readHeader, hs]
  exact if_neg hbracket

theorem splitOn_cons {c : Char} (hc : c ≠ '\n') (s : List Char) :
    ∃ line rest, (c :: s).splitOn '\n' = (c :: line) :: rest := by
  have hne : (c == '\n') = false := beq_eq_false_iff_ne.mpr hc
  obtain ⟨line, rest, hs⟩ := List.exists_cons_of_ne_nil (List.splitOnP_ne_nil (· == '\n') s)
  refine ⟨line, rest, ?_⟩
  rw [List.splitOn, List.splitOnP_cons_eq_if_modifyHead, hne, hs]
  rfl

/-! ### Reading back -/

section
variable {entries : List (String × String)} (hnames : ∀ e ∈ entries, IsTagName e.1)
  (hdistinct : (entries.map (·.1)).Nodup) (hvalues : ∀ e ∈ entries, '\n' ∉ e.2.toList)
include hnames hdistinct hvalues

/-- The header of such a text has all of its tags, and leaves the result. -/
theorem readHeader_tagsText (result : GameResult) (after : List Char) : ∃ line rest,
    readHeader .empty ((tagsText entries result after).splitOn '\n') = .ok (⟨entries⟩, line :: rest) ∧
      ['\n'].intercalate (line :: rest) = result.token.toList ++ after := by
  obtain ⟨c, s, htoken, hplain, hbracket⟩ := token_eq_cons result
  obtain ⟨hblank, hfeed⟩ := not_blank_of_plain hplain
  obtain ⟨line, rest, hsplit⟩ := splitOn_cons hfeed (s ++ after)
  refine ⟨c :: line, rest, ?_, ?_⟩
  · rw [tagsText, splitOn_lines (feed_not_mem_headerLines hnames hvalues), headerLines, List.append_assoc,
      readHeader_tagLines hnames .empty hdistinct, List.singleton_append, readHeader_blank, htoken, List.cons_append,
      hsplit, readHeader_stop hblank hbracket]
    rfl
  · rw [← hsplit, List.intercalate_splitOn, htoken, List.cons_append]

/-- Whatever characters besides line feeds the values consist of, tag pairs are read back as they were written, and
    they are all that is read with the result. -/
theorem parse_tagsText (result : GameResult) {after : List Char} (hafter : ∀ c ∈ after.head?, isDelimiter c = true) :
    ∃ game, parse (tagsText entries result after) = .ok game ∧ game.moves = [] ∧ game.result = result ∧
      game.tags.entries = entries ∧
      ∀ name value, game.tags.get? name = some value ↔ (name, value) ∈ entries := by
  obtain ⟨line, rest, hheader, htext⟩ := readHeader_tagsText hnames hdistinct hvalues result after
  refine ⟨⟨⟨entries⟩, [], result⟩, ?_, rfl, rfl, rfl, fun name value => Tags.get?_eq_some_iff hdistinct⟩
  simp only [parse, hheader, bind, Except.bind, List.isEmpty_cons, Bool.and_false, Bool.false_eq_true, if_false, htext,
    readMoves_token result hafter]
  rfl

end

/-- Values with runs of backslashes, quotes, brackets, blanks at their ends and carriage returns. -/
theorem parse_tagsText_signs : ∃ game,
    parse "[A \"\\\\\\\\\\\"\\\\\"]\n[B_1 \" ][\\\"\\\" \r\"]\n[C \"\"]\n\n0-1\n".toList = .ok game ∧ game.moves = [] ∧
      game.result = .blackWins ∧ game.tags.entries = [("A", "\\\\\"\\"), ("B_1", " ][\"\" \r"), ("C", "")] ∧
      ∀ name value, game.tags.get? name = some value ↔
        (name, value) ∈ [("A", "\\\\\"\\"), ("B_1", " ][\"\" \r"), ("C", "")] :=
  parse_tagsText (by decide : ∀ e ∈ [("A", "\\\\\"\\"), ("B_1", " ][\"\" \r"), ("C", "")], IsTagName e.1) (by decide)
    (by decide) .blackWins (show ∀ c ∈ ['\n'].head?, isDelimiter c = true by rintro c ⟨⟩; decide)

end Pgn
end ChessArchive
