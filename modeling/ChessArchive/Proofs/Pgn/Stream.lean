import ChessArchive.Proofs.Pgn.TagPairs

/-! Files of written games. Each game is read back as it was written, unless some line of a comment opens with a
    bracket: there the file is cut inside of the comment, and of the game only its first part is read, in vain. -/

namespace ChessArchive
namespace Pgn
open Text

/-! ### Records -/

/-- Lines without movetext, of which the first is a tag line, and then lines with movetext and without tag lines. -/
def IsRecord (lines : List (List Char)) : Prop := ∃ first header body, lines = first :: (header ++ body) ∧
  isTagLine first = true ∧ (∀ l ∈ header, isMoveLine l = false) ∧ (∀ l ∈ body, isTagLine l = false) ∧
  body.any isMoveLine = true

theorem splitRecord_keep {moving : Bool} {ls : List (List Char)} (h : (∀ l ∈ ls, isTagLine l = false) ∨
    moving = false ∧ ∀ l ∈ ls, isMoveLine l = false) (rest : List (List Char)) : splitRecord moving (ls ++ rest) =
      let r := splitRecord (moving || ls.any isMoveLine) rest
      (ls ++ r.1, r.2) := by
  induction ls generalizing moving with
  | nil => simp
  | cons l ls ih =>
    simp only [List.forall_mem_cons] at h
    have hkeep : (moving && isTagLine l) = false := by
      rcases h with h | h
      · rw [h.1, Bool.and_false]
      · rw [h.1, Bool.false_and]
    have hnext : (∀ l ∈ ls, isTagLine l = false) ∨
        (moving || isMoveLine l) = false ∧ ∀ l ∈ ls, isMoveLine l = false := by
      rcases h with h | h
      · exact Or.inl h.2
      · exact Or.inr ⟨by rw [h.1, h.2.1]; rfl, h.2.2⟩
    rw [List.cons_append, splitRecord, hkeep, if_neg Bool.false_ne_true, ih hnext, List.any_cons, Bool.or_assoc]
    rfl

theorem isMoveLine_of_isTagLine {l : List Char} (h : isTagLine l = true) : isMoveLine l = false := by
  rw [isMoveLine, h, Bool.not_true, Bool.and_false]

theorem records_append {ls rest : List (List Char)} (h : IsRecord ls)
    (hrest : ∀ l, rest.head? = some l → isTagLine l = true) : records (ls ++ rest) = ls :: records rest := by
  obtain ⟨first, header, body, rfl, hfirst, hheader, hbody, hmoves⟩ := h
  have hend : splitRecord true rest = ([], rest) := by
    cases rest with
    | nil => rfl
    | cons l rest => simp [splitRecord, hrest l rfl]
  -- No line of the header is movetext, and no line of the body, where the flag is set, a tag line.
  have hsplit : splitRecord false (header ++ (body ++ rest)) = (header ++ body, rest) := by
    rw [splitRecord_keep (Or.inr ⟨rfl, hheader⟩), splitRecord_keep (Or.inl hbody), hmoves, Bool.or_true, hend]
    simp
  rw [List.cons_append, records, List.append_assoc, isMoveLine_of_isTagLine hfirst, hsplit]

/-- What the reader gives for lines. -/
def readLines (lines : List (List Char)) : List (Except PgnError PgnGame) := (recordTexts lines .finished).map parse

theorem readAll_encode (s : List Char) :
    readAll (String.ofList s).toUTF8.data.toList .finished = readLines (linesOf s) := by
  have hbytes : (String.ofList s).toUTF8.data.toList = s.flatMap String.utf8EncodeChar := List.toList_data_toByteArray
  rw [readAll, sourceLines, hbytes, linesOf_decode]
  rfl

theorem readLines_append {ls rest : List (List Char)} (h : IsRecord ls)
    (hrest : ∀ l, rest.head? = some l → isTagLine l = true) :
    readLines (ls ++ rest) = parse ls.flatten :: readLines rest := by
  have hblank : allBlank ls.flatten = false := by
    obtain ⟨first, header, body, rfl, hfirst, -⟩ := h
    rw [List.flatten_cons, allBlank, List.all_append, Bool.and_eq_false_iff]
    exact Or.inl (not_blank_of_isTagLine hfirst)
  simp [readLines, recordTexts, records_append h hrest, hblank]

/-! ### Headers -/

theorem words_blanks {b : List Char} (hb : allBlank b = true) (s : List Char) : words (b ++ s) = words s :=
  Element.cut_blanks hb 0 s

theorem allBlank_of_open {s : List Char} (h : (words s).closed = false) : allBlank s = false := by
  rw [Bool.eq_false_iff]
  intro hblank
  have hwords := words_blanks hblank []
  rw [List.append_nil] at hwords
  rw [hwords] at h
  cases h

/-- Blank lines before movetext are passed over; they hold no words. -/
theorem readHeader_movetext {lines : List (List Char)} (h : opensLine true (['\n'].intercalate lines) = false)
    (t : Tags) : ∃ kept, readHeader t lines = .ok (t, kept) ∧
      words (['\n'].intercalate kept) = words (['\n'].intercalate lines) := by
  induction lines with
  | nil => exact ⟨[], rfl, rfl⟩
  | cons line rest ih =>
    rw [readHeader]
    cases htrim : trim line with
    | nil =>
      have hblank := allBlank_of_trim_eq_nil htrim
      by_cases hrest : rest = []
      · subst hrest
        refine ⟨[], rfl, ?_⟩
        simpa using (words_blanks hblank []).symm
      · rw [List.intercalate_cons_of_ne_nil hrest, List.append_assoc, opensLine_append,
          opensLine_blanks hblank] at h
        obtain ⟨kept, hread, hwords⟩ := ih h
        refine ⟨kept, hread, ?_⟩
        rw [hwords, List.intercalate_cons_of_ne_nil hrest, List.append_assoc, words_blanks hblank,
          words_blanks (by decide)]
    | cons c s =>
      have hbracket : c ≠ '[' := by
        rintro rfl
        have hopen : opensLine true line = true := opensLine_of_isTagLine (by rw [isTagLine, htrim]; rfl)
        obtain ⟨more, hmore⟩ : ∃ more, ['\n'].intercalate (line :: rest) = line ++ more := by
          cases rest with
          | nil => exact ⟨[], by simp⟩
          | cons next rest => exact ⟨_, List.append_assoc .. ▸ List.intercalate_cons_cons⟩
        rw [hmore, opensLine_append, hopen] at h
        cases h
      exact ⟨line :: rest, if_neg hbracket, rfl⟩

/-- The tag pairs of a written game. -/
structure Header where
  tags : List (String × String)
  tags_ne : tags ≠ []
  named : ∀ e ∈ tags, IsTagName e.1
  distinct : (tags.map (·.1)).Nodup
  value_line : ∀ e ∈ tags, '\n' ∉ e.2.toList

namespace Header

/-- A line for each tag, and a blank one. -/
def lines (h : Header) : List (List Char) := (h.tags.map fun e => tagLine e.1 e.2) ++ [[]]

def text (h : Header) : List Char := h.lines.flatMap fun l => l ++ ['\n']

theorem opens_text (h : Header) : Opens h.text := by
  obtain ⟨e, es, htags⟩ := List.exists_cons_of_ne_nil h.tags_ne
  have hfirst : Opens (tagLine e.1 e.2) := ⟨[], _, rfl, fun _ hc => nomatch hc⟩
  rw [text, lines, htags, List.map_cons, List.cons_append, List.flatMap_cons, List.append_assoc]
  exact hfirst.append _

theorem feed_not_mem_lines (h : Header) : ∀ l ∈ h.lines, '\n' ∉ l := feed_not_mem_headerLines h.named h.value_line

theorem linesOf_append (h : Header) (s : List Char) :
    linesOf (h.text ++ s) = h.lines.map (· ++ ['\n']) ++ linesOf s :=
  cut_lines (fun _ s hl => linesOf_line hl s) h.feed_not_mem_lines s

theorem splitOn_append (h : Header) (s : List Char) : (h.text ++ s).splitOn '\n' = h.lines ++ s.splitOn '\n' :=
  splitOn_lines h.feed_not_mem_lines s

/-- A text with a header has its tags; the rest is in the words of its movetext. -/
theorem parse_append (h : Header) {s : List Char} (hs : opensLine true s = false) : parse (h.text ++ s) =
    match readMoves (words s).words with
    | (moves, some result) => .ok ⟨⟨h.tags⟩, moves, result⟩
    | (moves, none) =>
      if (words s).closed then
        .ok ⟨⟨h.tags⟩, moves, ((Tags.get? ⟨h.tags⟩ "Result").bind GameResult.ofToken?).getD .ongoing⟩
      else .error .unterminatedComment := by
  have hsplit : ['\n'].intercalate (s.splitOn '\n') = s := List.intercalate_splitOn '\n'
  obtain ⟨kept, hread, hwords⟩ := readHeader_movetext (by rw [hsplit]; exact hs) ⟨h.tags⟩
  have hheader : readHeader .empty ((h.text ++ s).splitOn '\n') = .ok (⟨h.tags⟩, kept) := by
    rw [h.splitOn_append, lines, List.append_assoc, readHeader_tagLines h.named .empty h.distinct, ← hread]
    rfl
  have hne : h.tags.isEmpty = false := by simpa using h.tags_ne
  rw [hsplit] at hwords
  simp only [parse, hheader, bind, Except.bind, hne, Bool.false_and, Bool.false_eq_true, if_false, hwords]
  rfl

theorem parse_append_open (h : Header) {s : List Char} (hs : opensLine true s = false)
    (hresult : (readMoves (words s).words).2 = none) (hopen : (words s).closed = false) :
    parse (h.text ++ s) = .error .unterminatedComment := by
  rw [h.parse_append hs, hopen]
  generalize readMoves (words s).words = found at hresult
  obtain ⟨moves, result⟩ := found
  obtain rfl : result = none := hresult
  rfl

theorem isRecord_append (h : Header) {s : List Char} (hs : opensLine true s = false) (hblank : allBlank s = false) :
    IsRecord (linesOf (h.text ++ s)) := by
  have hbody : ∀ l ∈ linesOf s, isTagLine l = false := by
    rw [(opensLine_lines s).1] at hs
    simpa using hs
  obtain ⟨e, es, htags⟩ := List.exists_cons_of_ne_nil h.tags_ne
  have htag : ∀ e : String × String, isTagLine (tagLine e.1 e.2 ++ ['\n']) = true := fun e => isTagLine_cons '[' _
  refine ⟨tagLine e.1 e.2 ++ ['\n'], (es.map fun e => tagLine e.1 e.2 ++ ['\n']) ++ [['\n']], linesOf s, ?_,
    htag e, ?_, hbody, ?_⟩
  · rw [h.linesOf_append, lines, htags]
    simp
  · refine List.forall_mem_append.mpr ⟨fun l hl => ?_, by decide⟩
    obtain ⟨e', -, rfl⟩ := List.mem_map.mp hl
    exact isMoveLine_of_isTagLine (htag e')
  · rw [← flatten_linesOf s, allBlank, List.all_flatten, List.all_eq_false] at hblank
    obtain ⟨l, hl, hl'⟩ := hblank
    refine List.any_eq_true.mpr ⟨l, hl, ?_⟩
    rw [isMoveLine, hbody l hl, allBlank]
    simpa using hl'

end Header

/-! ### Games -/

/-- A game as it is written: its header, and movetext with a result at its end. -/
structure WrittenGame extends Header where
  elements : List Element
  result : GameResult
  spaced : Element.Spaced elements (result.token.toList ++ ['\n'])

namespace WrittenGame
open Element

def movetext (g : WrittenGame) : List Char := texts g.elements ++ (g.result.token.toList ++ ['\n'])

def text (g : WrittenGame) : List Char := g.toHeader.text ++ g.movetext

/-- What is to be read in a game. -/
def reading (g : WrittenGame) : PgnGame := ⟨⟨g.tags⟩, moves g.elements, g.result⟩

theorem opensLine_movetext (g : WrittenGame) : opensLine true g.movetext = anyBreaks g.elements := by
  have hresult : ∀ fresh, opensLine fresh (g.result.token.toList ++ ['\n']) = false := by
    intro fresh
    cases g.result <;> cases fresh <;> decide
  rw [movetext, opensLine_append, hresult, Bool.or_false, opensLine_texts]

theorem parse_text {g : WrittenGame} (hg : anyBreaks g.elements = false) : parse g.text = .ok g.reading := by
  have hresult : readMoves (words (g.result.token.toList ++ ['\n'])).words = ([], some g.result) := by
    cases g.result <;> decide
  obtain ⟨hread, -⟩ := read_texts g.spaced
  rw [hresult, List.append_nil] at hread
  rw [text, g.parse_append (g.opensLine_movetext.trans hg), movetext, hread]
  rfl

theorem allBlank_movetext (g : WrittenGame) : allBlank g.movetext = false := by
  have hresult : g.result.token.toList.all isBlank = false := by
    cases g.result <;> decide
  rw [movetext, allBlank, List.all_append, List.all_append, hresult, Bool.false_and, Bool.and_false]

/-- Without such a comment the text of a game is one record. -/
theorem isRecord_text {g : WrittenGame} (hg : anyBreaks g.elements = false) : IsRecord (linesOf g.text) :=
  g.isRecord_append (g.opensLine_movetext.trans hg) g.allBlank_movetext

theorem linesOf_text_append (g : WrittenGame) (s : List Char) :
    linesOf (g.text ++ s) = linesOf g.text ++ linesOf s := by
  have htext : g.text = (g.toHeader.text ++ (texts g.elements ++ g.result.token.toList)) ++ ['\n'] := by
    simp [text, movetext]
  rw [htext, List.append_assoc, List.singleton_append, linesOf_feed]

def stream (games : List WrittenGame) : List Char := games.flatMap text

theorem isTagLine_head_stream (games : List WrittenGame) {l : List Char}
    (hl : (linesOf (stream games)).head? = some l) : isTagLine l = true := by
  cases games with
  | nil => cases hl
  | cons g games =>
    rw [stream, List.flatMap_cons, text, List.append_assoc] at hl
    exact (g.opens_text.append _).isTagLine_head hl

/-- With such a comment the first record of a game ends within it, and cannot be read. -/
theorem readLines_broken {g : WrittenGame} (hg : anyBreaks g.elements = true) (s : List Char) :
    ∃ later, readLines (linesOf (g.text ++ s)) = .error .unterminatedComment :: later := by
  -- The record takes everything up to the tear; there a brace is open, and no result has come.
  obtain ⟨x, y, htorn, hresult, hclosed⟩ := torn_movetext g.spaced hg
  have hfirst : opensLine true (x ++ ['\n']) = false := by
    rw [opensLine_append, htorn.before]
    exact opensLine_blanks (by decide) _
  have hrecord := g.isRecord_append hfirst (allBlank_of_open hclosed)
  have hparse := g.parse_append_open hfirst hresult hclosed
  obtain ⟨tail, htail⟩ : ∃ tail, g.text ++ s = (g.toHeader.text ++ x) ++ '\n' :: (y ++ tail) :=
    ⟨g.result.token.toList ++ ['\n'] ++ s, by simp [text, movetext, htorn.text_eq]⟩
  rw [← List.append_assoc] at hrecord hparse
  refine ⟨readLines (linesOf (y ++ tail)), ?_⟩
  rw [htail, linesOf_feed, readLines_append hrecord fun _ => (htorn.after.append tail).isTagLine_head,
    flatten_linesOf, hparse]

theorem readLines_stream (games : List WrittenGame) :
    readLines (linesOf (stream games)) = games.map (fun g => .ok g.reading) ↔
      ∀ g ∈ games, anyBreaks g.elements = false := by
  induction games with
  | nil => simp [readLines, recordTexts, records, stream, linesOf]
  | cons g games ih =>
    rw [stream, List.flatMap_cons, ← stream, List.map_cons, List.forall_mem_cons]
    cases hg : anyBreaks g.elements with
    | true =>
      obtain ⟨later, hread⟩ := readLines_broken hg (stream games)
      rw [hread]
      simp
    | false =>
      rw [g.linesOf_text_append, readLines_append (isRecord_text hg) fun _ => isTagLine_head_stream games,
        flatten_linesOf, parse_text hg, List.cons_inj_right, ih]
      simp

end WrittenGame

/-- A file of written games gives back the tags, the moves of the main line and the result of each, and nothing else,
    exactly if in no comment a line after the first opens with a bracket. -/
theorem readAll_written (games : List WrittenGame) :
    readAll (String.ofList (games.flatMap WrittenGame.text)).toUTF8.data.toList .finished =
      games.map (fun g => .ok g.reading) ↔ ∀ g ∈ games, Element.anyBreaks g.elements = false := by
  rw [readAll_encode]
  exact WrittenGame.readLines_stream games

/-- A game of two moves with a comment between them. -/
def WrittenGame.annotated (comment : List Char) (closed : '\x7d' ∉ comment) : WrittenGame where
  tags := [("White", "A")]
  tags_ne := by decide
  named := by decide
  distinct := by decide
  value_line := by decide
  elements := [
    .word ⟨.number ⟨['1'], 1, by decide, by decide, by decide⟩, by decide⟩, .blanks [' '] (by decide),
    .word ⟨.move none ⟨['e', '4'], by decide, by decide, by decide, by decide, by decide⟩, by decide⟩, .blanks [' '] (by decide),
    .comment comment closed, .blanks [' '] (by decide),
    .word ⟨.move none ⟨['e', '5'], by decide, by decide, by decide, by decide, by decide⟩, by decide⟩, .blanks [' '] (by decide)]
  result := .whiteWins
  spaced := by simp [Element.Spaced, Element.token?, Element.texts, Element.text, show isDelimiter ' ' = true by decide]

theorem readAll_written_annotated :
    readAll "[White \"A\"]\n\n1. e4 \x7bsee [1]\x7d e5 1-0\n".toUTF8.data.toList .finished =
        [.ok ⟨⟨[("White", "A")]⟩, ["e4", "e5"], .whiteWins⟩] ∧
      readAll "[White \"A\"]\n\n1. e4 \x7bsee\n[1]\x7d e5 1-0\n".toUTF8.data.toList .finished ≠
        [.ok ⟨⟨[("White", "A")]⟩, ["e4", "e5"], .whiteWins⟩] := by
  have hread : ∀ (comment : List Char) (closed : '\x7d' ∉ comment) (text : String),
      text.toList = (WrittenGame.annotated comment closed).text →
      (readAll text.toUTF8.data.toList .finished = [.ok ⟨⟨[("White", "A")]⟩, ["e4", "e5"], .whiteWins⟩] ↔
        (linesOf comment).tail.any isTagLine = false) := by
    intro comment closed text htext
    have hgame := readAll_written [WrittenGame.annotated comment closed]
    rw [List.flatMap_singleton, ← htext, String.ofList_toList] at hgame
    refine hgame.trans ?_
    simp [WrittenGame.annotated, Element.anyBreaks, Element.breaks]
  constructor
  · exact (hread ['s', 'e', 'e', ' ', '[', '1', ']'] (by decide) _ (by decide)).mpr (by decide)
  · exact fun h => absurd ((hread ['s', 'e', 'e', '\n', '[', '1', ']'] (by decide) _ (by decide)).mp h) (by decide)

end Pgn
end ChessArchive
