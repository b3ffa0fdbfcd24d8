import ChessArchive.Game.Decoded
import ChessArchive.Proofs.Reading

/-! The result of a game, as its text gives it and as it is kept. A text may have a result both in its movetext and in a
    tag. The reader takes that of the movetext first; what is kept is that of the tag. -/

namespace ChessArchive
open Text

/-! ### Tokens -/

namespace GameResult

theorem trimmed_token (r : GameResult) : trimmed r.token = r.token := by cases r <;> decide

theorem ofToken?_trimmed {s : String} {r : GameResult} (h : ofToken? s = some r) : ofToken? (trimmed s) = some r := by
  rw [← token_of_ofToken? h, trimmed_token, ofToken?_token]

theorem token_inj {r q : GameResult} : r.token = q.token ↔ r = q := by
  refine ⟨fun h => ?_, congrArg token⟩
  have hread := ofToken?_token r
  rw [h, ofToken?_token] at hread
  exact (Option.some.inj hread).symm

end GameResult

/-! ### Movetext -/

namespace Pgn

/-- The result in movetext: the first word of the main line that is a token. -/
def resultIn (movetext : List Char) : Option GameResult :=
  (words movetext).words.findSome? fun w => GameResult.ofToken? (String.ofList w)

theorem readMoves_result (ws : List (List Char)) :
    (readMoves ws).2 = ws.findSome? fun w => GameResult.ofToken? (String.ofList w) := by
  induction ws with
  | nil => rfl
  | cons w ws ih =>
    rw [readMoves, List.findSome?_cons]
    cases GameResult.ofToken? (String.ofList w) with
    | none => exact ih
    | some r => rfl

/-- The result of a game is that of its movetext, else that of the Result tag, as it stands. -/
theorem parse_result {text : List Char} {g : PgnGame} (h : parse text = .ok g) : ∃ lines,
    readHeader .empty (text.splitOn '\n') = .ok (g.tags, lines) ∧
      g.result = (resultIn (['\n'].intercalate lines)).getD
        (((g.tags.get? "Result").bind GameResult.ofToken?).getD .ongoing) := by
  rw [parse_eq] at h
  obtain ⟨⟨tags, lines⟩, hheader, h⟩ := bind_ok_iff.mp h
  dsimp only at h
  split at h
  · cases h
  · obtain ⟨⟨moves, result?⟩, hmovetext, h⟩ := bind_ok_iff.mp h
    have hresult : result? = resultIn (['\n'].intercalate lines) := by
      rw [resultIn, ← readMoves_result]
      rw [readMovetext] at hmovetext
      split at hmovetext
      · rename_i hread
        rw [hread]
        cases hmovetext
        rfl
      · rename_i hread
        rw [hread]
        split at hmovetext <;> cases hmovetext
        rfl
    obtain rfl := pure_ok_iff.mp h
    exact ⟨lines, hheader, by rw [hresult]⟩

end Pgn

/-! ### Tags -/

theorem Tags.get?_insertNew (t : Tags) (name value : String) :
    (t.insertNew name value).get? name = some ((t.get? name).getD value) := by
  cases h : t.get? name with
  | some v => simp [insertNew, h]
  | none =>
    have habsent : t.entries.lookup name = none := h
    simp [insertNew, insert, get?, List.lookup_append, habsent]

/-- What is kept is the result of the Result tag, blanks around it apart, and that of the game only if there is no such
    tag. -/
theorem Metadata.resultOf_ofPgn (g : PgnGame) : resultOf (RawGame.ofPgn g).tags =
    ((g.tags.get? "Result").map fun v => (GameResult.ofToken? (trimmed v)).getD .ongoing).getD g.result := by
  rw [resultOf, RawGame.ofPgn, Tags.get?_insertNew]
  cases g.tags.get? "Result" with
  | some v => rfl
  | none =>
    simp only [Option.getD_none, Option.bind_some, Option.map_none, GameResult.trimmed_token,
      GameResult.ofToken?_token, Option.getD_some]

theorem DecodedGame.ofRaw_metadata {keys : FingerprintKeys} {raw : RawGame} {d : DecodedGame}
    (h : ofRaw keys raw = .ok d) : d.metadata = .ofTags raw.tags := by
  obtain ⟨plies, -, h⟩ := bind_ok_iff.mp h
  obtain ⟨positions, -, h⟩ := bind_ok_iff.mp h
  rw [← pure_ok_iff.mp h]

/-! ### Both -/

namespace PgnGame

/-- The result that is kept of a game. -/
def keptResult (g : PgnGame) : String := (Metadata.ofTags (RawGame.ofPgn g).tags).result

/-- The value of a Result tag disagrees with what was found in movetext: it is not for the result there, or there is
    none and it is for one that only blanks keep from being read as it stands. -/
def TagDisagrees (value : String) : Option GameResult → Prop
  | some r => (GameResult.ofToken? (trimmed value)).getD .ongoing ≠ r
  | none => GameResult.ofToken? value = none ∧ ∃ r, GameResult.ofToken? (trimmed value) = some r ∧ r ≠ .ongoing

theorem keptResult_ne_iff {g : PgnGame} {found : Option GameResult}
    (h : g.result = found.getD (((g.tags.get? "Result").bind GameResult.ofToken?).getD .ongoing)) :
    g.keptResult ≠ g.result.token ↔ ∃ v, g.tags.get? "Result" = some v ∧ TagDisagrees v found := by
  have hkept : g.keptResult ≠ g.result.token ↔ Metadata.resultOf (RawGame.ofPgn g).tags ≠ g.result :=
    GameResult.token_inj.not
  rw [hkept, Metadata.resultOf_ofPgn]
  cases htag : g.tags.get? "Result" with
  | none => simp
  | some v =>
    rw [htag] at h
    simp only [Option.map_some, Option.getD_some, Option.some.injEq, exists_eq_left']
    cases found with
    | some r => rw [h, Option.getD_some, TagDisagrees]
    | none =>
      -- Read as it stands, the tag gives the same result or none at all.
      rw [h, Option.getD_none, Option.bind_some, TagDisagrees]
      cases hplain : GameResult.ofToken? v with
      | some r => simp [GameResult.ofToken?_trimmed hplain]
      | none => cases GameResult.ofToken? (trimmed v) <;> simp

/-- The reader gives a game the first result in the main line of its movetext, else that of its Result tag, read as it
    stands, else that of a game still going on. What is kept of the game is the result of its Result tag, read without
    blanks around it, and only without such a tag the result that the reader gave. So another result is kept exactly if
    the tag disagrees with the movetext. -/
theorem keptResult_of_parse {text : List Char} {g : PgnGame} (h : Pgn.parse text = .ok g) :
    ∃ lines, Pgn.readHeader .empty (text.splitOn '\n') = .ok (g.tags, lines) ∧
      g.result = (Pgn.resultIn (['\n'].intercalate lines)).getD
        (((g.tags.get? "Result").bind GameResult.ofToken?).getD .ongoing) ∧
      (g.tags.get? "Result" = none → g.keptResult = g.result.token) ∧
      (∀ v, g.tags.get? "Result" = some v →
        g.keptResult = ((GameResult.ofToken? (trimmed v)).getD .ongoing).token) ∧
      (g.keptResult ≠ g.result.token ↔ ∃ v, g.tags.get? "Result" = some v ∧
        TagDisagrees v (Pgn.resultIn (['\n'].intercalate lines))) ∧
      ∀ {keys : FingerprintKeys} {d : DecodedGame}, DecodedGame.ofRaw keys (.ofPgn g) = .ok d →
        d.metadata.result = g.keptResult := by
  obtain ⟨lines, hheader, hresult⟩ := Pgn.parse_result h
  have hkept : g.keptResult = (Metadata.resultOf (RawGame.ofPgn g).tags).token := rfl
  rw [Metadata.resultOf_ofPgn] at hkept
  refine ⟨lines, hheader, hresult, fun hnone => ?_, fun v hv => ?_, keptResult_ne_iff hresult, fun hd => ?_⟩
  · rw [hkept, hnone, Option.map_none, Option.getD_none]
  · rw [hkept, hv, Option.map_some, Option.getD_some]
  · rw [DecodedGame.ofRaw_metadata hd, keptResult]

/-- A tag that the movetext contradicts is what is kept. -/
theorem keptResult_contradicted : ∃ g, Pgn.parse "[Result \"0-1\"]\n\n1. e4 1-0\n".toList = .ok g ∧
    g.result.token = "1-0" ∧ g.keptResult ≠ g.result.token :=
  exists_ok_of_all (by decide +kernel)

/-- A result with blanks around it is none to the reader. -/
theorem keptResult_of_parse_blanks : ∃ g, Pgn.parse "[Result \" 1/2-1/2\"]\n\n1. e4\n".toList = .ok g ∧
    g.result = .ongoing ∧ g.keptResult = "1/2-1/2" ∧ g.keptResult ≠ g.result.token := by
  obtain ⟨g, hg, hresult, htag⟩ : ∃ g, Pgn.parse "[Result \" 1/2-1/2\"]\n\n1. e4\n".toList = .ok g ∧
      g.result = .ongoing ∧ g.tags.get? "Result" = some " 1/2-1/2" := exists_ok_of_all (by decide +kernel)
  obtain ⟨lines, -, -, -, hkept, -⟩ := keptResult_of_parse hg
  have hdraw : g.keptResult = "1/2-1/2" := (hkept _ htag).trans (by decide +kernel)
  exact ⟨g, hg, hresult, hdraw, by rw [hdraw, hresult]; decide⟩

end PgnGame
end ChessArchive
