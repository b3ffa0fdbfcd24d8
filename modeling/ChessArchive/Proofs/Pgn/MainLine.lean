import ChessArchive.Pgn.Game
import ChessArchive.Proofs.Pgn.Movetext

/-! The main line of movetext. Comments of both kinds, glyphs, move numbers and variations to any depth may stand among
    its moves, and a result may end it; the reader gives the moves of the main line, and the result. -/

namespace ChessArchive
namespace Pgn
open Text

namespace MainLine

/-! ### Items -/

/-- What movetext is made of. A remark goes up to the end of its line. -/
inductive Item where
  | blanks (s : List Char) (blank : allBlank s = true)
  | token (t : Token)
  | comment (s : List Char) (closed : '\x7d' ∉ s)
  | remark (s : List Char) (ended : '\n' ∉ s)
  | variation (items : List Item)
  | result (r : GameResult)

namespace Item

mutual
def text : Item → List Char
  | blanks s _ => s
  | token t => t.text
  | comment s _ => '\x7b' :: (s ++ ['\x7d'])
  | remark s _ => ';' :: (s ++ ['\n'])
  | variation items => '(' :: (texts items ++ [')'])
  | result r => r.token.toList

def texts : List Item → List Char
  | [] => []
  | i :: items => i.text ++ texts items
end

def token? : Item → Option Token
  | token t => some t
  | blanks _ _ | comment _ _ | remark _ _ | variation _ | result _ => none

/-- A blank or the sign of another item follows each token, unless it is the last of all; `s` is what comes after the
    last item. -/
def Spaced : List Item → (s : List Char) → Prop
  | [], _ => True
  | i :: items, s =>
    (i.token?.isSome → ∀ c ∈ (texts items ++ s).head?, isDelimiter c = true) ∧ Spaced items s

end Item

/-- How movetext ends: with its last item, or with a result and then nothing, or a blank and any text. -/
inductive Close where
  | last
  | result (r : GameResult) (rest : List Char) (apart : ∀ c ∈ rest.head?, isBlank c = true)

namespace Close

def text : Close → List Char
  | last => []
  | result r rest _ => r.token.toList ++ rest

def result? : Close → Option GameResult
  | last => none
  | result r _ _ => some r

end Close

/-- Movetext as it is written. Inside a variation a result may stand anywhere; on the main line it ends the movetext. -/
structure Written where
  items : List Item
  close : Close
  unfinished : ∀ r, Item.result r ∉ items
  spaced : Item.Spaced items close.text

namespace Written

def text (w : Written) : List Char := Item.texts w.items ++ w.close.text

/-- The moves of the main line, without their numbers. -/
def moves (w : Written) : List String := w.items.filterMap fun i => i.token?.bind Token.move?

end Written

/-! ### Cutting into words -/

open Element (cut_blanks cut_brace cut_plain_deep cut_word readMoves_foldr)

theorem cut_remark {s : List Char} (hs : '\n' ∉ s) (depth : Nat) (t : List Char) :
    cut .remark depth [] (s ++ '\n' :: t) = cut .line depth [] t := by
  induction s with
  | nil => rfl
  | cons c s ih =>
    rw [List.mem_cons, not_or] at hs
    rw [List.cons_append, cut, if_neg (Ne.symm hs.1), ih hs.2]

namespace Item

mutual
/-- No item but a token or a result leaves a word, and in a variation none does. The reader is as deep after an item as
    before it. -/
theorem cut_skip : ∀ (i : Item) (depth : Nat), (i.token? = none ∧ ∀ r, i ≠ result r) ∨ 0 < depth → ∀ s,
    cut .line depth [] (i.text ++ s) = cut .line depth [] s
  | blanks _ hb, depth, _, s => cut_blanks hb depth s
  | token t, depth + 1, _, s => cut_plain_deep t.plain depth s
  | result r, depth + 1, _, s => cut_plain_deep (plain_token r) depth s
  | token _, 0, h, _ => by simp [token?] at h
  | result r, 0, h, _ => by simp at h
  | comment c hc, depth, _, s => by
    rw [text, List.cons_append, List.append_assoc]
    exact cut_brace hc depth ('\x7d' :: s)
  | remark c hc, depth, _, s => by
    rw [text, List.cons_append, List.append_assoc]
    exact cut_remark hc depth s
  | variation items, depth, _, s => by
    rw [text, List.cons_append, List.append_assoc]
    exact (cut_skips items depth (')' :: s)).trans rfl

theorem cut_skips : ∀ (items : List Item) (depth : Nat) (s : List Char),
    cut .line (depth + 1) [] (texts items ++ s) = cut .line (depth + 1) [] s
  | [], _, _ => rfl
  | i :: items, depth, s => by
    rw [texts, List.append_assoc, cut_skip i (depth + 1) (Or.inr (Nat.succ_pos depth)), cut_skips items]
end

/-- The words of the main line are its tokens. -/
theorem cut_texts {items : List Item} {s : List Char} (hresult : ∀ r, result r ∉ items) (h : Spaced items s) :
    cut .line 0 [] (texts items ++ s) =
      ((items.filterMap token?).map Token.text).foldr Words.push (cut .line 0 [] s) := by
  induction items with
  | nil => rfl
  | cons i items ih =>
    have hmore := ih (fun r hr => hresult r (List.mem_cons_of_mem i hr)) h.2
    have hother : ∀ r, i ≠ result r := fun r hr => hresult r (hr ▸ List.mem_cons_self)
    rw [texts, List.append_assoc]
    cases htoken : i.token? with
    | none => rw [cut_skip i 0 (Or.inl ⟨htoken, hother⟩), hmore, List.filterMap_cons_none htoken]
    | some t =>
      obtain rfl : i = token t := by
        cases i with
        | token u => exact congrArg token (Option.some.inj htoken)
        | blanks _ _ | comment _ _ | remark _ _ | variation _ | result _ => cases htoken
      rw [text, cut_word t.plain (h.1 rfl), hmore, List.filterMap_cons_some htoken]
      rfl

end Item

/-! ### Reading moves -/

/-- A result ends the moves, whatever text comes after it. -/
theorem readMoves_close (c : Close) :
    readMoves (words c.text).words = ([], c.result?) ∧ (c.result? = none → (words c.text).closed = true) := by
  cases c with
  | last => exact ⟨rfl, fun _ => rfl⟩
  | result r rest apart =>
    have hended : ∀ c ∈ rest.head?, isDelimiter c = true := fun c hc => by simp [isDelimiter, apart c hc]
    exact ⟨readMoves_token r hended, fun h => absurd h (Option.some_ne_none r)⟩

/-- The reader gives the moves of the main line in their order, without their numbers, and the result that ends it:
    whatever the comments, the glyphs and the variations hold, and whatever text comes after the result. -/
theorem readMovetext_written (w : Written) : readMovetext w.text = .ok (w.moves, w.close.result?) := by
  have hwords : words w.text = ((w.items.filterMap Item.token?).map Token.text).foldr Words.push (words w.close.text) :=
    Item.cut_texts w.unfinished w.spaced
  obtain ⟨hclose, hclosed⟩ := readMoves_close w.close
  obtain ⟨hread, hend⟩ := readMoves_foldr (w.items.filterMap Item.token?) (words w.close.text)
  rw [hclose, List.filterMap_filterMap, List.append_nil, ← hwords] at hread
  rw [← hwords] at hend
  rw [readMovetext, hread, hend]
  cases hresult : w.close.result? with
  | none => exact if_pos (hclosed hresult)
  | some r => rfl

/-- A comment with an opening parenthesis, and a variation with a remark and another variation's result in it. -/
theorem readMovetext_written_nested :
    readMovetext "1.e4 \x7b(1-0\x7d (d4;)\n(1-0)) e5 1/2-1/2 \x7b".toList = .ok (["e4", "e5"], some .draw) :=
  let number : MoveNumber := ⟨['1'], 1, by decide, by decide, by decide⟩
  let move (first second : Char) (plain : [first, second].any isDelimiter = false)
      (opening : first ≠ '$' ∧ first ≠ '.') (undotted : ([first, second].dropWhile Char.isDigit).head? ≠ some '.')
      (unending : GameResult.ofToken? (String.ofList [first, second]) = none) : MoveWord :=
    ⟨[first, second], by simp, plain, by simpa using opening, undotted, unending⟩
  readMovetext_written
    { items := [.token (.move (some number) (move 'e' '4' (by decide) (by decide) (by decide) (by decide))),
        .blanks [' '] (by decide), .comment ['(', '1', '-', '0'] (by decide), .blanks [' '] (by decide),
        .variation [.token (.move none (move 'd' '4' (by decide) (by decide) (by decide) (by decide))),
          .remark [')'] (by decide), .variation [.result .whiteWins]],
        .blanks [' '] (by decide), .token (.move none (move 'e' '5' (by decide) (by decide) (by decide) (by decide))),
        .blanks [' '] (by decide)]
      close := .result .draw [' ', '\x7b'] (by simp [isBlank])
      unfinished := by simp
      spaced := by simp [Item.Spaced, Item.token?, Item.texts, Item.text, Close.text, isDelimiter, isBlank] }

end MainLine
end Pgn
end ChessArchive
