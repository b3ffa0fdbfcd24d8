import ChessArchive.Pgn.Movetext
import ChessArchive.Proofs.Pgn.Lines
import ChessArchive.Proofs.Pgn.Tags

/-! Movetext as it is written: words, blanks, comments in braces, and variations of all these. The reader finds the
    moves of the main line in it, whatever the comments and variations hold. Cutting a file into games looks at lines
    alone, and so takes a line of a comment that opens with a bracket for a tag line. -/

namespace ChessArchive
namespace Pgn
open Text

/-! ### Words -/

/-- A character that ends a word. -/
def isDelimiter (c : Char) : Bool := c = '\x7b' || c = ';' || c = '(' || c = ')' || isBlank c

/-- The number of a move, with its dots. -/
structure MoveNumber where
  digits : List Char
  dots : Nat
  digits_ne : digits ≠ []
  digit : digits.all Char.isDigit = true
  dotted : 0 < dots

/-- A move in the game's own notation, as far as it matters here: nothing in it ends a word, and it cannot be taken for
    a number, a glyph or a result. -/
structure MoveWord where
  text : List Char
  text_ne : text ≠ []
  plain : text.any isDelimiter = false
  opening : text.head? ≠ some '$' ∧ text.head? ≠ some '.'
  undotted : (text.dropWhile Char.isDigit).head? ≠ some '.'
  not_result : GameResult.ofToken? (String.ofList text) = none

/-- What is written between delimiters: a move number alone, a move with or without its number right before it, or a
    glyph. -/
inductive Token where
  | number (n : MoveNumber)
  | move (n : Option MoveNumber) (m : MoveWord)
  | glyph (digits : List Char) (digit : digits.all Char.isDigit = true)

def MoveNumber.text (n : MoveNumber) : List Char := n.digits ++ List.replicate n.dots '.'

namespace Token

def text : Token → List Char
  | number n => n.text
  | move none m => m.text
  | move (some n) m => n.text ++ m.text
  | glyph digits _ => '$' :: digits

def move? : Token → Option String
  | number _ | glyph _ _ => none
  | move _ m => some (String.ofList m.text)

end Token

/-- A token that no line can be taken for a tag line for, wherever it stands. -/
structure Word where
  token : Token
  unbracketed : token.text.head? ≠ some '['

theorem isDelimiter_of_isDigit {c : Char} (h : c.isDigit = true) : isDelimiter c = false := by
  have hblank : isBlank c = false := isBlank_of_isNameChar (by simp [isNameChar, Char.isAlphanum, h])
  simp only [isDelimiter, hblank, Bool.or_false, Bool.or_eq_false_iff, decide_eq_false_iff_not]
  refine ⟨⟨⟨?_, ?_⟩, ?_⟩, ?_⟩ <;> rintro rfl <;> exact absurd h (by decide)

theorem not_blank_of_plain {c : Char} (h : isDelimiter c = false) : isBlank c = false ∧ c ≠ '\n' := by
  refine ⟨(Bool.or_eq_false_iff.mp h).2, ?_⟩
  rintro rfl
  exact absurd h (by decide)

theorem ofToken?_eq_none {s : List Char} (h : ∀ r : GameResult, s ≠ r.token.toList) :
    GameResult.ofToken? (String.ofList s) = none := by
  rw [Option.eq_none_iff_forall_ne_some]
  intro r hr
  exact h r (by rw [GameResult.token_of_ofToken? hr, String.toList_ofList])

/-- A character that no result has keeps a word from being taken for one. -/
theorem ofToken?_of_mem {c : Char} {s : List Char} (hc : ∀ r : GameResult, c ∉ r.token.toList) (h : c ∈ s) :
    GameResult.ofToken? (String.ofList s) = none :=
  ofToken?_eq_none fun r hr => hc r (hr ▸ h)

theorem dot_not_mem_token (r : GameResult) : '.' ∉ r.token.toList := by
  cases r <;> decide

theorem dollar_not_mem_token (r : GameResult) : '$' ∉ r.token.toList := by
  cases r <;> decide

theorem dropNumber_of_undotted {s : List Char} (h : (s.dropWhile Char.isDigit).head? ≠ some '.') :
    dropNumber s = s := by
  rw [dropNumber, if_neg]
  simp [h]

theorem moveOf?_of_dropNumber {word s : List Char} (h : dropNumber word = s) (hne : s ≠ [])
    (hdollar : s.head? ≠ some '$') : moveOf? word = some (String.ofList s) := by
  obtain ⟨c, t, rfl⟩ := List.exists_cons_of_ne_nil hne
  rw [moveOf?, h]
  exact if_neg (by simpa using hdollar)

namespace MoveNumber

theorem plain (n : MoveNumber) : ∀ c ∈ n.text, isDelimiter c = false := by
  intro c hc
  rcases List.mem_append.mp hc with hc | hc
  · exact isDelimiter_of_isDigit (List.all_eq_true.mp n.digit c hc)
  · obtain rfl := List.eq_of_mem_replicate hc
    decide

theorem text_eq_cons (n : MoveNumber) : ∃ d s, n.text = d :: s ∧ d.isDigit = true := by
  obtain ⟨d, ds, hdigits⟩ := List.exists_cons_of_ne_nil n.digits_ne
  exact ⟨d, _, by rw [text, hdigits, List.cons_append], List.all_eq_true.mp n.digit d (hdigits ▸ List.mem_cons_self)⟩

theorem dot_mem_text (n : MoveNumber) : '.' ∈ n.text :=
  List.mem_append_right _ (List.mem_replicate.mpr ⟨Nat.ne_of_gt n.dotted, rfl⟩)

theorem dropNumber_append (n : MoveNumber) {s : List Char} (hs : s.head? ≠ some '.') :
    dropNumber (n.text ++ s) = s := by
  obtain ⟨k, hdots⟩ : ∃ k, n.dots = k + 1 := ⟨n.dots - 1, (Nat.sub_add_cancel n.dotted).symm⟩
  have hdigits : (n.text ++ s).dropWhile Char.isDigit = List.replicate n.dots '.' ++ s := by
    rw [text, List.append_assoc, List.dropWhile_append_of_pos (List.all_eq_true.mp n.digit), hdots]
    rfl
  have hdrop : (List.replicate n.dots '.' ++ s).dropWhile (· == '.') = s := by
    rw [List.dropWhile_append_of_pos (by simp)]
    cases s with
    | nil => rfl
    | cons c s => exact List.dropWhile_cons_of_neg (by simpa using hs)
  obtain ⟨d, t, htext, hd⟩ := n.text_eq_cons
  rw [dropNumber, hdigits, hdrop, if_pos]
  simp [htext, hd, hdots, List.replicate_succ]

theorem moveOf?_text (n : MoveNumber) : moveOf? n.text = none := by
  have hdrop := n.dropNumber_append (s := []) (by simp)
  rw [List.append_nil] at hdrop
  rw [moveOf?, hdrop]

end MoveNumber

namespace Token

theorem plain (t : Token) : ∀ c ∈ t.text, isDelimiter c = false := by
  have hmove : ∀ m : MoveWord, ∀ c ∈ m.text, isDelimiter c = false := fun m => by simpa using m.plain
  match t with
  | number n => exact n.plain
  | move none m => exact hmove m
  | move (some n) m => exact List.forall_mem_append.mpr ⟨n.plain, hmove m⟩
  | glyph digits digit =>
    exact List.forall_mem_cons.mpr ⟨by decide, fun c hc => isDelimiter_of_isDigit (List.all_eq_true.mp digit c hc)⟩

theorem text_ne (t : Token) : t.text ≠ [] := by
  match t with
  | number n => exact List.ne_nil_of_mem n.dot_mem_text
  | move none m => exact m.text_ne
  | move (some n) m => exact List.ne_nil_of_mem (List.mem_append_left _ n.dot_mem_text)
  | glyph digits _ => exact List.cons_ne_nil '$' digits

theorem ofToken?_text (t : Token) : GameResult.ofToken? (String.ofList t.text) = none := by
  match t with
  | number n => exact ofToken?_of_mem dot_not_mem_token n.dot_mem_text
  | move none m => exact m.not_result
  | move (some n) m => exact ofToken?_of_mem dot_not_mem_token (List.mem_append_left _ n.dot_mem_text)
  | glyph digits _ => exact ofToken?_of_mem dollar_not_mem_token List.mem_cons_self

theorem moveOf?_text (t : Token) : moveOf? t.text = t.move? := by
  match t with
  | number n => exact n.moveOf?_text
  | move none m => exact moveOf?_of_dropNumber (dropNumber_of_undotted m.undotted) m.text_ne m.opening.1
  | move (some n) m => exact moveOf?_of_dropNumber (n.dropNumber_append m.opening.2) m.text_ne m.opening.1
  | glyph digits _ => rfl

end Token

theorem Word.text_eq_cons (w : Word) : ∃ c s, w.token.text = c :: s ∧ c ≠ '[' := by
  obtain ⟨c, s, htext⟩ := List.exists_cons_of_ne_nil w.token.text_ne
  have hopen := w.unbracketed
  rw [htext] at hopen
  exact ⟨c, s, htext, by simpa using hopen⟩

/-! ### Elements -/

/-- What movetext is made of. -/
inductive Element where
  | blanks (s : List Char) (blank : allBlank s = true)
  | word (w : Word)
  | comment (s : List Char) (closed : '\x7d' ∉ s)
  | variation (elements : List Element)

namespace Element

mutual
def text : Element → List Char
  | blanks s _ => s
  | word w => w.token.text
  | comment s _ => '\x7b' :: (s ++ ['\x7d'])
  | variation elements => '(' :: (texts elements ++ [')'])

def texts : List Element → List Char
  | [] => []
  | e :: es => e.text ++ texts es
end

def token? : Element → Option Token
  | word w => some w.token
  | blanks _ _ | comment _ _ | variation _ => none

/-- A delimiter follows each word; `s` is what comes after the last element. -/
def Spaced : List Element → (s : List Char) → Prop
  | [], _ => True
  | e :: es, s => (e.token?.isSome → ∃ c t, texts es ++ s = c :: t ∧ isDelimiter c = true) ∧ Spaced es s

/-! ### Cutting into words -/

theorem cut_blank {c : Char} (hc : isBlank c = true) (depth : Nat) (word s : List Char) :
    cut .line depth word (c :: s) = Words.push word.reverse (cut .line depth [] s) := by
  have hsign : ∀ d : Char, isBlank d = false → c ≠ d := by
    rintro d hd rfl
    exact absurd hc (by rw [hd]; exact Bool.false_ne_true)
  rw [cut, if_neg (hsign _ (by decide)), if_neg (hsign _ (by decide)), if_neg (hsign _ (by decide)),
    if_neg (hsign _ (by decide)), if_pos hc]

theorem cut_delimiter {c : Char} (hc : isDelimiter c = true) (depth : Nat) (word s : List Char) :
    cut .line depth word (c :: s) = Words.push word.reverse (cut .line depth [] (c :: s)) := by
  simp only [isDelimiter, Bool.or_eq_true, decide_eq_true_eq] at hc
  rcases hc with (((rfl | rfl) | rfl) | rfl) | hblank
  · rfl
  · rfl
  · rfl
  · rfl
  · rw [cut_blank hblank, cut_blank hblank]
    rfl

/-- Only the main line collects the characters of its words. -/
theorem cut_character {c : Char} (hc : isDelimiter c = false) (depth : Nat) (word s : List Char) :
    cut .line depth word (c :: s) =
      if depth = 0 then cut .line depth (c :: word) s else cut .line depth word s := by
  simp only [isDelimiter, Bool.or_eq_false_iff, decide_eq_false_iff_not] at hc
  simp only [cut, hc, if_false, Bool.false_eq_true]

theorem cut_plain {w : List Char} (hw : ∀ c ∈ w, isDelimiter c = false) (word s : List Char) :
    cut .line 0 word (w ++ s) = cut .line 0 (w.reverse ++ word) s := by
  induction w generalizing word with
  | nil => rfl
  | cons c w ih =>
    rw [List.forall_mem_cons] at hw
    rw [List.cons_append, cut_character hw.1, if_pos rfl, ih hw.2, List.reverse_cons, List.append_assoc]
    rfl

theorem cut_ended {s : List Char} (h : ∀ c ∈ s.head?, isDelimiter c = true) (depth : Nat) (word : List Char) :
    cut .line depth word s = Words.push word.reverse (cut .line depth [] s) := by
  cases s with
  | nil => rfl
  | cons c s => exact cut_delimiter (h c rfl) depth word s

/-- What follows a word ends it, so that nothing else is collected with it. -/
theorem cut_word {w s : List Char} (hw : ∀ c ∈ w, isDelimiter c = false) (hs : ∀ c ∈ s.head?, isDelimiter c = true) :
    cut .line 0 [] (w ++ s) = Words.push w (cut .line 0 [] s) := by
  rw [cut_plain hw, List.append_nil, cut_ended hs, List.reverse_reverse]

theorem cut_plain_deep {w : List Char} (hw : ∀ c ∈ w, isDelimiter c = false) (depth : Nat) (s : List Char) :
    cut .line (depth + 1) [] (w ++ s) = cut .line (depth + 1) [] s := by
  induction w with
  | nil => rfl
  | cons c w ih =>
    rw [List.forall_mem_cons] at hw
    rw [List.cons_append, cut_character hw.1, if_neg (Nat.succ_ne_zero depth), ih hw.2]

theorem cut_blanks {b : List Char} (hb : allBlank b = true) (depth : Nat) (s : List Char) :
    cut .line depth [] (b ++ s) = cut .line depth [] s := by
  induction b with
  | nil => rfl
  | cons c b ih =>
    rw [allBlank, List.all_cons, Bool.and_eq_true] at hb
    rw [List.cons_append, cut_blank hb.1, ih hb.2]
    rfl

theorem cut_brace {s : List Char} (hs : '\x7d' ∉ s) (depth : Nat) (t : List Char) :
    cut .brace depth [] (s ++ t) = cut .brace depth [] t := by
  induction s with
  | nil => rfl
  | cons c s ih =>
    rw [List.mem_cons, not_or] at hs
    rw [List.cons_append, cut, if_neg (Ne.symm hs.1), ih hs.2]

mutual
/-- Nothing in a variation is cut into words, nor is anything but a word outside. -/
theorem cut_skip : ∀ (e : Element) (depth : Nat), e.token? = none ∨ 0 < depth → ∀ s,
    cut .line depth [] (e.text ++ s) = cut .line depth [] s
  | blanks b hb, depth, _, s => cut_blanks hb depth s
  | word w, 0, h, s => by simp [token?] at h
  | word w, depth + 1, _, s => cut_plain_deep w.token.plain depth s
  | comment c hc, depth, _, s => by
    rw [text, List.cons_append, List.append_assoc]
    exact cut_brace hc depth ('\x7d' :: s)
  | variation es, depth, _, s => by
    rw [text, List.cons_append, List.append_assoc]
    exact (cut_skips es depth ([')'] ++ s)).trans rfl

theorem cut_skips : ∀ (es : List Element) (depth : Nat) (s : List Char),
    cut .line (depth + 1) [] (texts es ++ s) = cut .line (depth + 1) [] s
  | [], _, _ => rfl
  | e :: es, depth, s => by
    rw [texts, List.append_assoc, cut_skip e (depth + 1) (Or.inr (Nat.succ_pos depth)), cut_skips es]
end

/-- The words of the main line are those that are written there. -/
theorem cut_texts {es : List Element} {s : List Char} (h : Spaced es s) : cut .line 0 [] (texts es ++ s) =
    ((es.filterMap token?).map Token.text).foldr Words.push (cut .line 0 [] s) := by
  induction es with
  | nil => rfl
  | cons e es ih =>
    rw [texts, List.append_assoc]
    cases e with
    | word w =>
      obtain ⟨c, t, hnext, hc⟩ := h.1 rfl
      have hended : ∀ d ∈ (texts es ++ s).head?, isDelimiter d = true := by
        rw [hnext]
        exact fun d hd => Option.some.inj hd ▸ hc
      rw [text, cut_word w.token.plain hended, ih h.2]
      rfl
    | blanks _ _ | comment _ _ | variation _ =>
      rw [cut_skip _ 0 (Or.inl rfl), ih h.2]
      rfl

/-! ### Reading moves -/

def moves (es : List Element) : List String := es.filterMap fun e => e.token?.bind Token.move?

theorem readMoves_push {word : List Char} (hne : word ≠ []) (hresult : GameResult.ofToken? (String.ofList word) = none)
    (w : Words) : let r := readMoves w.words
    readMoves (Words.push word w).words = ((moveOf? word).toList ++ r.1, r.2) := by
  rw [Words.push, if_neg hne, readMoves, hresult]

theorem closed_push (word : List Char) (w : Words) : (Words.push word w).closed = w.closed := by
  rw [Words.push]
  split <;> rfl

/-- Tokens are read one after the other, each as the move that it has. -/
theorem readMoves_foldr (ts : List Token) (w : Words) : let r := readMoves w.words
    readMoves ((ts.map Token.text).foldr Words.push w).words = (ts.filterMap Token.move? ++ r.1, r.2) ∧
      ((ts.map Token.text).foldr Words.push w).closed = w.closed := by
  induction ts with
  | nil => exact ⟨rfl, rfl⟩
  | cons t ts ih =>
    rw [List.map_cons, List.foldr_cons, readMoves_push t.text_ne t.ofToken?_text, t.moveOf?_text, closed_push, ih.1,
      List.filterMap_cons]
    refine ⟨?_, ih.2⟩
    cases t.move? <;> rfl

/-- What the reader finds in movetext is what is written there, and then what it finds in the rest. -/
theorem read_texts {es : List Element} {s : List Char} (h : Spaced es s) :
    let r := readMoves (words s).words
    readMoves (words (texts es ++ s)).words = (moves es ++ r.1, r.2) ∧
      (words (texts es ++ s)).closed = (words s).closed := by
  have hmoves : (es.filterMap token?).filterMap Token.move? = moves es := List.filterMap_filterMap
  rw [words, words, cut_texts h, ← hmoves]
  exact readMoves_foldr _ _

/-! ### Lines that open with a bracket -/

mutual
/-- A line of a comment, other than the one that the comment begins in, opens with a bracket. -/
def breaks : Element → Bool
  | blanks _ _ | word _ => false
  | comment s _ => (linesOf s).tail.any isTagLine
  | variation es => anyBreaks es

def anyBreaks : List Element → Bool
  | [] => false
  | e :: es => e.breaks || anyBreaks es
end

theorem opensLine_plain {w : List Char} (hw : ∀ c ∈ w, isDelimiter c = false) : opensLine false w = false := by
  induction w with
  | nil => rfl
  | cons c w ih =>
    rw [List.forall_mem_cons] at hw
    obtain ⟨hblank, hfeed⟩ := not_blank_of_plain hw.1
    rw [opensLine, if_neg hfeed, hblank, if_neg Bool.false_ne_true, ih hw.2]
    rfl

theorem opensLine_sign {c : Char} (hc : c ≠ '\n') (hblank : isBlank c = false) (hbracket : c ≠ '[') (fresh : Bool)
    (s : List Char) : opensLine fresh (c :: s) = opensLine false s := by
  rw [opensLine, if_neg hc, hblank, if_neg Bool.false_ne_true, decide_eq_false hbracket, Bool.and_false, Bool.false_or]

mutual
theorem opensLine_text : ∀ (e : Element) (fresh : Bool), opensLine fresh e.text = e.breaks
  | blanks _ hb, fresh => opensLine_blanks hb fresh
  | word w, fresh => by
    obtain ⟨c, s, htext, hbracket⟩ := w.text_eq_cons
    have hplain := w.token.plain
    rw [htext, List.forall_mem_cons] at hplain
    obtain ⟨hblank, hfeed⟩ := not_blank_of_plain hplain.1
    rw [text, htext, opensLine_sign hfeed hblank hbracket, opensLine_plain hplain.2, breaks]
  | comment s _, fresh => by
    rw [text, opensLine_sign (by decide) (by decide) (by decide), opensLine_append, (opensLine_lines s).2,
      opensLine_sign (by decide) (by decide) (by decide), breaks]
    exact Bool.or_false _
  | variation es, fresh => by
    rw [text, opensLine_sign (by decide) (by decide) (by decide), opensLine_append, opensLine_texts es,
      opensLine_sign (by decide) (by decide) (by decide), breaks]
    exact Bool.or_false _

theorem opensLine_texts : ∀ (es : List Element) (fresh : Bool), opensLine fresh (texts es) = anyBreaks es
  | [], _ => rfl
  | e :: es, fresh => by rw [texts, opensLine_append, opensLine_text e, opensLine_texts es, anyBreaks]
end

/-- A text torn at a line feed, before the first line that opens with a bracket. -/
structure Torn (t x y : List Char) : Prop where
  text_eq : t = x ++ '\n' :: y
  before : ∀ fresh, opensLine fresh x = false
  after : Opens y

theorem Torn.prepend {t x y p : List Char} (h : Torn t x y) (hp : ∀ fresh, opensLine fresh p = false) :
    Torn (p ++ t) (p ++ x) y where
  text_eq := by rw [h.text_eq, List.append_assoc]
  before fresh := by rw [opensLine_append, hp, h.before, Bool.or_false]
  after := h.after

theorem Torn.append {t x y : List Char} (h : Torn t x y) (s : List Char) : Torn (t ++ s) x (y ++ s) where
  text_eq := by rw [h.text_eq, List.append_assoc, List.cons_append]
  before := h.before
  after := h.after.append s

/-- What follows an element is a delimiter in the torn text if it is one in the whole. -/
theorem Spaced.torn {e : Element} {es : List Element} {s x y : List Char} (h : Spaced (e :: es) s)
    (htorn : Torn (texts es) x y) : Spaced [e] (x ++ ['\n']) := by
  refine ⟨fun hword => ?_, trivial⟩
  obtain ⟨c, t, htexts, hc⟩ := h.1 hword
  rw [htorn.text_eq] at htexts
  cases x with
  | nil => exact ⟨'\n', [], rfl, by decide⟩
  | cons d x =>
    obtain ⟨rfl, -⟩ := List.cons.inj htexts
    exact ⟨d, x ++ ['\n'], rfl, hc⟩

mutual
/-- Torn at such a line, an element leaves a brace open. -/
theorem torn_text : ∀ e : Element, e.breaks = true →
    ∃ x y, Torn e.text x y ∧ ∀ depth, cut .line depth [] (x ++ ['\n']) = ⟨[], false⟩
  | blanks _ _, h | word _, h => by cases h
  | comment s hs, h => by
    rw [breaks, ← (opensLine_lines s).2] at h
    rcases exists_opens h with ⟨hfresh, -⟩ | ⟨x, y, rfl, hx, hy⟩
    · cases hfresh
    · refine ⟨'\x7b' :: x, y ++ ['\x7d'], ⟨?_, ?_, hy.append _⟩, fun depth => ?_⟩
      · rw [text, List.append_assoc]
        rfl
      · intro fresh
        rw [opensLine_sign (by decide) (by decide) (by decide), hx]
      · have hopen : '\x7d' ∉ x := fun hmem => hs (List.mem_append_left _ hmem)
        exact (cut_brace hopen depth ['\n']).trans rfl
  | variation es, h => by
    obtain ⟨x, y, htorn, hcut⟩ := torn_texts es h
    have hsign : ∀ fresh, opensLine fresh ['('] = false := fun fresh =>
      opensLine_sign (by decide) (by decide) (by decide) fresh []
    exact ⟨'(' :: x, y ++ [')'], (htorn.append [')']).prepend hsign, hcut⟩

theorem torn_texts : ∀ es : List Element, anyBreaks es = true →
    ∃ x y, Torn (texts es) x y ∧ ∀ depth, cut .line (depth + 1) [] (x ++ ['\n']) = ⟨[], false⟩
  | [], h => by cases h
  | e :: es, h => by
    rw [anyBreaks, Bool.or_eq_true] at h
    cases he : e.breaks with
    | true =>
      obtain ⟨x, y, htorn, hcut⟩ := torn_text e he
      exact ⟨x, y ++ texts es, htorn.append _, fun depth => hcut (depth + 1)⟩
    | false =>
      obtain ⟨x, y, htorn, hcut⟩ := torn_texts es (h.resolve_left (by simp [he]))
      refine ⟨e.text ++ x, y, htorn.prepend fun fresh => (opensLine_text e fresh).trans he, fun depth => ?_⟩
      rw [List.append_assoc, cut_skip e _ (Or.inr (Nat.succ_pos depth))]
      exact hcut depth
end

/-- Torn at such a line, movetext has no result and leaves a brace open. -/
theorem torn_movetext {es : List Element} {s : List Char} (hspaced : Spaced es s) (h : anyBreaks es = true) :
    ∃ x y, Torn (texts es) x y ∧ (readMoves (words (x ++ ['\n'])).words).2 = none ∧
      (words (x ++ ['\n'])).closed = false := by
  induction es with
  | nil => cases h
  | cons e es ih =>
    rw [anyBreaks, Bool.or_eq_true] at h
    cases he : e.breaks with
    | true =>
      obtain ⟨x, y, htorn, hcut⟩ := torn_text e he
      refine ⟨x, y ++ texts es, htorn.append _, ?_⟩
      rw [words, hcut 0]
      exact ⟨rfl, rfl⟩
    | false =>
      obtain ⟨x, y, htorn, hresult, hclosed⟩ := ih hspaced.2 (h.resolve_left (by simp [he]))
      -- An element before the tear adds moves but no result.
      obtain ⟨hread, hend⟩ := read_texts (hspaced.torn htorn)
      rw [texts, texts, List.append_nil, ← List.append_assoc] at hread hend
      refine ⟨e.text ++ x, y, htorn.prepend fun fresh => (opensLine_text e fresh).trans he, ?_, hend.trans hclosed⟩
      rw [hread]
      exact hresult

end Element

/-! ### Results -/

theorem token_eq_cons (r : GameResult) : ∃ c s, r.token.toList = c :: s ∧ isDelimiter c = false ∧ c ≠ '[' := by
  cases r <;> exact ⟨_, _, rfl, by decide, by decide⟩

theorem plain_token (r : GameResult) : ∀ c ∈ r.token.toList, isDelimiter c = false := by
  have hany : r.token.toList.any isDelimiter = false := by
    cases r <;> decide
  simpa using hany

/-- Nothing is read after a result. -/
theorem readMoves_token (r : GameResult) {after : List Char} (hafter : ∀ c ∈ after.head?, isDelimiter c = true) :
    readMoves (words (r.token.toList ++ after)).words = ([], some r) := by
  have hne : r.token.toList ≠ [] := by
    obtain ⟨c, s, htoken, -⟩ := token_eq_cons r
    exact htoken ▸ List.cons_ne_nil c s
  rw [words, Element.cut_word (plain_token r) hafter, Words.push, if_neg hne, readMoves, String.ofList_toList,
    r.ofToken?_token]

end Pgn
end ChessArchive
