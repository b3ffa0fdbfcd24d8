/-! The LIKE operator with a backslash as escape. A percent sign stands for any text, an underscore for any one
    character, and an escaped character for itself; letters of ASCII are compared without case. Of the pattern and
    of the text only what comes before the first NUL counts, and the two noncharacters U+FFFE and U+FFFF cannot be
    told from the replacement character. -/

namespace ChessArchive
namespace Like

/-- One element of a LIKE pattern. -/
inductive Token where
  | anyText
  | anyChar
  | char (c : Char)
  deriving DecidableEq, Repr

/-- Reads a LIKE pattern. -/
def tokens : List Char → List Token
  | [] => []
  | '\\' :: c :: s => .char c :: tokens s
  | c :: s => (if c = '%' then .anyText else if c = '_' then .anyChar else .char c) :: tokens s

/-- The text itself and all that is left of it after dropping characters from the front. -/
def suffixes : List Char → List (List Char)
  | [] => [[]]
  | c :: s => (c :: s) :: suffixes s

/-- A text is what the elements describe. -/
def accepts : List Token → List Char → Bool
  | [], s => s.isEmpty
  | .anyText :: ts, s => (suffixes s).any (accepts ts)
  | .anyChar :: ts, s =>
    match s with
    | [] => false
    | _ :: r => accepts ts r
  | .char c :: ts, s =>
    match s with
    | [] => false
    | d :: r => c.toLower == d.toLower && accepts ts r

/-- A character as it is compared. -/
def compared (c : Char) : Char := if c = '\ufffe' ∨ c = '\uffff' then '\ufffd' else c

/-- The part of a text that counts. -/
def counted (s : List Char) : List Char := (s.takeWhile (· ≠ '\x00')).map compared

/-- `text LIKE pattern`. -/
def holds (pattern text : String) : Bool := accepts (tokens (counted pattern.toList)) (counted text.toList)

/-- The largest pattern that the operator takes, in bytes of UTF-8. -/
def maxPatternSize : Nat := 50000

/-- Escapes the characters that mean something in a pattern. -/
def escape (s : List Char) : List Char :=
  s.flatMap fun c => if c = '\\' ∨ c = '%' ∨ c = '_' then ['\\', c] else [c]

/-- The pattern of the texts that contain a term. -/
def containing (term : String) : String := String.ofList ('%' :: escape term.toList ++ ['%'])

theorem tokens_escape_append (s r : List Char) : tokens (escape s ++ r) = s.map .char ++ tokens r := by
  induction s with
  | nil => rfl
  | cons c s ih =>
    have hescape : escape (c :: s) = (if c = '\\' ∨ c = '%' ∨ c = '_' then ['\\', c] else [c]) ++ escape s := rfl
    rw [hescape]
    by_cases hspecial : c = '\\' ∨ c = '%' ∨ c = '_'
    · rw [if_pos hspecial]
      exact congrArg (Token.char c :: ·) ih
    · obtain ⟨hslash, hpercent, hunderscore⟩ : c ≠ '\\' ∧ c ≠ '%' ∧ c ≠ '_' := by simpa using hspecial
      have hread : tokens (c :: (escape s ++ r)) = .char c :: tokens (escape s ++ r) := by
        rw [tokens.eq_3 c _ fun _ _ h _ => hslash h, if_neg hpercent, if_neg hunderscore]
      rw [if_neg hspecial]
      exact hread.trans (congrArg (Token.char c :: ·) ih)

theorem containing_injective {t u : String} (h : containing t = containing u) : t = u := by
  have hbetween : escape t.toList ++ ['%'] = escape u.toList ++ ['%'] :=
    List.tail_eq_of_cons_eq (String.ofList_injective h)
  have htokens := congrArg tokens (List.append_cancel_right hbetween)
  rw [← List.append_nil (escape t.toList), ← List.append_nil (escape u.toList), tokens_escape_append,
    tokens_escape_append] at htokens
  have hchars := (List.map_inj_right fun _ _ => Token.char.inj).mp (List.append_cancel_right htokens)
  exact String.toList_inj.mp hchars

end Like
end ChessArchive
