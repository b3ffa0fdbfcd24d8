import ChessArchive.Text.Blank

/-! Tag pairs: the header of a game. A tag line is a name and a quoted value in brackets; inside the quotes a
    backslash stands before each quote and each backslash. A name that comes again replaces its value. -/

namespace ChessArchive

/-- The tag pairs of a game, each name once. -/
structure Tags where
  entries : List (String × String)
  deriving DecidableEq, Repr

namespace Tags

def empty : Tags := ⟨[]⟩

/-- The value of a tag. -/
def get? (t : Tags) (name : String) : Option String := t.entries.lookup name

/-- Sets a tag, in its old place if it has one. -/
def insert (t : Tags) (name value : String) : Tags :=
  if (t.get? name).isSome then ⟨t.entries.map fun e => if e.1 = name then (name, value) else e⟩
  else ⟨t.entries ++ [(name, value)]⟩

/-- Sets a tag that is not there. -/
def insertNew (t : Tags) (name value : String) : Tags := if (t.get? name).isSome then t else t.insert name value

/-- Sets tags in order. -/
def ofList (entries : List (String × String)) : Tags := entries.foldl (fun t e => t.insert e.1 e.2) empty

end Tags

namespace Pgn

/-- Replaces each pair `a`, `b` by `c`, from left to right. -/
def replacePair (a b c : Char) : List Char → List Char
  | x :: y :: s => if x = a ∧ y = b then c :: replacePair a b c s else x :: replacePair a b c (y :: s)
  | s => s

/-- Undoes the quoting of a value: first of quotes, then of backslashes. -/
def unquote (s : List Char) : List Char := replacePair '\\' '\\' '\\' (replacePair '\\' '"' '"' s)

/-- A character of a tag name. -/
def isNameChar (c : Char) : Bool := c.isAlphanum || c == '_'

/-- What stands between two delimiters that open and close a text. -/
def between? (first last : Char) : List Char → Option (List Char)
  | [] => none
  | c :: s => if c = first ∧ s.getLast? = some last then some s.dropLast else none

/-- Reads a tag line that has no blanks around it. -/
def readTag (line : List Char) : Option (String × String) := do
  let inner ← between? '[' ']' line
  let (name, rest) ← Text.splitAtBlank? (Text.trim inner)
  let value ← between? '"' '"' (Text.trim rest)
  if name ≠ [] ∧ name.all isNameChar then some (String.ofList name, String.ofList (unquote value)) else none

/-- A line that opens with a bracket, blanks apart. -/
def isTagLine (line : List Char) : Bool := (Text.trim line).head? == some '['

end Pgn
end ChessArchive
