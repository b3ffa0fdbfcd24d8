import ChessArchive.Text.Decimal

/-! JSON documents and their indented text. -/

namespace ChessArchive

inductive Document where
  | null
  | bool (value : Bool)
  | int (value : Int)
  /-- A number from 0 to 1. -/
  | share (value : Float)
  | text (value : String)
  | list (elements : List Document)
  | fields (entries : List (String × Document))

namespace Document

/-- A text if there is one. -/
def optText (value : Option String) : Document := (value.map .text).getD .null

/-- A number if there is one. -/
def optInt (value : Option Int) : Document := (value.map .int).getD .null

/-- Escapes a character of a text. -/
def escaped (c : Char) : List Char :=
  match c with
  | '"' => ['\\', '"']
  | '\\' => ['\\', '\\']
  | '\n' => ['\\', 'n']
  | '\r' => ['\\', 'r']
  | '\t' => ['\\', 't']
  | c =>
    if c.toNat = 8 then ['\\', 'b']
    else if c.toNat = 12 then ['\\', 'f']
    else if c.toNat < 32 then
      ['\\', 'u', '0', '0', Nat.digitChar (c.toNat / 16), Nat.digitChar (c.toNat % 16)]
    else [c]

/-- A text between quotes. -/
def quoted (s : String) : String := "\"" ++ String.ofList (s.toList.flatMap escaped) ++ "\""

/-- The start of a line at a depth. -/
def newLine (depth : Nat) : String := "\n" ++ String.ofList (List.replicate (2 * depth) ' ')

mutual
/-- Writes a document that stands at a depth. -/
def render (depth : Nat) : Document → String
  | null => "null"
  | bool b => if b then "true" else "false"
  | int n => toString n
  | share x => Text.shareText x
  | text s => quoted s
  | list [] => "[]"
  | list (d :: ds) =>
    "[" ++ newLine (depth + 1) ++ render (depth + 1) d ++ renderElements (depth + 1) ds ++ newLine depth ++ "]"
  | fields [] => "\x7b\x7d"
  | fields ((name, d) :: es) =>
    "\x7b" ++ newLine (depth + 1) ++ quoted name ++ ": " ++ render (depth + 1) d ++ renderEntries (depth + 1) es
      ++ newLine depth ++ "\x7d"

/-- Writes the elements of a list after its first. -/
def renderElements (depth : Nat) : List Document → String
  | [] => ""
  | d :: ds => "," ++ newLine depth ++ render depth d ++ renderElements depth ds

/-- Writes the entries of an object after its first. -/
def renderEntries (depth : Nat) : List (String × Document) → String
  | [] => ""
  | (name, d) :: es => "," ++ newLine depth ++ quoted name ++ ": " ++ render depth d ++ renderEntries depth es
end

end Document
end ChessArchive
