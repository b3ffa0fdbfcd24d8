import ChessArchive.Text.Integer
import ChessArchive.Text.Percent

/-! Parts of URLs. Parameters are split off as they are written, and their percent codes are read afterwards: as
    those of a form, in which a plus sign stands for a blank, or as those of the URL of a file, in which a code for
    NUL ends the part that it stands in. -/

namespace ChessArchive
namespace Url

/-- A parameter: its name and its value. -/
abbrev Parameter := String × String

/-! ### Splitting -/

/-- Splits a text at every one of a character. -/
def splitAll (separator : Char) : List Char → List (List Char)
  | [] => [[]]
  | c :: s =>
    if c = separator then [] :: splitAll separator s
    else
      match splitAll separator s with
      | part :: parts => (c :: part) :: parts
      | [] => [[c]]

/-- Splits a text at the first of a character, which is dropped. -/
def splitFirst (separator : Char) (s : List Char) : List Char × Option (List Char) :=
  match s.dropWhile (· ≠ separator) with
  | [] => (s, none)
  | _ :: rest => (s.takeWhile (· ≠ separator), some rest)

/-- Drops a text from the front, as often as it stands there. -/
def dropRepeated (text s : List Char) : List Char :=
  if text.isPrefixOf s ∧ text ≠ [] ∧ s ≠ [] then dropRepeated text (s.drop text.length) else s
termination_by s.length
decreasing_by
  rename_i h
  have := List.length_pos_iff.2 h.2.1
  have := List.length_pos_iff.2 h.2.2
  rw [List.length_drop]
  omega

/-- The parameters of a text, each part of them read in some way. A value that is not given is empty. -/
def parameters (readPart : List Char → String) (s : List Char) : List Parameter :=
  ((splitAll '&' s).filter (· ≠ [])).map fun p =>
    (readPart (splitFirst '=' p).1, readPart ((splitFirst '=' p).2.getD []))

/-! ### Forms -/

def formText (s : List Char) : String :=
  String.ofList (Text.percentText (s.map fun c => if c = '+' then ' ' else c))

def formParameters (s : List Char) : List Parameter := parameters formText s

/-! ### Files -/

def fileText (s : List Char) : String := String.ofList ((Text.percentText s).takeWhile (· ≠ '\x00'))

/-- The parameters of the URL of a file. One without a name does not count. -/
def fileParameters (s : List Char) : List Parameter := (parameters fileText s).filter (·.1 ≠ "")

/-- Drops the part of a URL that names a machine, which can only be this one. -/
def dropMachine? : List Char → Option (List Char)
  | '/' :: '/' :: s =>
    let machine := s.takeWhile (· ≠ '/')
    if machine = [] ∨ machine = "localhost".toList then some (s.dropWhile (· ≠ '/')) else none
  | s => some s

/-- The path and the parameters of the URL of a file, without its scheme. What follows a number sign does not
    count. -/
def filePath? (s : List Char) : Option (String × List Parameter) := do
  let (path, params) := splitFirst '?' (splitFirst '#' (← dropMachine? s)).1
  return (fileText path, fileParameters (params.getD []))

/-! ### Switches -/

/-- The number that hexadecimal digits stand for. -/
def hexNumber (digits : List Nat) : Nat := digits.foldl (fun n digit => 16 * n + digit) 0

/-- The number at the beginning of a text, hexadecimal after `0x`. A number of more than 31 bits counts as 0. -/
def leadingNumber (s : List Char) : Nat :=
  let value :=
    match s with
    | '0' :: x :: h :: rest =>
      if (x = 'x' ∨ x = 'X') ∧ (Text.hexValue? h).isSome then
        hexNumber (((h :: rest).takeWhile fun c => (Text.hexValue? c).isSome).filterMap Text.hexValue?)
      else (Text.digitsValue? (s.takeWhile Char.isDigit)).getD 0
    | _ => (Text.digitsValue? (s.takeWhile Char.isDigit)).getD 0
  if value ≤ 2147483647 then value else 0

/-- A text that switches something on: a number whose last eight bits are not all 0, or a word. -/
def isOn (s : String) : Bool :=
  if (s.toList.head?.map Char.isDigit).getD false then leadingNumber s.toList % 256 ≠ 0
  else ["on", "yes", "true"].contains s.toLower

end Url
end ChessArchive
