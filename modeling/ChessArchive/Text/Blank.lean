/-! Blank characters, and the three things done with them everywhere: trimming, splitting into fields, and
    telling whether a text is blank at all. The class is Unicode's White_Space, so no-break and ideographic
    spaces count. -/

namespace ChessArchive
namespace Text

/-- The code points with the property White_Space. -/
def isBlank (c : Char) : Bool :=
  let n := c.toNat
  (0x09 ≤ n && n ≤ 0x0d) || n == 0x20 || n == 0x85 || n == 0xa0 || n == 0x1680 || (0x2000 ≤ n && n ≤ 0x200a)
    || n == 0x2028 || n == 0x2029 || n == 0x202f || n == 0x205f || n == 0x3000

/-- A text without any other character. -/
def allBlank (s : List Char) : Bool := s.all isBlank

/-! ### Trimming -/

/-- Drops the characters that satisfy `p` from the end. -/
def dropEndWhile (p : Char → Bool) (s : List Char) : List Char := (s.reverse.dropWhile p).reverse

/-- Drops blanks from both ends. -/
def trim (s : List Char) : List Char := dropEndWhile isBlank (s.dropWhile isBlank)

/-- Drops blanks from both ends of a string. -/
def trimmed (s : String) : String := String.ofList (trim s.toList)

/-! ### Fields -/

/-- The maximal runs of characters that are not blank, in order. -/
def fields : List Char → List (List Char)
  | [] => []
  | c :: s =>
    if isBlank c then fields s
    else match s, fields s with
      | d :: _, f :: fs => if isBlank d then [c] :: f :: fs else (c :: f) :: fs
      | _, fs => [c] :: fs

theorem fields_cons (c : Char) (s : List Char) : fields (c :: s) =
    if isBlank c then fields s
    else match s, fields s with
      | d :: _, f :: fs => if isBlank d then [c] :: f :: fs else (c :: f) :: fs
      | _, fs => [c] :: fs := rfl

/-- The first field, if the text is not blank. -/
def firstField? (s : List Char) : Option (List Char) :=
  match s.dropWhile isBlank with
  | [] => none
  | c :: r => some ((c :: r).takeWhile fun d => !isBlank d)

/-- Splits at the first blank, which belongs to neither part. -/
def splitAtBlank? : List Char → Option (List Char × List Char)
  | [] => none
  | c :: s => if isBlank c then some ([], s) else (splitAtBlank? s).map fun (a, b) => (c :: a, b)

end Text
end ChessArchive
