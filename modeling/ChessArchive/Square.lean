/-! The 64 squares, numbered from a1 along the first rank to h8. A square is its number; file and rank are read
    off it, and a name is the file's letter with the rank's digit. -/

namespace ChessArchive

/-- A square: a1 is 0, b1 is 1, h8 is 63. -/
abbrev Square := Fin 64

namespace Square

/-- The file, counted from the a-file. -/
def file (s : Square) : Nat := s.val % 8

/-- The rank, counted from the first. -/
def rank (s : Square) : Nat := s.val / 8

/-- The file as a coordinate. -/
def fileIndex (s : Square) : Fin 8 := ⟨s.val % 8, by omega⟩

/-- The rank as a coordinate. -/
def rankIndex (s : Square) : Fin 8 := ⟨s.val / 8, by omega⟩

/-- The square on the given file and rank. -/
def ofFileRank (file rank : Fin 8) : Square := ⟨rank.val * 8 + file.val, by omega⟩

/-- The square on the given file and rank, if both are on the board. -/
def ofCoords? (file rank : Nat) : Option Square :=
  if h : file < 8 ∧ rank < 8 then some ⟨rank * 8 + file, by omega⟩ else none

/-- The square with the given number. -/
def ofNat? (n : Nat) : Option Square := if h : n < 64 then some ⟨n, h⟩ else none

def fileLetter (file : Nat) : Char := Char.ofNat ('a'.toNat + file)

def rankDigit (rank : Nat) : Char := Char.ofNat ('1'.toNat + rank)

/-- Reads the letter of a file. -/
def fileOf? (c : Char) : Option (Fin 8) :=
  if h : 'a'.toNat ≤ c.toNat ∧ c.toNat < 'a'.toNat + 8 then some ⟨c.toNat - 'a'.toNat, by omega⟩ else none

/-- Reads the digit of a rank. -/
def rankOf? (c : Char) : Option (Fin 8) :=
  if h : '1'.toNat ≤ c.toNat ∧ c.toNat < '1'.toNat + 8 then some ⟨c.toNat - '1'.toNat, by omega⟩ else none

/-- The name of a square, such as e4. -/
def name (s : Square) : List Char := [fileLetter s.file, rankDigit s.rank]

/-- Reads a name. -/
def ofName? : List Char → Option Square
  | [f, r] => do return ofFileRank (← fileOf? f) (← rankOf? r)
  | _ => none

theorem ofName?_name : ∀ s : Square, ofName? s.name = some s := by decide

@[simp] theorem file_ofFileRank (f r : Fin 8) : (ofFileRank f r).file = f := by
  simp only [file, ofFileRank]; omega

@[simp] theorem rank_ofFileRank (f r : Fin 8) : (ofFileRank f r).rank = r := by
  simp only [rank, ofFileRank]; omega

theorem ext_coords {s t : Square} (hf : s.file = t.file) (hr : s.rank = t.rank) : s = t := by
  simp only [file, rank] at hf hr
  exact Fin.ext (by omega)

end Square
end ChessArchive
