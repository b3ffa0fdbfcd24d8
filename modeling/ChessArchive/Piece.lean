/-! Colours, kinds and pieces, with their letters: a capital is white, a small letter black. The twelve pieces
    have a fixed order, white before black and pawn to king within a colour, which every table and every
    listing follows. -/

namespace ChessArchive

inductive Color where
  | white
  | black
  deriving DecidableEq, Repr

namespace Color

/-- The other side. -/
def flip : Color → Color
  | white => black
  | black => white

/-- The letter of the side in a position text. -/
def letter : Color → Char
  | white => 'w'
  | black => 'b'

def name : Color → String
  | white => "white"
  | black => "black"

theorem letter_injective {c d : Color} (h : c.letter = d.letter) : c = d := by
  cases c <;> cases d <;> first | rfl | exact absurd h (by decide)

end Color

inductive Kind where
  | pawn
  | knight
  | bishop
  | rook
  | queen
  | king
  deriving DecidableEq, Repr

namespace Kind

/-- All kinds, in index order. -/
def all : List Kind := [pawn, knight, bishop, rook, queen, king]

def index : Kind → Nat
  | pawn => 0
  | knight => 1
  | bishop => 2
  | rook => 3
  | queen => 4
  | king => 5

/-- The capital letter of a kind. -/
def upper : Kind → Char
  | pawn => 'P'
  | knight => 'N'
  | bishop => 'B'
  | rook => 'R'
  | queen => 'Q'
  | king => 'K'

/-- The small letter of a kind. -/
def lower : Kind → Char
  | pawn => 'p'
  | knight => 'n'
  | bishop => 'b'
  | rook => 'r'
  | queen => 'q'
  | king => 'k'

/-- Reads a small letter. -/
def ofLower? : Char → Option Kind
  | 'p' => some pawn
  | 'n' => some knight
  | 'b' => some bishop
  | 'r' => some rook
  | 'q' => some queen
  | 'k' => some king
  | _ => none

/-- Reads a letter of either case. -/
def ofLetter? (c : Char) : Option Kind := ofLower? c.toLower

theorem ofLetter?_upper (k : Kind) : ofLetter? k.upper = some k := by cases k <;> rfl

theorem eq_lower_of_ofLower? {c : Char} {k : Kind} (h : ofLower? c = some k) : c = k.lower := by
  unfold ofLower? at h
  split at h <;> cases h <;> rfl

theorem toNat_upper (k : Kind) : k.upper.toNat + 32 = k.lower.toNat := by cases k <;> rfl

/-- Only the two letters of a kind are read as that kind. -/
theorem eq_of_ofLetter? {c : Char} {k : Kind} (h : ofLetter? c = some k) :
    c = if c.isUpper then k.upper else k.lower := by
  have hlower : c.toLower = k.lower := eq_lower_of_ofLower? h
  have hcapital : c.isUpper = true ↔ 'A'.val ≤ c.val ∧ c.val ≤ 'Z'.val := decide_eq_true_iff
  by_cases hrange : 'A'.val ≤ c.val ∧ c.val ≤ 'Z'.val
  · have hcode : c.toLower.toNat = (c.val + 32).toNat := congrArg Char.toNat (dif_pos hrange)
    have hlow : c.toNat ≤ 90 := hrange.2
    have hsum : (c.val + 32).toNat = c.toNat + 32 :=
      (UInt32.toNat_add c.val 32).trans (Nat.mod_eq_of_lt (show c.toNat + 32 < 2 ^ 32 by omega))
    have hupper := k.toNat_upper
    rw [if_pos (hcapital.mpr hrange)]
    rw [hlower] at hcode
    exact Char.toNat_inj.mp (by omega)
  · have hkept : c.toLower = c := dif_neg hrange
    rw [if_neg fun hc => hrange (hcapital.mp hc), ← hlower, hkept]

end Kind

structure Piece where
  color : Color
  kind : Kind
  deriving DecidableEq, Repr

namespace Piece

/-- All pieces, in index order. -/
def all : List Piece := Kind.all.map (Piece.mk .white) ++ Kind.all.map (Piece.mk .black)

/-- The place of a piece in `all`. -/
def index (p : Piece) : Fin 12 :=
  match p.color with
  | .white => ⟨p.kind.index, by cases p.kind <;> decide⟩
  | .black => ⟨6 + p.kind.index, by cases p.kind <;> decide⟩

/-- The letter of a piece. -/
def symbol (p : Piece) : Char :=
  match p.color with
  | .white => p.kind.upper
  | .black => p.kind.lower

/-- Reads a piece letter. -/
def ofSymbol? (c : Char) : Option Piece :=
  (Kind.ofLetter? c).map (Piece.mk (if c.isUpper then .white else .black))

theorem ofSymbol?_symbol (p : Piece) : ofSymbol? p.symbol = some p := by
  rcases p with ⟨c, k⟩
  cases c <;> cases k <;> rfl

theorem symbol_injective {p q : Piece} (h : p.symbol = q.symbol) : p = q := by
  have hread := congrArg ofSymbol? h
  rwa [ofSymbol?_symbol, ofSymbol?_symbol, Option.some.injEq] at hread

theorem eq_symbol_of_ofSymbol? {c : Char} {p : Piece} (h : ofSymbol? c = some p) : c = p.symbol := by
  obtain ⟨k, hk, rfl⟩ := Option.map_eq_some_iff.mp h
  have hletter := Kind.eq_of_ofLetter? hk
  cases hupper : c.isUpper <;> simpa [symbol, hupper] using hletter

theorem mem_all (p : Piece) : p ∈ all := by
  rcases p with ⟨c, k⟩
  cases c <;> cases k <;> decide

theorem index_injective {p q : Piece} (h : p.index = q.index) : p = q := by
  rcases p with ⟨c, k⟩
  rcases q with ⟨d, l⟩
  revert h
  cases c <;> cases k <;> cases d <;> cases l <;> decide

theorem exists_index (i : Fin 12) : ∃ p : Piece, p.index = i := by
  have hall : ∀ i : Fin 12, ∃ p ∈ all, p.index = i := by decide
  obtain ⟨p, -, hp⟩ := hall i
  exact ⟨p, hp⟩

end Piece
end ChessArchive
