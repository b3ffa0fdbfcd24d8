import ChessArchive.Piece

/-! Sets of pieces: what a square of a pattern allows. A set is twelve bits, one per piece in index order, and
    it is listed in that order. -/

namespace ChessArchive

structure PieceSet where
  bits : BitVec 12
  deriving DecidableEq

namespace PieceSet

def empty : PieceSet := ⟨0#12⟩

def single (p : Piece) : PieceSet := ⟨BitVec.twoPow 12 p.index⟩

def insert (s : PieceSet) (p : Piece) : PieceSet := ⟨s.bits ||| BitVec.twoPow 12 p.index⟩

def contains (s : PieceSet) (p : Piece) : Bool := s.bits.getLsbD p.index

/-- The members in index order. -/
def toList (s : PieceSet) : List Piece := Piece.all.filter s.contains

def size (s : PieceSet) : Nat := s.toList.length

def isEmpty (s : PieceSet) : Bool := s.bits == 0#12

/-- The set of the pieces in a list. -/
def ofList (ps : List Piece) : PieceSet := ps.foldl insert empty

theorem index_eq_index {p q : Piece} : (q.index : Nat) = p.index ↔ p = q :=
  ⟨fun h => Piece.index_injective (Fin.ext h.symm), fun h => h ▸ rfl⟩

@[simp] theorem contains_empty (p : Piece) : empty.contains p = false := by
  simp [contains, empty]

@[simp] theorem contains_insert (s : PieceSet) (p q : Piece) :
    (s.insert p).contains q = (s.contains q || decide (p = q)) := by
  simp [contains, insert, index_eq_index]

@[simp] theorem contains_single (p q : Piece) : (single p).contains q = decide (p = q) := by
  simp [contains, single, index_eq_index]

@[simp] theorem mem_toList {s : PieceSet} {p : Piece} : p ∈ s.toList ↔ s.contains p = true := by
  simp [toList, Piece.mem_all]

theorem isEmpty_of_contains {s : PieceSet} {p : Piece} (h : s.contains p = true) : s.isEmpty = false := by
  cases hempty : s.isEmpty with
  | false => rfl
  | true => simp [contains, eq_of_beq hempty] at h

theorem toList_injective {s t : PieceSet} (h : s.toList = t.toList) : s = t := by
  have hbits : s.bits = t.bits := by
    refine BitVec.eq_of_getLsbD_eq fun i hi => ?_
    obtain ⟨p, hp⟩ := Piece.exists_index ⟨i, hi⟩
    have hmem : s.contains p = true ↔ t.contains p = true := by rw [← mem_toList, ← mem_toList, h]
    have hcontains := Bool.eq_iff_iff.mpr hmem
    simpa [contains, hp] using hcontains
  cases s
  cases t
  exact congrArg _ hbits

end PieceSet
end ChessArchive
