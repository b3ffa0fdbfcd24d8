import Mathlib.Data.Fintype.Card
import ChessArchive.Material
import ChessArchive.Proofs.Placement

/-! Material signatures identify how many of each piece stand on a board. Every count stands at a place of its own and
    fits there, so a signature can be read back. -/

namespace ChessArchive
open Placement

/-- Two boards have the same number of each piece. -/
def Placement.SamePieces (xs ys : Occupied) : Prop := ∀ p : Piece, xs.countP (·.2 = p) = ys.countP (·.2 = p)

instance (xs ys : Occupied) : Decidable (SamePieces xs ys) :=
  decidable_of_iff (∀ p ∈ Piece.all, xs.countP (·.2 = p) = ys.countP (·.2 = p))
    ⟨fun h p => h p p.mem_all, fun h p _ => h p⟩

theorem Placement.countP_le {board : String} {standing : Occupied} (h : decode board = .ok standing) (p : Piece) :
    standing.countP (·.2 = p) ≤ 64 := by
  have hsquares : (standing.map (·.1)).length ≤ Fintype.card Square := (decode_nodup h).length_le_card
  rw [List.length_map, Fintype.card_fin] at hsquares
  exact List.countP_le_length.trans hsquares

namespace Material
variable {m n : Material}

theorem count_ofOccupied (standing : Occupied) (p : Piece) :
    (ofOccupied standing).count p = standing.countP (·.2 = p) := by
  simp only [ofOccupied, List.count, List.countP_map]
  rfl

theorem ofText_ok {board : String} {standing : Occupied} (h : decode board = .ok standing) :
    ofText board = .ok (ofOccupied standing) := map_ok_iff.mpr ⟨standing, h, rfl⟩

/-! ### Counts -/

/-- A number in decimals, with a zero before a single digit. -/
def padded (k : Nat) : List Char := (Nat.toDigits 10 k).leftpad 2 '0'

theorem twoDigits_eq_padded {k : Nat} (h : k < 100) : twoDigits k = padded k := by
  rcases Nat.lt_or_ge k 10 with hone | htwo
  · rw [twoDigits, padded, Nat.toDigits_of_lt_base hone, Nat.div_eq_of_lt hone, Nat.mod_eq_of_lt hone]
    rfl
  · rw [twoDigits, padded, Nat.toDigits_of_base_le (by omega) htwo, Nat.toDigits_of_lt_base (by omega)]
    rfl

theorem twoDigits_inj {j k : Nat} (hj : j < 100) (hk : k < 100) (h : twoDigits j = twoDigits k) : j = k := by
  obtain ⟨htens, hunits⟩ : Nat.digitChar (j / 10) = Nat.digitChar (k / 10) ∧
      Nat.digitChar (j % 10) = Nat.digitChar (k % 10) := by simpa [twoDigits] using h
  rw [digitChar_inj (by omega) (by omega)] at htens hunits
  omega

/-! ### Places -/

theorem toList_signature (m : Material) : m.signature.toList = m.sideText .white ++ '/' :: m.sideText .black :=
  String.toList_ofList

theorem length_signature (m : Material) : m.signature.length = 35 := by
  rw [← String.length_toList, toList_signature]
  rfl

/-- A field takes two characters and is followed by a single one, be it in a side or between the sides. -/
theorem take_signature (m : Material) (p : Piece) :
    (m.signature.toList.drop (3 * p.index)).take 2 = twoDigits (m.count p) := by
  rw [toList_signature]
  rcases p with ⟨c, k⟩
  cases c <;> cases k <;> rfl

/-- Counts that fit can be read back. -/
theorem signature_eq_iff (hm : ∀ p, m.count p < 100) (hn : ∀ p, n.count p < 100) :
    m.signature = n.signature ↔ ∀ p, m.count p = n.count p := by
  constructor
  · intro h p
    refine twoDigits_inj (hm p) (hn p) ?_
    rw [← take_signature, ← take_signature, h]
  · intro h
    have hcount : m.count = n.count := funext h
    rw [signature, signature, sideText, sideText, sideText, sideText, hcount]

theorem signature_ofOccupied_eq_iff {text other : String} {standing placed : Occupied}
    (hstanding : decode text = .ok standing) (hplaced : decode other = .ok placed) :
    (ofOccupied standing).signature = (ofOccupied placed).signature ↔ SamePieces standing placed := by
  have hfits : ∀ {board : String} {occupied : Occupied}, decode board = .ok occupied → ∀ p,
      (ofOccupied occupied).count p < 100 := by
    intro board occupied h p
    rw [count_ofOccupied]
    exact (countP_le h p).trans_lt (by decide)
  rw [signature_eq_iff (hfits hstanding) (hfits hplaced)]
  simp only [count_ofOccupied, SamePieces]

end Material
end ChessArchive
