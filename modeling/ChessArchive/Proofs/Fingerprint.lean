import Mathlib.Data.Finset.Fold
import Mathlib.Data.Finset.SymmDiff
import Mathlib.Data.Fintype.Basic
import ChessArchive.Fingerprint
import ChessArchive.Proofs.Fen

/-! What a fingerprint tells of a position. Each key of a table stands for one trait, and each trait has one key. A
    fingerprint combines the keys of the traits that a position has, so two fingerprints differ by the keys of the traits
    that one position has and the other has not. -/

namespace ChessArchive

/-- What a key stands for: a piece on a square, black being to move, or a castling flag. -/
inductive Trait where
  | piece (s : Square) (p : Piece)
  | black
  | flag (i : Fin 4)
  deriving DecidableEq, Repr

namespace Trait

def Holds (occupied : Occupied) (side : Color) (castling : CastlingRights) : Trait → Prop
  | piece s p => (s, p) ∈ occupied
  | black => side = .black
  | flag i => castling.flags[i.val]? = some true

theorem piece_slot_lt (s : Square) (p : Piece) : p.index.val * 64 + s.val < 768 := by
  have := p.index.isLt
  have := s.isLt
  omega

theorem black_slot_lt : 768 < keyCount := by decide

theorem flag_slot_lt (i : Fin 4) : 769 + i.val < keyCount := Nat.add_lt_add_left i.isLt 769

/-- The place of the key in a table. -/
def slot : Trait → Fin keyCount
  | piece s p => ⟨p.index.val * 64 + s.val, (piece_slot_lt s p).trans black_slot_lt⟩
  | black => ⟨768, black_slot_lt⟩
  | flag i => ⟨769 + i.val, flag_slot_lt i⟩

/-- The three parts of a table do not overlap and leave nothing out. -/
theorem slot_bijective : Function.Bijective slot := by
  constructor
  · intro t u h
    have hval : t.slot.val = u.slot.val := congrArg Fin.val h
    rcases t with ⟨s, p⟩ | _ | i <;> rcases u with ⟨s', p'⟩ | _ | j <;> simp only [slot] at hval
    · have hs := s.isLt
      have hs' := s'.isLt
      have hpiece : p = p' := Piece.index_injective (Fin.ext (by omega))
      have hsquare : s = s' := Fin.ext (by omega)
      rw [hpiece, hsquare]
    · exact absurd hval (piece_slot_lt s p).ne
    · have := piece_slot_lt s p
      omega
    · exact absurd hval (piece_slot_lt s' p').ne'
    · rfl
    · omega
    · have := piece_slot_lt s' p'
      omega
    · omega
    · exact congrArg flag (Fin.ext (by omega))
  · intro k
    have hk : k.val < 773 := k.isLt
    rcases lt_trichotomy k.val 768 with hpiece | hside | hflag
    · obtain ⟨p, hp⟩ := Piece.exists_index ⟨k.val / 64, by omega⟩
      refine ⟨piece ⟨k.val % 64, Nat.mod_lt _ (by decide)⟩ p, Fin.ext ?_⟩
      simp only [slot, hp]
      omega
    · exact ⟨black, Fin.ext hside.symm⟩
    · exact ⟨flag ⟨k.val - 769, by omega⟩, Fin.ext (Nat.add_sub_cancel' hflag)⟩

end Trait

/-- The traits of a position. -/
def traits (occupied : Occupied) (side : Color) (castling : CastlingRights) : Finset Trait :=
  occupied.toFinset.image (fun e => .piece e.1 e.2) ∪ (if side = .black then {.black} else ∅) ∪
    (Finset.univ.filter fun i : Fin 4 => castling.flags[i.val]? = some true).image .flag

theorem mem_traits {occupied : Occupied} {side : Color} {castling : CastlingRights} {t : Trait} :
    t ∈ traits occupied side castling ↔ t.Holds occupied side castling := by
  cases t <;> cases side <;> simp [traits, Trait.Holds]

/-- The exclusive or of what is given for each member of a set. -/
def xorOver {α : Type} (f : α → UInt64) (s : Finset α) : UInt64 := s.fold (· ^^^ ·) 0 f

section
variable {α : Type} [DecidableEq α] {f : α → UInt64}

theorem xorOver_union_inter (s t : Finset α) :
    xorOver f (s ∪ t) ^^^ xorOver f (s ∩ t) = xorOver f s ^^^ xorOver f t := Finset.fold_union_inter

theorem xorOver_union {s t : Finset α} (h : Disjoint s t) : xorOver f (s ∪ t) = xorOver f s ^^^ xorOver f t := by
  rw [← xorOver_union_inter, Finset.disjoint_iff_inter_eq_empty.mp h]
  exact UInt64.xor_zero.symm

/-- What is in both sets cancels out. -/
theorem xorOver_symmDiff (s t : Finset α) : xorOver f s ^^^ xorOver f t = xorOver f (symmDiff s t) := by
  have hunion : symmDiff s t ∪ s ∩ t = s ∪ t := symmDiff_sup_inf s t
  have hdisjoint : Disjoint (symmDiff s t) (s ∩ t) := disjoint_symmDiff_inf s t
  rw [← xorOver_union_inter, ← hunion, xorOver_union hdisjoint, UInt64.xor_assoc, UInt64.xor_self, UInt64.xor_zero]

theorem xorOver_image {β : Type} {g : β → α} (h : Function.Injective g) (s : Finset β) :
    xorOver f (s.image g) = xorOver (fun b => f (g b)) s :=
  Finset.fold_image fun _ _ _ _ heq => h heq

theorem xorOver_toFinset {xs : List α} (h : xs.Nodup) :
    xorOver f xs.toFinset = xs.foldl (fun acc a => acc ^^^ f a) 0 := by
  rw [xorOver, Finset.fold, List.toFinset_val, List.dedup_eq_self.mpr h, Multiset.map_coe, Multiset.coe_fold_l,
    List.foldl_map]

theorem xorOver_filter (c : α → Prop) [DecidablePred c] (s : Finset α) :
    xorOver f (s.filter c) = xorOver (fun a => if c a then f a else 0) s := by
  induction s using Finset.induction_on with
  | empty => rfl
  | insert a s ha ih =>
    simp only [xorOver] at ih ⊢
    rw [Finset.filter_insert, Finset.fold_insert ha]
    split
    · rw [Finset.fold_insert fun hmem => ha (Finset.mem_filter.mp hmem).1, ih]
    · rw [ih, UInt64.zero_xor]

end

namespace FingerprintKeys
variable {k : FingerprintKeys}

/-- The key of a trait. -/
def key (k : FingerprintKeys) : Trait → UInt64
  | .piece s p => k.pieceKey s p
  | .black => k.sideKey .black
  | .flag i => k.flagKey i

theorem key_eq (k : FingerprintKeys) (t : Trait) : k.key t = k.words.get t.slot := by
  cases t <;> rfl

theorem xorOver_pieces {occupied : Occupied} (h : occupied.Nodup) :
    xorOver k.key (occupied.toFinset.image fun e => .piece e.1 e.2) =
      occupied.foldl (fun acc (s, p) => acc ^^^ k.pieceKey s p) 0 := by
  have hinjective : Function.Injective fun e : Square × Piece => Trait.piece e.1 e.2 := by
    rintro ⟨s, p⟩ ⟨s', p'⟩ heq
    cases heq
    rfl
  rw [xorOver_image hinjective, xorOver_toFinset h]
  rfl

theorem xorOver_side (side : Color) : xorOver k.key (if side = .black then {.black} else ∅) = k.sideKey side := by
  cases side
  · rfl
  · exact UInt64.xor_zero

theorem xorOver_flags (castling : CastlingRights) :
    xorOver k.key ((Finset.univ.filter fun i : Fin 4 => castling.flags[i.val]? = some true).image .flag) =
      k.castlingKey castling := by
  have hinjective : Function.Injective Trait.flag := fun _ _ => Trait.flag.inj
  have hall : (Finset.univ : Finset (Fin 4)) = (List.finRange 4).toFinset := by decide
  rw [xorOver_image hinjective, xorOver_filter, hall, xorOver_toFinset (List.nodup_finRange 4)]
  simp [castlingKey, CastlingRights.flags, List.finRange_succ, key]

/-- A fingerprint combines the keys of the traits that a position has. -/
theorem ofOccupied_eq {occupied : Occupied} (h : occupied.Nodup) (side : Color) (castling : CastlingRights) :
    k.ofOccupied occupied side castling = xorOver k.key (traits occupied side castling) := by
  rw [traits, xorOver_union, xorOver_union, xorOver_pieces h, xorOver_side, xorOver_flags, ofOccupied]
  · rw [Finset.disjoint_left]
    intro t hpiece hside
    obtain ⟨e, -, rfl⟩ := Finset.mem_image.mp hpiece
    cases side <;> simp at hside
  · rw [Finset.disjoint_left]
    intro t hother hflag
    obtain ⟨i, -, rfl⟩ := Finset.mem_image.mp hflag
    cases side <;> simp at hother

/-- A position text that is read has a fingerprint, which is made of the traits of the position. -/
theorem ofFenText_ok (k : FingerprintKeys) {text : String} {fen : Fen} (h : Fen.parse text = .ok fen) :
    ∃ placed, Placement.decode fen.placement = .ok placed ∧
      k.ofFenText text = .ok (xorOver k.key (traits placed fen.side fen.castling)) := by
  obtain ⟨-, -, placed, -, -, hplaced, -⟩ := Fen.parse_ok h
  have hnodup : placed.Nodup := List.Nodup.of_map _ (Placement.decode_nodup hplaced)
  refine ⟨placed, hplaced, ?_⟩
  rw [← ofOccupied_eq hnodup]
  exact bind_ok_iff.mpr ⟨fen, h, bind_ok_iff.mpr ⟨placed, hplaced, rfl⟩⟩

end FingerprintKeys
end ChessArchive
