import Mathlib.Data.List.FinRange
import ChessArchive.Placement

/-! Written ranks, of placements and of patterns alike: digits for runs of squares that are left out, and signs for
    single squares. Which square a sign stands for follows from the widths of what is written before it. -/

namespace ChessArchive

/-! ### Digits -/

theorem Placement.digit?_eq_some {c : Char} {n : Nat} : digit? c = some n ↔ n < 10 ∧ c = Nat.digitChar n := by
  unfold digit?
  constructor
  · intro h
    split at h
    · rename_i hdigit
      cases h
      obtain ⟨hlow, hhigh⟩ : 48 ≤ c.toNat ∧ c.toNat ≤ 57 := by
        simpa [Char.isDigit, UInt32.le_iff_toNat_le] using hdigit
      have hn : c.toNat - '0'.toNat < 10 := Nat.lt_of_le_of_lt (Nat.sub_le_sub_right hhigh 48) (by decide)
      refine ⟨hn, Char.toNat_inj.mp ?_⟩
      rw [Nat.toNat_digitChar_of_lt_ten hn]
      exact (Nat.add_sub_of_le hlow).symm
    · cases h
  · rintro ⟨hn, rfl⟩
    rw [if_pos (by simpa using hn)]
    exact congrArg some (Nat.toNat_digitChar_sub_48_of_lt_ten hn)

theorem Placement.digit?_digitChar {n : Nat} (h : n < 10) : digit? (Nat.digitChar n) = some n :=
  digit?_eq_some.mpr ⟨h, rfl⟩

theorem Placement.digit?_symbol (p : Piece) : digit? p.symbol = none := by
  rcases p with ⟨c, k⟩
  cases c <;> cases k <;> rfl

theorem Placement.digitChar_inj {m n : Nat} (hm : m < 10) (hn : n < 10) :
    Nat.digitChar m = Nat.digitChar n ↔ m = n := by
  refine ⟨fun h => ?_, congrArg Nat.digitChar⟩
  have hread := digit?_digitChar hm
  rw [h, digit?_digitChar hn] at hread
  exact (Option.some.inj hread).symm

theorem Placement.symbol_ne_digitChar (p : Piece) {n : Nat} (hn : n < 10) : p.symbol ≠ Nat.digitChar n := by
  intro h
  have hread := digit?_symbol p
  rw [h, digit?_digitChar hn] at hread
  cases hread

/-! ### Squares -/

theorem Square.ofCoords?_eq {file : Nat} (h : file < 8) (rank : Fin 8) :
    ofCoords? file rank = some (ofFileRank ⟨file, h⟩ rank) :=
  dif_pos ⟨h, rank.isLt⟩

theorem Square.ofFileRank_index (s : Square) : ofFileRank s.fileIndex s.rankIndex = s :=
  ext_coords (file_ofFileRank _ _) (rank_ofFileRank _ _)

/-- Written order: from the eighth rank down, and along a rank from the a-file on. -/
def Square.Before (s t : Square) : Prop := t.rank < s.rank ∨ s.rank = t.rank ∧ s.file < t.file

theorem Square.Before.ne {s t : Square} (h : s.Before t) : s ≠ t := by
  rintro rfl
  simp [Square.Before] at h

/-! ### Ranks -/

/-- A part of a written rank: a run of squares that it leaves out, or a sign for one square. -/
inductive RankItem (α : Type) where
  | skip (n : Nat) (within : 1 ≤ n ∧ n ≤ 8)
  | put (a : α)

namespace RankItem
variable {α : Type}

/-- The number of squares that an item takes. -/
def width : RankItem α → Nat
  | skip n _ => n
  | put _ => 1

/-- The squares that an item takes, with the sign on each. -/
def cells : RankItem α → List (Option α)
  | skip n _ => List.replicate n none
  | put a => [some a]

/-- An item as it is written, given how the signs are. -/
def text (sign : α → List Char) : RankItem α → List Char
  | skip n _ => [Nat.digitChar n]
  | put a => sign a

end RankItem

abbrev WrittenRank (α : Type) := List (RankItem α)

namespace WrittenRank
variable {α : Type}

def width : WrittenRank α → Nat
  | [] => 0
  | item :: r => item.width + width r

def cells (r : WrittenRank α) : List (Option α) := r.flatMap RankItem.cells

def text (sign : α → List Char) (r : WrittenRank α) : List Char := r.flatMap (RankItem.text sign)

/-- The squares that the signs of a rank stand for, in written order, the first item starting on the given file. -/
def listing (rank : Fin 8) : Nat → WrittenRank α → List (Square × α)
  | _, [] => []
  | file, .skip n _ :: r => listing rank (file + n) r
  | file, .put a :: r => ((Square.ofCoords? file rank).map (·, a)).toList ++ listing rank (file + 1) r

/-- The squares that the signs of ranks stand for, the first of the ranks being the eighth. -/
def listAll (ranks : List (WrittenRank α)) : List (Square × α) :=
  ((List.finRange 8).zip ranks).flatMap fun (row, r) => r.listing row.rev 0

@[simp] theorem width_nil : width ([] : WrittenRank α) = 0 := rfl

@[simp] theorem width_skip (n : Nat) (within : 1 ≤ n ∧ n ≤ 8) (r : WrittenRank α) :
    width (.skip n within :: r) = n + width r := rfl

@[simp] theorem width_put (a : α) (r : WrittenRank α) : width (.put a :: r) = width r + 1 := Nat.add_comm _ _

theorem length_cells (r : WrittenRank α) : r.cells.length = r.width := by
  induction r with
  | nil => rfl
  | cons item r ih => cases item <;> simp [cells, RankItem.cells, ← ih, Nat.add_comm]

@[simp] theorem text_nil (sign : α → List Char) : text sign [] = [] := rfl

@[simp] theorem text_skip (sign : α → List Char) (n : Nat) (within : 1 ≤ n ∧ n ≤ 8) (r : WrittenRank α) :
    text sign (.skip n within :: r) = Nat.digitChar n :: text sign r := rfl

@[simp] theorem text_put (sign : α → List Char) (a : α) (r : WrittenRank α) :
    text sign (.put a :: r) = sign a ++ text sign r := rfl

theorem listing_put {file : Nat} (h : file < 8) (rank : Fin 8) (a : α) (r : WrittenRank α) :
    listing rank file (.put a :: r) = (.ofFileRank ⟨file, h⟩ rank, a) :: listing rank (file + 1) r := by
  rw [listing, Square.ofCoords?_eq h]
  rfl

/-- The signs of a rank stand for squares of that rank, each to the right of the one before. -/
theorem listing_squares (rank : Fin 8) (file : Nat) (r : WrittenRank α) :
    (∀ e ∈ r.listing rank file, e.1.rank = rank ∧ file ≤ e.1.file) ∧
      ((r.listing rank file).map (·.1)).Pairwise Square.Before := by
  induction r generalizing file with
  | nil => simp [listing]
  | cons item r ih =>
    cases item with
    | skip n within =>
      obtain ⟨hon, hpair⟩ := ih (file + n)
      exact ⟨fun e he => ⟨(hon e he).1, by have := (hon e he).2; omega⟩, hpair⟩
    | put a =>
      obtain ⟨hon, hpair⟩ := ih (file + 1)
      by_cases hfile : file < 8
      · rw [listing_put hfile, List.forall_mem_cons, List.map_cons, List.pairwise_cons]
        refine ⟨⟨by simp, fun e he => ⟨(hon e he).1, by have := (hon e he).2; omega⟩⟩, fun s hs => ?_, hpair⟩
        obtain ⟨e, he, rfl⟩ := List.mem_map.mp hs
        have := hon e he
        exact Or.inr ⟨by simp [this.1], by simp; omega⟩
      · have hnone : Square.ofCoords? file rank = none := dif_neg fun h => hfile h.1
        rw [listing, hnone]
        exact ⟨fun e he => ⟨(hon e he).1, by have := (hon e he).2; omega⟩, hpair⟩

/-- A rank lists the squares that bear signs. -/
theorem mem_listing {rank : Fin 8} {file : Nat} {r : WrittenRank α} (h : file + r.width ≤ 8) {s : Square} {a : α} :
    (s, a) ∈ r.listing rank file ↔ s.rank = rank ∧ file ≤ s.file ∧ r.cells[s.file - file]? = some (some a) := by
  induction r generalizing file with
  | nil => simp [listing, cells]
  | cons item r ih =>
    cases item with
    | skip n within =>
      rw [width_skip] at h
      rw [listing, ih (by omega)]
      have hcells : cells (.skip n within :: r) = List.replicate n none ++ cells r := rfl
      rw [hcells, List.getElem?_append, List.length_replicate]
      by_cases hfile : file + n ≤ s.file
      · rw [if_neg (by omega), Nat.sub_sub]
        exact and_congr_right fun _ => and_congr_left fun _ => ⟨fun _ => by omega, fun _ => hfile⟩
      · refine iff_of_false (fun hin => hfile hin.2.1) fun hin => ?_
        have hlt : s.file - file < n := by omega
        simp [hlt] at hin
    | put b =>
      rw [width_put] at h
      rw [listing_put (show file < 8 by omega), List.mem_cons, ih (by omega)]
      have hcells : cells (.put b :: r) = some b :: cells r := rfl
      rw [hcells]
      by_cases hfile : s.file = file
      · rw [hfile, Nat.sub_self, List.getElem?_cons_zero, Option.some.injEq, Option.some.injEq, Prod.mk.injEq,
          or_iff_left (by omega), eq_comm (a := a)]
        constructor
        · rintro ⟨rfl, rfl⟩
          simp
        · rintro ⟨hrank, -, rfl⟩
          exact ⟨Square.ext_coords (by simpa using hfile) (by simpa using hrank), rfl⟩
      · have hother : (s, a) ≠ (.ofFileRank ⟨file, by omega⟩ rank, b) := by
          rintro ⟨⟩
          exact hfile (by simp)
        rw [or_iff_right hother]
        refine and_congr_right fun _ => ?_
        constructor
        · rintro ⟨hright, hcell⟩
          rw [show s.file - file = s.file - (file + 1) + 1 by omega]
          exact ⟨by omega, hcell⟩
        · rintro ⟨hright, hcell⟩
          rw [show s.file - file = s.file - (file + 1) + 1 by omega] at hcell
          exact ⟨by omega, hcell⟩

/-- Ranks list squares in written order. -/
theorem listAll_squares (ranks : List (WrittenRank α)) : ((listAll ranks).map (·.1)).Pairwise Square.Before := by
  have hrows : ((List.finRange 8).zip ranks).Pairwise fun x y => x.1 < y.1 :=
    List.pairwise_iff_getElem.mpr fun i j _ _ hij => by simpa using hij
  rw [listAll]
  generalize (List.finRange 8).zip ranks = rows at hrows ⊢
  induction rows with
  | nil => simp
  | cons x rows ih =>
    rw [List.pairwise_cons] at hrows
    rw [List.flatMap_cons, List.map_append, List.pairwise_append]
    refine ⟨(listing_squares _ _ _).2, ih hrows.2, fun s hs t ht => Or.inl ?_⟩
    obtain ⟨e, he, rfl⟩ := List.mem_map.mp hs
    obtain ⟨e', he', rfl⟩ := List.mem_map.mp ht
    obtain ⟨x', hx', he'⟩ := List.mem_flatMap.mp he'
    have h1 := ((listing_squares _ _ _).1 e he).1
    have h2 := ((listing_squares _ _ _).1 e' he').1
    have h3 : x.1.val < x'.1.val := hrows.1 x' hx'
    simp only [Fin.val_rev] at h1 h2
    omega

theorem getElem?_finRange {n : Nat} (i : Fin n) : (List.finRange n)[i.val]? = some i := by simp

/-- Ranks list the squares that bear signs. -/
theorem mem_listAll {ranks : List (WrittenRank α)} (h : ∀ r ∈ ranks, r.width ≤ 8) {s : Square} {a : α} :
    (s, a) ∈ listAll ranks ↔
      ∃ r, ranks[s.rankIndex.rev.val]? = some r ∧ r.cells[s.file]? = some (some a) := by
  simp only [listAll, List.mem_flatMap, Prod.exists]
  constructor
  · rintro ⟨row, r, hrow, hs⟩
    obtain ⟨i, hi⟩ := List.mem_iff_getElem?.mp hrow
    obtain ⟨hfirst, hsecond⟩ := List.getElem?_zip_eq_some.mp hi
    obtain ⟨hrank, -, hcell⟩ := (mem_listing ((Nat.zero_add _).trans_le (h r (List.mem_of_getElem? hsecond)))).mp hs
    obtain ⟨hlt, hget⟩ := List.getElem?_eq_some_iff.mp hfirst
    have hi : s.rankIndex.rev.val = i := by
      have hindex : s.rankIndex.val = row.rev.val := hrank
      have hrow : i = row.val := by simpa [Fin.ext_iff] using hget
      rw [Fin.val_rev] at hindex ⊢
      omega
    exact ⟨r, hi ▸ hsecond, hcell⟩
  · rintro ⟨r, hr, hcell⟩
    refine ⟨s.rankIndex.rev, r, List.mem_iff_getElem?.mpr ⟨s.rankIndex.rev.val, ?_⟩, ?_⟩
    · exact List.getElem?_zip_eq_some.mpr ⟨getElem?_finRange _, hr⟩
    · rw [mem_listing ((Nat.zero_add _).trans_le (h r (List.mem_of_getElem? hr))), Fin.rev_rev]
      exact ⟨rfl, Nat.zero_le _, hcell⟩

end WrittenRank
end ChessArchive
