import ChessArchive.Placement.Cursor
import ChessArchive.Proofs.Placement

/-! The language of placements: which texts are read as one, what is read, and what is said of every other text. A text
    is refused for what is wrong with it first, reading from the left. -/

namespace ChessArchive
namespace Placement

/-! ### Characters -/

/-- The digits and letters that ranks are written with. -/
def rankSigns : List Char :=
  ['1', '2', '3', '4', '5', '6', '7', '8', 'P', 'N', 'B', 'R', 'Q', 'K', 'p', 'n', 'b', 'r', 'q', 'k']

/-- The number of squares that a character takes: the value of a digit, else one. -/
def charWidth (c : Char) : Nat := (digit? c).getD 1

def textWidth : List Char → Nat
  | [] => 0
  | c :: cells => charWidth c + textWidth cells

@[simp] theorem textWidth_nil : textWidth [] = 0 := rfl

@[simp] theorem textWidth_cons (c : Char) (cells : List Char) : textWidth (c :: cells) = charWidth c + textWidth cells :=
  rfl

theorem charWidth_digitChar {n : Nat} (h : n < 10) : charWidth (Nat.digitChar n) = n := by
  rw [charWidth, digit?_digitChar h]
  rfl

theorem charWidth_symbol (p : Piece) : charWidth p.symbol = 1 := by
  rw [charWidth, digit?_symbol]
  rfl

theorem rankSigns_eq :
    rankSigns = (List.range 8).map (fun n => Nat.digitChar (n + 1)) ++ Piece.all.map Piece.symbol := by
  decide

theorem mem_rankSigns {c : Char} :
    c ∈ rankSigns ↔ (∃ n, (1 ≤ n ∧ n ≤ 8) ∧ c = Nat.digitChar n) ∨ ∃ p : Piece, c = p.symbol := by
  rw [rankSigns_eq, List.mem_append, List.mem_map, List.mem_map]
  refine or_congr ⟨?_, ?_⟩ ⟨?_, ?_⟩
  · rintro ⟨n, hn, rfl⟩
    exact ⟨n + 1, ⟨Nat.le_add_left 1 n, List.mem_range.mp hn⟩, rfl⟩
  · rintro ⟨n, ⟨hpos, hn⟩, rfl⟩
    exact ⟨n - 1, List.mem_range.mpr (by omega), by rw [Nat.sub_add_cancel hpos]⟩
  · rintro ⟨p, -, rfl⟩
    exact ⟨p, rfl⟩
  · rintro ⟨p, rfl⟩
    exact ⟨p, p.mem_all, rfl⟩

/-- A rank that is written in full. -/
structure FullRank (part : List Char) : Prop where
  signs : ∀ c ∈ part, c ∈ rankSigns
  width : textWidth part = 8

instance (part : List Char) : Decidable (FullRank part) :=
  decidable_of_iff (part.all (· ∈ rankSigns) = true ∧ textWidth part = 8)
    ⟨fun h => ⟨fun c hc => by simpa using List.all_eq_true.mp h.1 c hc, h.2⟩,
      fun h => ⟨List.all_eq_true.mpr fun c hc => by simpa using h.signs c hc, h.width⟩⟩

/-- What is wrong with the rest of a rank where it begins, after characters that take `sum` squares. -/
inductive Violates (number sum : Nat) : List Char → FenError → Prop where
  | skip {c : Char} {rest : List Char} : c = '0' ∨ c = '9' → Violates number sum (c :: rest) (.invalidSkip number c)
  | foreign {c : Char} {rest : List Char} : c ≠ '0' → c ≠ '9' → c ∉ rankSigns →
      Violates number sum (c :: rest) (.invalidPiece c)
  | overflow {c : Char} {rest : List Char} : c ∈ rankSigns → 8 < sum + charWidth c →
      Violates number sum (c :: rest) (.rankOverflow number)
  | underflow : sum < 8 → Violates number sum [] (.rankUnderflow number)

/-- The first thing that is wrong with ranks: those before are written in full, and in the rank itself all characters
    before are signs that fit on the board. -/
def FirstViolation (parts : List (List Char)) (e : FenError) : Prop :=
  ∃ i part, parts[i]? = some part ∧ (∀ d ∈ parts.take i, FullRank d) ∧
    ∃ read rest, part = read ++ rest ∧ (∀ c ∈ read, c ∈ rankSigns) ∧ textWidth read ≤ 8 ∧
      Violates (i + 1) (textWidth read) rest e

/-- The pieces of ranks, each on the square that the widths before it lead to, in written order. -/
structure Lists (parts : List (List Char)) (occupied : Occupied) : Prop where
  pieces : ∀ s p, (s, p) ∈ occupied ↔ ∃ i before after, parts[i]? = some (before ++ p.symbol :: after) ∧
    s.file = textWidth before ∧ s.rank + (i + 1) = 8
  order : (occupied.map (·.1)).Pairwise Square.Before
  once : (occupied.map (·.1)).Nodup

/-! ### Ranks -/

theorem decodeRank_violates {row : Fin 8} {file : Nat} {rest : List Char} {e : FenError} (hfile : file ≤ 8)
    (h : Violates (row + 1) file rest e) : decodeRank row file rest = .error e := by
  cases h with
  | skip hc =>
    rcases hc with rfl | rfl <;> rfl
  | @foreign c rest hzero hnine hc =>
    have hdigit : digit? c = none := by
      cases hd : digit? c with
      | none => rfl
      | some n =>
        obtain ⟨hn, rfl⟩ := digit?_eq_some.mp hd
        have hothers : ∀ n < 10, Nat.digitChar n ≠ '0' → Nat.digitChar n ≠ '9' → Nat.digitChar n ∈ rankSigns := by
          decide
        exact absurd (hothers n hn hzero hnine) hc
    have hsymbol : Piece.ofSymbol? c = none := by
      cases hp : Piece.ofSymbol? c with
      | none => rfl
      | some p => exact absurd (mem_rankSigns.mpr (Or.inr ⟨p, Piece.eq_symbol_of_ofSymbol? hp⟩)) hc
    simp only [decodeRank, hdigit, hsymbol]
  | @overflow c rest hc hsum =>
    rcases mem_rankSigns.mp hc with ⟨n, ⟨hpos, hn⟩, rfl⟩ | ⟨p, rfl⟩
    · have hdigit : digit? (Nat.digitChar n) = some n := digit?_digitChar (by omega)
      rw [charWidth_digitChar (by omega)] at hsum
      simp only [decodeRank, hdigit, if_neg (show ¬ (n = 0 ∨ 8 < n) by omega), if_pos hsum]
    · rw [charWidth_symbol] at hsum
      simp only [decodeRank, digit?_symbol, Piece.ofSymbol?_symbol, dif_neg (show ¬ file < 8 by omega)]
  | underflow hsum => exact if_neg (by omega)

/-- A sign that fits on the board is passed over. -/
theorem decodeRank_sign {row : Fin 8} {file : Nat} {c : Char} (hc : c ∈ rankSigns) (hfits : file + charWidth c ≤ 8)
    (rest : List Char) (e : FenError) :
    decodeRank row file (c :: rest) = .error e ↔ decodeRank row (file + charWidth c) rest = .error e := by
  rcases mem_rankSigns.mp hc with ⟨n, ⟨hpos, hn⟩, rfl⟩ | ⟨p, rfl⟩
  · have hdigit : digit? (Nat.digitChar n) = some n := digit?_digitChar (by omega)
    rw [charWidth_digitChar (by omega)] at hfits ⊢
    simp only [decodeRank, hdigit, if_neg (show ¬ (n = 0 ∨ 8 < n) by omega), if_neg (show ¬ 8 < file + n by omega)]
  · rw [charWidth_symbol] at hfits ⊢
    simp only [decodeRank, digit?_symbol, Piece.ofSymbol?_symbol, dif_pos (show file < 8 by omega), bind_error_iff,
      pure_ne_error, and_false, exists_false, or_false]

theorem violates_or_sign (number file : Nat) (c : Char) (rest : List Char) :
    (∃ e, Violates number file (c :: rest) e) ∨ c ∈ rankSigns ∧ file + charWidth c ≤ 8 := by
  by_cases hsign : c ∈ rankSigns
  · by_cases hfits : file + charWidth c ≤ 8
    · exact Or.inr ⟨hsign, hfits⟩
    · exact Or.inl ⟨_, .overflow hsign (by omega)⟩
  · by_cases hskip : c = '0' ∨ c = '9'
    · exact Or.inl ⟨_, .skip hskip⟩
    · rw [not_or] at hskip
      exact Or.inl ⟨_, .foreign hskip.1 hskip.2 hsign⟩

/-- A rank is refused for what is wrong with it first. -/
theorem decodeRank_error_iff {row : Fin 8} {file : Nat} (hfile : file ≤ 8) {cells : List Char} {e : FenError} :
    decodeRank row file cells = .error e ↔ ∃ read rest, cells = read ++ rest ∧ (∀ c ∈ read, c ∈ rankSigns) ∧
      file + textWidth read ≤ 8 ∧ Violates (row + 1) (file + textWidth read) rest e := by
  constructor
  · intro h
    induction cells generalizing file with
    | nil =>
      unfold decodeRank at h
      split at h
      · cases h
      · cases h
        exact ⟨[], [], rfl, List.forall_mem_nil _, hfile, .underflow (by rw [textWidth_nil]; omega)⟩
    | cons c cells ih =>
      rcases violates_or_sign (row + 1) file c cells with ⟨e', hviolates⟩ | ⟨hc, hfits⟩
      · cases (decodeRank_violates hfile hviolates).symm.trans h
        exact ⟨[], c :: cells, rfl, List.forall_mem_nil _, hfile, hviolates⟩
      · obtain ⟨read, rest, rfl, hread, hsum, hviolates⟩ := ih hfits ((decodeRank_sign hc hfits _ _).mp h)
        rw [Nat.add_assoc] at hsum hviolates
        exact ⟨c :: read, rest, rfl, List.forall_mem_cons.mpr ⟨hc, hread⟩, hsum, hviolates⟩
  · rintro ⟨read, rest, rfl, hread, hsum, hviolates⟩
    induction read generalizing file with
    | nil => exact decodeRank_violates hfile hviolates
    | cons c read ih =>
      rw [textWidth_cons, ← Nat.add_assoc] at hsum hviolates
      rw [List.forall_mem_cons] at hread
      rw [List.cons_append, decodeRank_sign hread.1 (by omega)]
      exact ih (by omega) hread.2 hsum hviolates

theorem textWidth_text (r : WrittenRank Piece) : textWidth (r.text sign) = r.width := by
  induction r with
  | nil => rfl
  | cons item r ih =>
    cases item with
    | skip n within => rw [WrittenRank.text_skip, textWidth_cons, charWidth_digitChar (by omega), ih, WrittenRank.width_skip]
    | put p =>
      rw [WrittenRank.text_put, sign, List.singleton_append, textWidth_cons, charWidth_symbol, ih, WrittenRank.width_put,
        Nat.add_comm]

/-- A rank is written with its signs. -/
theorem exists_text_iff {cells : List Char} :
    (∃ r : WrittenRank Piece, cells = r.text sign) ↔ ∀ c ∈ cells, c ∈ rankSigns := by
  constructor
  · rintro ⟨r, rfl⟩
    induction r with
    | nil => exact nofun
    | cons item r ih =>
      cases item with
      | skip n within => exact List.forall_mem_cons.mpr ⟨mem_rankSigns.mpr (Or.inl ⟨n, within, rfl⟩), ih⟩
      | put p => exact List.forall_mem_cons.mpr ⟨mem_rankSigns.mpr (Or.inr ⟨p, rfl⟩), ih⟩
  · intro h
    induction cells with
    | nil => exact ⟨[], rfl⟩
    | cons c cells ih =>
      rw [List.forall_mem_cons] at h
      obtain ⟨r, rfl⟩ := ih h.2
      rcases mem_rankSigns.mp h.1 with ⟨n, within, rfl⟩ | ⟨p, rfl⟩
      · exact ⟨.skip n within :: r, rfl⟩
      · exact ⟨.put p :: r, rfl⟩

theorem fullRank_iff {part : List Char} :
    FullRank part ↔ ∃ r : WrittenRank Piece, part = r.text sign ∧ r.width = 8 := by
  constructor
  · rintro ⟨hsigns, hwidth⟩
    obtain ⟨r, rfl⟩ := exists_text_iff.mpr hsigns
    exact ⟨r, rfl, (textWidth_text r).symm.trans hwidth⟩
  · rintro ⟨r, rfl, hwidth⟩
    exact ⟨exists_text_iff.mp ⟨r, rfl⟩, (textWidth_text r).trans hwidth⟩

theorem decodeRank_ok_iff (row : Fin 8) {part : List Char} :
    (∃ occupied, decodeRank row 0 part = .ok occupied) ↔ FullRank part := by
  rw [fullRank_iff]
  constructor
  · rintro ⟨occupied, h⟩
    obtain ⟨r, hpart, hwidth⟩ := exists_of_decodeRank h
    exact ⟨r, hpart, (Nat.zero_add _).symm.trans hwidth⟩
  · rintro ⟨r, rfl, hwidth⟩
    exact ⟨_, decodeRank_text row ((Nat.zero_add _).trans hwidth)⟩

/-! ### Fields -/

theorem getElem?_zip_rows {α : Type} {parts : List α} {i : Nat} {row : Fin 8} {part : α} :
    ((List.finRange 8).zip parts)[i]? = some (row, part) ↔ i = row.val ∧ parts[i]? = some part := by
  rw [List.getElem?_zip_eq_some]
  refine and_congr_left fun _ => ⟨fun h => ?_, ?_⟩
  · obtain ⟨hi, hrow⟩ := List.getElem?_eq_some_iff.mp h
    simpa using congrArg Fin.val hrow
  · rintro rfl
    exact WrittenRank.getElem?_finRange row

/-- A field of eight ranks is refused for what is wrong with it first, any other for the number of its ranks. -/
theorem decodeField_error_iff {field : List Char} {e : FenError} :
    decodeField field = .error e ↔
      (field.splitOn '/').length ≠ 8 ∧ e = .rankCount (field.splitOn '/').length ∨
        (field.splitOn '/').length = 8 ∧ FirstViolation (field.splitOn '/') e := by
  simp only [decodeField]
  generalize field.splitOn '/' = parts
  by_cases hlen : parts.length = 8
  · -- The ranks before one that is refused are read, so they are written in full.
    have hbefore : ∀ i, (∀ x ∈ ((List.finRange 8).zip parts).take i, ∃ occupied, decodeRank x.1 0 x.2 = .ok occupied) ↔
        ∀ d ∈ parts.take i, FullRank d := by
      intro i
      have hparts : parts.take i = (((List.finRange 8).zip parts).take i).map (·.2) := by
        rw [List.map_take, List.map_snd_zip (by simp [hlen])]
      rw [hparts, List.forall_mem_map]
      exact forall₂_congr fun x _ => decodeRank_ok_iff x.1
    simp only [hlen, if_true, bind_error_iff, pure_ne_error, and_false, exists_false, or_false, mapM_error_iff, hbefore,
      ne_eq, not_true_eq_false, false_and, false_or, true_and, FirstViolation]
    constructor
    · rintro ⟨i, ⟨row, part⟩, hpart, hfull, herror⟩
      obtain ⟨rfl, hpart⟩ := getElem?_zip_rows.mp hpart
      obtain ⟨read, rest, hsplit, hread, hsum, hviolates⟩ := (decodeRank_error_iff (Nat.zero_le 8)).mp herror
      rw [Nat.zero_add] at hsum hviolates
      exact ⟨row, part, hpart, hfull, read, rest, hsplit, hread, hsum, hviolates⟩
    · rintro ⟨i, part, hpart, hfull, read, rest, hsplit, hread, hsum, hviolates⟩
      have hi : i < 8 := hlen ▸ (List.getElem?_eq_some_iff.mp hpart).1
      rw [← Nat.zero_add (textWidth read)] at hsum hviolates
      exact ⟨i, (⟨i, hi⟩, part), getElem?_zip_rows.mpr ⟨rfl, hpart⟩, hfull,
        (decodeRank_error_iff (Nat.zero_le 8)).mpr ⟨read, rest, hsplit, hread, hsum, hviolates⟩⟩
  · simp [hlen, eq_comm (b := e)]

theorem decodeField_ok_iff {field : List Char} :
    (∃ occupied, decodeField field = .ok occupied) ↔
      (field.splitOn '/').length = 8 ∧ ∀ part ∈ field.splitOn '/', FullRank part := by
  simp only [decodeField_iff, fullRank_iff]
  constructor
  · rintro ⟨occupied, ranks, hsplit, hlen, hwidth, -⟩
    rw [hsplit]
    refine ⟨(List.length_map _).trans hlen, fun part hpart => ?_⟩
    obtain ⟨r, hr, rfl⟩ := List.mem_map.mp hpart
    exact ⟨r, rfl, hwidth r hr⟩
  · rintro ⟨hlen, hfull⟩
    obtain ⟨ranks, hsplit, hwidth⟩ := exists_map_eq hfull
    exact ⟨_, ranks, hsplit, by rw [← hlen, hsplit, List.length_map], hwidth, rfl⟩

/-! ### Squares -/

/-- A sign stands on the square that the widths before it lead to. -/
theorem cells_text {r : WrittenRank Piece} {k : Nat} {p : Piece} :
    r.cells[k]? = some (some p) ↔ ∃ before after, r.text sign = before ++ p.symbol :: after ∧ k = textWidth before := by
  induction r generalizing k with
  | nil => simp [WrittenRank.cells]
  | cons item r ih =>
    cases item with
    | skip n within =>
      have hcells : WrittenRank.cells (.skip n within :: r) = List.replicate n none ++ WrittenRank.cells r := rfl
      rw [hcells, WrittenRank.text_skip, List.getElem?_append, List.length_replicate]
      constructor
      · intro h
        split at h
        · rename_i hskipped
          rw [List.getElem?_replicate_of_lt hskipped] at h
          cases h
        · obtain ⟨before, after, htext, hk⟩ := ih.mp h
          refine ⟨Nat.digitChar n :: before, after, by rw [htext]; rfl, ?_⟩
          rw [textWidth_cons, charWidth_digitChar (by omega)]
          omega
      · rintro ⟨before, after, htext, hk⟩
        -- The digit is not the sign, so it is one of the characters before.
        rcases List.cons_eq_append_iff.mp htext with ⟨-, hhead⟩ | ⟨before, rfl, hrest⟩
        · exact absurd (List.cons.inj hhead).1 (symbol_ne_digitChar p (by omega))
        · rw [textWidth_cons, charWidth_digitChar (by omega)] at hk
          rw [if_neg (by omega)]
          exact ih.mpr ⟨before, after, hrest, by omega⟩
    | put q =>
      have hcells : WrittenRank.cells (.put q :: r) = some q :: WrittenRank.cells r := rfl
      rw [hcells, WrittenRank.text_put, sign, List.singleton_append]
      constructor
      · intro h
        cases k with
        | zero =>
          cases h
          exact ⟨[], _, rfl, rfl⟩
        | succ k =>
          obtain ⟨before, after, htext, hk⟩ := ih.mp h
          refine ⟨q.symbol :: before, after, by rw [htext]; rfl, ?_⟩
          rw [textWidth_cons, charWidth_symbol]
          omega
      · rintro ⟨before, after, htext, hk⟩
        rcases List.cons_eq_append_iff.mp htext with ⟨rfl, hhead⟩ | ⟨before, rfl, hrest⟩
        · obtain rfl := Piece.symbol_injective (List.cons.inj hhead).1
          rw [hk]
          rfl
        · rw [textWidth_cons, charWidth_symbol, Nat.add_comm] at hk
          rw [hk]
          exact ih.mpr ⟨before, after, hrest, rfl⟩

theorem decodeField_lists {field : List Char} {occupied : Occupied} (h : decodeField field = .ok occupied) :
    Lists (field.splitOn '/') occupied := by
  refine ⟨fun s p => ?_, decodeField_squares h, (decodeField_squares h).imp Square.Before.ne⟩
  obtain ⟨ranks, hsplit, hlen, hwidth, rfl⟩ := decodeField_iff.mp h
  have hrev : s.rankIndex.rev.val = 8 - (s.rank + 1) := Fin.val_rev _
  rw [WrittenRank.mem_listAll fun r hr => (hwidth r hr).le, hrev]
  simp only [hsplit, List.getElem?_map, Option.map_eq_some_iff]
  constructor
  · rintro ⟨r, hr, hcell⟩
    obtain ⟨before, after, htext, hfile⟩ := cells_text.mp hcell
    have hi := (List.getElem?_eq_some_iff.mp hr).1
    have hrank : s.rank < 8 := s.rankIndex.isLt
    exact ⟨_, before, after, ⟨r, hr, htext⟩, hfile, by omega⟩
  · rintro ⟨i, before, after, ⟨r, hr, htext⟩, hfile, hrank⟩
    exact ⟨r, by rw [← hr]; congr 1; omega, cells_text.mpr ⟨before, after, htext, hfile⟩⟩

/-! ### The cursor -/

theorem stride_width {row : Fin 8} {cursor : UInt8} {c : Char} {m : Stride} (h : stride row cursor c = .ok m) :
    m.width.toNat ≤ 8 := by
  unfold stride at h
  split at h
  · split at h
    · cases h
    · cases h
      rw [Nat.toUInt8, UInt8.toNat_ofNat']
      omega
  · split at h
    · cases h
    · split at h
      · cases h
      · split at h
        · cases h
        · cases h
          exact (by decide : (1 : UInt8).toNat ≤ 8)

theorem toNat_moved {cursor width : UInt8} (hcursor : cursor.toNat ≤ 8) (hwidth : width.toNat ≤ 8) :
    (cursor + width).toNat = cursor.toNat + width.toNat := by
  rw [UInt8.toNat_add]
  omega

/-- The cursor in whole numbers. -/
theorem decodeRank_stride (row : Fin 8) (cursor : UInt8) (c : Char) (cells : List Char) :
    decodeRank row cursor.toNat (c :: cells) = do
      let m ← stride row cursor c
      if 8 < cursor.toNat + m.width.toNat then .error (.rankOverflow (row + 1))
      else return m.placed.toList ++ (← decodeRank row (cursor.toNat + m.width.toNat) cells) := by
  rw [decodeRank, stride]
  cases digit? c with
  | some n =>
    by_cases hskip : n = 0 ∨ 8 < n
    · simp only [if_pos hskip]
      rfl
    · have hwidth : n.toUInt8.toNat = n := by
        rw [Nat.toUInt8, UInt8.toNat_ofNat']
        omega
      simp only [if_neg hskip]
      show _ = if 8 < cursor.toNat + n.toUInt8.toNat then _ else _
      rw [hwidth]
      refine if_congr Iff.rfl rfl ?_
      cases decodeRank row (cursor.toNat + n) cells <;> rfl
  | none =>
    cases Piece.ofSymbol? c with
    | none => rfl
    | some p =>
      by_cases hfile : cursor.toNat < 8
      · have hbefore : ¬ 7 < cursor := fun h => absurd (UInt8.lt_iff_toNat_lt.mp h) (Nat.not_lt.mpr (Nat.le_of_lt_succ hfile))
        have hafter : ¬ 8 < cursor.toNat + (1 : UInt8).toNat := Nat.not_lt.mpr hfile
        simp only [dif_pos hfile, if_neg hbefore, Square.ofCoords?_eq hfile]
        exact (if_neg hafter).symm
      · have hbeyond : 7 < cursor := UInt8.lt_iff_toNat_lt.mpr (Nat.lt_of_succ_le (Nat.not_lt.mp hfile))
        simp only [dif_neg hfile, if_pos hbeyond]
        rfl

/-- One byte is enough for the cursor. -/
theorem scanRank_eq {row : Fin 8} {cursor : UInt8} (hcursor : cursor.toNat ≤ 8) (cells : List Char) :
    scanRank row cursor cells = decodeRank row cursor.toNat cells := by
  induction cells generalizing cursor with
  | nil => exact if_congr UInt8.toNat_inj.symm rfl rfl
  | cons c cells ih =>
    rw [scanRank, decodeRank_stride]
    cases hm : stride row cursor c with
    | error e => rfl
    | ok m =>
      have hmoved := toNat_moved hcursor (stride_width hm)
      have hbeyond : 8 < cursor + m.width ↔ 8 < cursor.toNat + m.width.toNat := by
        rw [UInt8.lt_iff_toNat_lt, hmoved]
        rfl
      show (if _ then _ else _) = if _ then _ else _
      by_cases h : 8 < cursor.toNat + m.width.toNat
      · rw [if_pos (hbeyond.mpr h), if_pos h]
      · rw [if_neg (hbeyond.not.mpr h), if_neg h, ih (by omega), hmoved]

/-- The cursor never comes to more than sixteen. -/
theorem cursorSums_le {row : Fin 8} {cursor : UInt8} (hcursor : cursor.toNat ≤ 8) (cells : List Char) :
    ∀ n ∈ cursorSums row cursor cells, n ≤ 16 := by
  induction cells generalizing cursor with
  | nil => exact nofun
  | cons c cells ih =>
    rw [cursorSums]
    cases hm : stride row cursor c with
    | error e => exact nofun
    | ok m =>
      have hwidth := stride_width hm
      refine List.forall_mem_cons.mpr ⟨by omega, ?_⟩
      split
      · exact nofun
      · rename_i hbeyond
        rw [UInt8.lt_iff_toNat_lt] at hbeyond
        exact ih (Nat.not_lt.mp hbeyond)

example : cursorSums 0 0 ['8', '8', '1'] = [8, 16] := by decide

/-! ### Texts -/

/-- The decoder of placements: which texts it accepts, what it reads, and for all others which of their faults it names.
    It reads along each rank with a cursor for which one byte is enough, as it comes to sixteen at most. -/
theorem decode_language (text : String) :
    ((∃ occupied, decode text = .ok occupied) ↔ ∃ field, Text.firstField? text.toList = some field ∧
      (field.splitOn '/').length = 8 ∧ ∀ part ∈ field.splitOn '/', FullRank part) ∧
    (∀ occupied, decode text = .ok occupied →
      ∃ field, Text.firstField? text.toList = some field ∧ Lists (field.splitOn '/') occupied) ∧
    (∀ e, decode text = .error e ↔ Text.firstField? text.toList = none ∧ e = .empty ∨
      ∃ field, Text.firstField? text.toList = some field ∧
        ((field.splitOn '/').length ≠ 8 ∧ e = .rankCount (field.splitOn '/').length ∨
          (field.splitOn '/').length = 8 ∧ FirstViolation (field.splitOn '/') e)) ∧
    ∀ row cells, scanRank row 0 cells = decodeRank row 0 cells ∧ ∀ n ∈ cursorSums row 0 cells, n ≤ 16 := by
  have hstart : (0 : UInt8).toNat ≤ 8 := by decide
  rw [← and_assoc, ← and_assoc]
  refine ⟨?_, fun row cells => ⟨scanRank_eq hstart cells, cursorSums_le hstart cells⟩⟩
  simp only [decode, decodeText]
  cases Text.firstField? text.toList with
  | none => simp [eq_comm (a := FenError.empty)]
  | some field =>
    refine ⟨⟨?_, fun occupied h => ⟨field, rfl, decodeField_lists h⟩⟩, fun e => ?_⟩
    · simp only [Option.some.injEq, exists_eq_left', decodeField_ok_iff]
    · simp only [reduceCtorEq, false_and, false_or, Option.some.injEq, exists_eq_left', decodeField_error_iff]

/-- A pawn on d4, and a rank that is too wide before it has a letter that is no piece. -/
theorem decode_language_first_fault :
    (∃ occupied, decode "44/8/8/8/3P4/8/8/8 w" = .ok occupied ∧ (27, ⟨.white, .pawn⟩) ∈ occupied) ∧
      decode "8/45x/9/8/8/8/8/8" = .error (.rankOverflow 2) := by
  constructor
  · have hfield : Text.firstField? "44/8/8/8/3P4/8/8/8 w".toList = some "44/8/8/8/3P4/8/8/8".toList := by decide +kernel
    obtain ⟨haccepts, hreads, -, -⟩ := decode_language "44/8/8/8/3P4/8/8/8 w"
    obtain ⟨occupied, hocc⟩ := haccepts.mpr ⟨_, hfield, by decide +kernel, by decide +kernel⟩
    obtain ⟨field, hfield', hlists⟩ := hreads occupied hocc
    obtain rfl := Option.some.inj (hfield.symm.trans hfield')
    exact ⟨occupied, hocc, (hlists.pieces 27 _).mpr ⟨4, ['3'], ['4'], by decide +kernel, rfl, rfl⟩⟩
  · obtain ⟨-, -, hrefuses, -⟩ := decode_language "8/45x/9/8/8/8/8/8"
    have hfield : Text.firstField? "8/45x/9/8/8/8/8/8".toList = some "8/45x/9/8/8/8/8/8".toList := by decide +kernel
    refine (hrefuses _).mpr (Or.inr ⟨_, hfield, Or.inr ⟨by decide +kernel, 1, ['4', '5', 'x'], by decide +kernel, ?_, ['4'],
      ['5', 'x'], rfl, List.forall_mem_singleton.mpr (by decide), by decide, .overflow (by decide) (by decide)⟩⟩)
    have htake : ("8/45x/9/8/8/8/8/8".toList.splitOn '/').take 1 = [['8']] := by decide +kernel
    rw [htake]
    exact List.forall_mem_singleton.mpr (by decide)

end Placement
end ChessArchive
