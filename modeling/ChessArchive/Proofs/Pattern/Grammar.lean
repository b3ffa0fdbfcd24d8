import ChessArchive.Pattern.Compile
import ChessArchive.Proofs.Rank
import ChessArchive.Proofs.Reading

/-! The grammar of patterns. A pattern is written by at most eight ranks, none wider than the board, whose signs are
    single pieces and groups of alternatives; and it asks of each square just what the sign for it says. -/

namespace ChessArchive
namespace Pattern

/-! ### What is written -/

/-- A sign of a pattern: one piece, or a group of alternatives. -/
inductive Alternatives where
  | one (p : Piece)
  | group (first : Piece) (others : List Piece)

namespace Alternatives

/-- The alternatives of a group after its first one, and its closing bracket. -/
def tail (others : List Piece) : List Char := (others.flatMap fun p => ['|', p.symbol]) ++ [']']

def text : Alternatives → List Char
  | one p => [p.symbol]
  | group first others => '[' :: first.symbol :: tail others

/-- The pieces that are written. -/
def pieces : Alternatives → List Piece
  | one p => [p]
  | group first others => first :: others

def first : Alternatives → Piece
  | one p => p
  | group first _ => first

theorem first_mem_pieces (a : Alternatives) : a.first ∈ a.pieces := by
  cases a <;> exact List.mem_cons_self

/-- The pieces as a set. -/
def allowed : Alternatives → PieceSet
  | one p => .single p
  | group first others => others.foldl .insert (PieceSet.empty.insert first)

end Alternatives

/-- A field is written by ranks that fit on the board. -/
structure Writes (field : List Char) (ranks : List (WrittenRank Alternatives)) : Prop where
  split : field.splitOn '/' = ranks.map (·.text Alternatives.text)
  count : ranks.length ≤ 8
  width : ∀ r ∈ ranks, r.width ≤ 8

/-- What a sign asks of its square. -/
def constraintOf (e : Square × Alternatives) : Constraint := ⟨e.1, e.2.allowed⟩

theorem contains_foldl_insert (ps : List Piece) (set : PieceSet) (q : Piece) :
    (ps.foldl .insert set).contains q = true ↔ set.contains q = true ∨ q ∈ ps := by
  induction ps generalizing set with
  | nil => simp
  | cons p ps ih =>
    rw [List.foldl_cons, ih]
    simp [eq_comm (a := p), or_assoc]

theorem contains_allowed (a : Alternatives) (q : Piece) : a.allowed.contains q = true ↔ q ∈ a.pieces := by
  cases a with
  | one p => simp [Alternatives.allowed, Alternatives.pieces, eq_comm]
  | group first others =>
    rw [Alternatives.allowed, contains_foldl_insert]
    simp [Alternatives.pieces, eq_comm (a := first)]

/-! ### Groups -/

theorem symbol_ne (p : Piece) : p.symbol ≠ '[' ∧ p.symbol ≠ ']' ∧ p.symbol ≠ '|' := by
  rcases p with ⟨c, k⟩
  cases c <;> cases k <;> decide

/-- The rest of a group is read as the pieces that are written there. -/
theorem compileGroup_tail (rank start : Nat) {others : List Piece} {set : PieceSet} {inside rest : List Cell}
    (h : inside.map (·.2) = Alternatives.tail others) :
    compileGroup rank start false set (inside ++ rest) = .ok ⟨others.foldl .insert set, rest⟩ := by
  induction others generalizing inside set with
  | nil =>
    obtain ⟨⟨column, c⟩, rfl, rfl⟩ := List.map_eq_singleton_iff.mp h
    rfl
  | cons p others ih =>
    obtain ⟨⟨column, c⟩, inside, rfl, rfl, hafter⟩ := List.map_eq_cons_iff.mp h
    obtain ⟨⟨column', c⟩, inside, rfl, rfl, hothers⟩ := List.map_eq_cons_iff.mp hafter
    simp only [List.cons_append, compileGroup, if_neg (show ¬ '|' = ']' by decide), if_neg (symbol_ne p).2.1,
      if_neg (symbol_ne p).2.2, if_true, Bool.false_eq_true, if_false, Piece.ofSymbol?_symbol]
    exact ih hothers

theorem compileGroup_first (rank start : Nat) {first : Piece} {others : List Piece} {inside : List Cell}
    (h : inside.map (·.2) = first.symbol :: Alternatives.tail others) (rest : List Cell) :
    compileGroup rank start true .empty (inside ++ rest) = .ok ⟨(Alternatives.group first others).allowed, rest⟩ := by
  obtain ⟨⟨column, c⟩, inside, rfl, rfl, hothers⟩ := List.map_eq_cons_iff.mp h
  simp only [List.cons_append, compileGroup, symbol_ne first, if_true, if_false, Piece.ofSymbol?_symbol]
  exact compileGroup_tail rank start hothers

/-- What is read as a group is one. The bar before an alternative that is expected is not read here. -/
theorem exists_of_compileGroup {rank start : Nat} {expecting : Bool} {set : PieceSet} {cells : List Cell} {g : Group}
    (h : compileGroup rank start expecting set cells = .ok g) :
    ∃ others inside, cells = inside ++ g.rest ∧
      (if expecting then ['|'] else []) ++ inside.map (·.2) = Alternatives.tail others := by
  induction cells generalizing expecting set with
  | nil => cases h
  | cons x cells ih =>
    obtain ⟨column, c⟩ := x
    unfold compileGroup at h
    split at h
    · rename_i hc
      subst hc
      cases expecting with
      | true => cases h
      | false =>
        cases h
        exact ⟨[], [(column, ']')], rfl, rfl⟩
    · split at h
      · rename_i hc
        subst hc
        cases expecting with
        | true => cases h
        | false =>
          obtain ⟨others, inside, rfl, htail⟩ := ih h
          exact ⟨others, (column, '|') :: inside, rfl, htail⟩
      · cases expecting with
        | false => cases h
        | true =>
          simp only [if_true] at h
          split at h
          · rename_i p hp
            obtain rfl := Piece.eq_symbol_of_ofSymbol? hp
            obtain ⟨others, inside, rfl, htail⟩ := ih h
            exact ⟨p :: others, (column, p.symbol) :: inside, rfl, congrArg (['|', p.symbol] ++ ·) htail⟩
          · cases h

/-! ### Ranks -/

theorem skip?_eq_some {c : Char} {n : Nat} : skip? c = some n ↔ (1 ≤ n ∧ n ≤ 8) ∧ c = Nat.digitChar n := by
  simp only [skip?, Option.filter_eq_some_iff, Placement.digit?_eq_some, Bool.and_eq_true, decide_eq_true_eq]
  exact ⟨fun ⟨⟨_, hc⟩, hn⟩ => ⟨hn, hc⟩, fun ⟨hn, hc⟩ => ⟨⟨by omega, hc⟩, hn⟩⟩

theorem place_eq {file : Nat} (h : file < 8) (row : Fin 8) (column : Nat) (allowed : PieceSet) :
    place row file column allowed = .ok ⟨.ofFileRank ⟨file, h⟩ row.rev, allowed⟩ :=
  dif_pos h

theorem lt_of_place {row : Fin 8} {file column : Nat} {allowed : PieceSet} {constraint : Constraint}
    (h : place row file column allowed = .ok constraint) : file < 8 := by
  by_contra hfile
  rw [place, dif_neg hfile] at h
  cases h

theorem skip?_symbol (p : Piece) : skip? p.symbol = none := by
  rw [skip?, Placement.digit?_symbol]
  rfl

/-- A written rank that fits on the board is read as what its signs ask of their squares. -/
theorem compileRank_text (row : Fin 8) {file : Nat} {r : WrittenRank Alternatives} {cells : List Cell}
    (h : cells.map (·.2) = r.text Alternatives.text) (hwidth : file + r.width ≤ 8) :
    compileRank row file cells = .ok ((r.listing row.rev file).map constraintOf) := by
  induction r generalizing file cells with
  | nil =>
    rw [List.map_eq_nil_iff.mp h, compileRank]
    rfl
  | cons item r ih =>
    cases item with
    | skip n within =>
      rw [WrittenRank.width_skip] at hwidth
      obtain ⟨⟨column, c⟩, cells, rfl, rfl, hrest⟩ := List.map_eq_cons_iff.mp h
      have hskip : skip? (Nat.digitChar n) = some n := skip?_eq_some.mpr ⟨within, rfl⟩
      rw [compileRank]
      simp only [hskip, if_neg (show ¬ 8 < file + n by omega)]
      exact ih hrest (by omega)
    | put a =>
      rw [WrittenRank.width_put] at hwidth
      have hfile : file < 8 := by omega
      rw [WrittenRank.listing_put hfile, List.map_cons]
      cases a with
      | one p =>
        obtain ⟨⟨column, c⟩, cells, rfl, rfl, hrest⟩ := List.map_eq_cons_iff.mp h
        rw [compileRank]
        simp only [skip?_symbol, symbol_ne p, or_self, if_false, Piece.ofSymbol?_symbol, place_eq hfile]
        exact bind_ok_iff.mpr ⟨_, rfl, bind_ok_iff.mpr ⟨_, ih hrest (by omega), rfl⟩⟩
      | group first others =>
        obtain ⟨⟨column, c⟩, cells, rfl, rfl, hgroup⟩ := List.map_eq_cons_iff.mp h
        obtain ⟨inside, cells, rfl, hinside, hrest⟩ := List.map_eq_append_iff.mp hgroup
        have hread := compileGroup_first (row + 1) column hinside cells
        have hskip : skip? '[' = none := by decide
        rw [compileRank]
        simp only [hskip, if_true]
        split
        · rename_i heq
          cases hread.symm.trans heq
        · rename_i heq
          obtain rfl := Except.ok.inj (hread.symm.trans heq)
          exact bind_ok_iff.mpr ⟨_, place_eq hfile .., bind_ok_iff.mpr ⟨_, ih hrest (by omega), rfl⟩⟩

/-- What is read as a rank is written by items that fit on the board. -/
theorem exists_of_compileRank {row : Fin 8} {file : Nat} {cells : List Cell} {constraints : List Constraint}
    (h : compileRank row file cells = .ok constraints) (hfile : file ≤ 8) :
    ∃ r : WrittenRank Alternatives, cells.map (·.2) = r.text Alternatives.text ∧ file + r.width ≤ 8 := by
  fun_induction compileRank row file cells generalizing constraints with
  | case1 file => exact ⟨[], rfl, hfile⟩
  | case2 => cases h
  | case3 file column c cells n hskip hfits ih =>
    obtain ⟨within, rfl⟩ := skip?_eq_some.mp hskip
    obtain ⟨r, htext, hwidth⟩ := ih h (by omega)
    refine ⟨.skip n within :: r, ?_, by rw [WrittenRank.width_skip]; omega⟩
    rw [WrittenRank.text_skip, ← htext, List.map_cons]
  | case4 => cases h
  | case5 file column cells g hgroup hskip ih =>
    obtain ⟨constraint, hplace, h⟩ := bind_ok_iff.mp h
    obtain ⟨later, hlater, -⟩ := bind_ok_iff.mp h
    have hon := lt_of_place hplace
    obtain ⟨r, htext, hwidth⟩ := ih hlater (by omega)
    obtain ⟨others, inside, hcells, htail⟩ := exists_of_compileGroup hgroup
    -- A group that begins with an alternative is not the end of one.
    cases others with
    | nil => exact absurd (List.cons.inj htail).1 (by decide)
    | cons first others =>
      have hinside : inside.map (·.2) = first.symbol :: Alternatives.tail others := (List.cons.inj htail).2
      refine ⟨.put (.group first others) :: r, ?_, by rw [WrittenRank.width_put]; omega⟩
      rw [WrittenRank.text_put, ← htext, hcells, List.map_cons, List.map_append, hinside]
      rfl
  | case6 => cases h
  | case7 => cases h
  | case8 file column c cells hskip hbracket hother p hp ih =>
    obtain ⟨constraint, hplace, h⟩ := bind_ok_iff.mp h
    obtain ⟨later, hlater, -⟩ := bind_ok_iff.mp h
    have hon := lt_of_place hplace
    obtain ⟨r, htext, hwidth⟩ := ih hlater (by omega)
    obtain rfl := Piece.eq_symbol_of_ofSymbol? hp
    refine ⟨.put (.one p) :: r, ?_, by rw [WrittenRank.width_put]; omega⟩
    rw [WrittenRank.text_put, ← htext, List.map_cons]
    rfl

/-! ### Patterns -/

theorem map_numbered (rank : List Char) : (numbered rank).map (·.2) = rank := by
  rw [numbered, List.map_map]
  exact List.zipIdx_map_fst 1 rank

/-- Written ranks that fit on the board are read as what their signs ask of their squares. -/
theorem compileRanks_text {row : Nat} {ranks : List (WrittenRank Alternatives)} (hcount : row + ranks.length ≤ 8)
    (hwidth : ∀ r ∈ ranks, r.width ≤ 8) :
    compileRanks row (ranks.map (·.text Alternatives.text)) = .ok
      (((((List.finRange 8).drop row).zip ranks).flatMap fun (row, r) => r.listing row.rev 0).map constraintOf) := by
  induction ranks generalizing row with
  | nil => simp [compileRanks]
  | cons r ranks ih =>
    rw [List.length_cons] at hcount
    rw [List.forall_mem_cons] at hwidth
    have hrow : row < 8 := by omega
    have hdrop : (List.finRange 8).drop row = ⟨row, hrow⟩ :: (List.finRange 8).drop (row + 1) := by
      rw [List.drop_eq_getElem_cons (by simpa using hrow), List.getElem_finRange]
      rfl
    have hhere := compileRank_text ⟨row, hrow⟩ (map_numbered (r.text Alternatives.text))
      ((Nat.zero_add _).trans_le hwidth.1)
    rw [List.map_cons, compileRanks, dif_pos hrow, hdrop, List.zip_cons_cons, List.flatMap_cons, List.map_append]
    exact bind_ok_iff.mpr ⟨_, hhere, bind_ok_iff.mpr ⟨_, ih (by omega) hwidth.2, rfl⟩⟩

/-- What is read as ranks is written by ranks that fit on the board. -/
theorem exists_of_compileRanks {row : Nat} {parts : List (List Char)} {constraints : List Constraint}
    (h : compileRanks row parts = .ok constraints) (hrow : row ≤ 8) :
    ∃ ranks : List (WrittenRank Alternatives), parts = ranks.map (·.text Alternatives.text) ∧
      row + ranks.length ≤ 8 ∧ ∀ r ∈ ranks, r.width ≤ 8 := by
  induction parts generalizing row constraints with
  | nil => exact ⟨[], rfl, hrow, nofun⟩
  | cons part parts ih =>
    unfold compileRanks at h
    split at h
    · obtain ⟨here, hhere, h⟩ := bind_ok_iff.mp h
      obtain ⟨later, hlater, -⟩ := bind_ok_iff.mp h
      obtain ⟨r, htext, hwidth⟩ := exists_of_compileRank hhere (Nat.zero_le 8)
      obtain ⟨ranks, rfl, hcount, hwidths⟩ := ih hlater (by omega)
      rw [map_numbered] at htext
      refine ⟨r :: ranks, congrArg (· :: _) htext, ?_, ?_⟩
      · rw [List.length_cons]
        omega
      · rw [List.forall_mem_cons]
        exact ⟨by omega, hwidths⟩
    · cases h

/-- A text is read as a pattern exactly if its first field is written by ranks that fit on the board, and what is
    read is what the signs ask of their squares. -/
theorem compile_iff {text : String} {p : Pattern} :
    compile text = .ok p ↔ ∃ ranks, Writes ((Text.firstField? text.toList).getD []) ranks ∧
      p.constraints = (WrittenRank.listAll ranks).map constraintOf := by
  unfold compile
  generalize (Text.firstField? text.toList).getD [] = field
  rw [map_ok_iff]
  constructor
  · rintro ⟨constraints, hread, rfl⟩
    obtain ⟨ranks, hsplit, hcount, hwidth⟩ := exists_of_compileRanks hread (Nat.zero_le 8)
    rw [Nat.zero_add] at hcount
    rw [hsplit, compileRanks_text (by omega) hwidth] at hread
    exact ⟨ranks, ⟨hsplit, hcount, hwidth⟩, (Except.ok.inj hread).symm⟩
  · rintro ⟨ranks, hwrites, hp⟩
    refine ⟨p.constraints, ?_, rfl⟩
    rw [hwrites.split, compileRanks_text ((Nat.zero_add _).trans_le hwrites.count) hwrites.width, hp]
    rfl

/-! ### What a pattern says -/

/-- A pattern with each square once has a rule for a square if that is one of its constraints. -/
theorem rule?_iff {p : Pattern} (h : (p.constraints.map (·.square)).Nodup) {s : Square} {set : PieceSet} :
    p.rule? s = some set ↔ ⟨s, set⟩ ∈ p.constraints := by
  rw [rule?, Option.map_eq_some_iff]
  constructor
  · rintro ⟨c, hfound, rfl⟩
    have hs : c.square = s := by simpa using List.find?_some hfound
    subst hs
    exact List.mem_reverse.mp (List.mem_of_find?_eq_some hfound)
  · intro hc
    cases hfound : p.constraints.reverse.find? (·.square == s) with
    | none => simpa using List.find?_eq_none.mp hfound _ (List.mem_reverse.mpr hc)
    | some c =>
      have hs : c.square = s := by simpa using List.find?_some hfound
      have hmem : c ∈ p.constraints := List.mem_reverse.mp (List.mem_of_find?_eq_some hfound)
      exact ⟨c, rfl, congrArg Constraint.allowed (List.inj_on_of_nodup_map h hmem hc hs)⟩

/-- The compiler of patterns: it accepts its grammar, and what it compiles says of the board what is written. -/
theorem compile_grammar (text : String) :
    ((∃ p, compile text = .ok p) ↔ ∃ ranks, Writes ((Text.firstField? text.toList).getD []) ranks) ∧
    ∀ p, compile text = .ok p →
      (∀ ranks, Writes ((Text.firstField? text.toList).getD []) ranks →
        List.Forall₂ (fun c e => c.square = e.1 ∧ ∀ q, c.allowed.contains q = true ↔ q ∈ e.2.pieces) p.constraints
          (WrittenRank.listAll ranks)) ∧
      (p.constraints.map (·.square)).Nodup ∧ (∀ c ∈ p.constraints, c.allowed.isEmpty = false) ∧
      ∀ s set, p.rule? s = some set ↔ ⟨s, set⟩ ∈ p.constraints := by
  refine ⟨⟨fun ⟨p, hp⟩ => ?_, fun ⟨ranks, hranks⟩ => ⟨⟨_⟩, compile_iff.mpr ⟨ranks, hranks, rfl⟩⟩⟩, fun p hp => ?_⟩
  · obtain ⟨ranks, hranks, -⟩ := compile_iff.mp hp
    exact ⟨ranks, hranks⟩
  · obtain ⟨ranks, hranks, hp'⟩ := compile_iff.mp hp
    have hnodup : (p.constraints.map (·.square)).Nodup := by
      rw [hp', List.map_map]
      exact (WrittenRank.listAll_squares ranks).imp Square.Before.ne
    refine ⟨fun written hwritten => ?_, hnodup, fun c hc => ?_, fun s set => rule?_iff hnodup⟩
    · obtain rfl := Except.ok.inj (hp.symm.trans (compile_iff.mpr ⟨written, hwritten, rfl⟩))
      rw [List.forall₂_map_left_iff, List.forall₂_same]
      exact fun e _ => ⟨rfl, contains_allowed e.2⟩
    · rw [hp'] at hc
      obtain ⟨e, -, rfl⟩ := List.mem_map.mp hc
      exact PieceSet.isEmpty_of_contains ((contains_allowed e.2 _).mpr e.2.first_mem_pieces)

theorem compile_grammar_group :
    ∃ p, compile "8/2[P|N]k w" = .ok p ∧ p.rule? 50 = some ⟨3#12⟩ ∧ p.rule? 51 = some ⟨2048#12⟩ ∧ p.rule? 52 = none := by
  let ranks : List (WrittenRank Alternatives) := [[.skip 8 (by decide)],
    [.skip 2 (by decide), .put (.group ⟨.white, .pawn⟩ [⟨.white, .knight⟩]), .put (.one ⟨.black, .king⟩)]]
  have hwrites : Writes ((Text.firstField? "8/2[P|N]k w".toList).getD []) ranks :=
    ⟨by decide +kernel, by decide, by decide⟩
  have hp := compile_iff.mpr ⟨ranks, hwrites, rfl⟩
  have hrule := ((compile_grammar _).2 _ hp).2.2.2
  exact ⟨_, hp, (hrule 50 _).mpr (by decide), (hrule 51 _).mpr (by decide), by decide⟩

end Pattern
end ChessArchive
