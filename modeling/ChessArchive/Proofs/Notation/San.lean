import ChessArchive.Notation.San
import ChessArchive.Proofs.Board.Distinct
import ChessArchive.Proofs.Text.Blank

/-! Algebraic notation, written and read back. Whatever of the square that a move comes from is written, as long as it
    tells the move apart, with a sign of capture or without it, marks after the move and blanks around it: what is read
    is the move. -/

namespace ChessArchive
namespace San

/-! ### What is written -/

/-- The letter before a move of a kind. -/
def kindText : Kind → List Char
  | .pawn => []
  | k => [k.upper]

/-- What is written of the square that a move comes from: nothing, its file, its rank or both. -/
structure Origin where
  file : Bool
  rank : Bool

def Origin.text (o : Origin) (s : Square) : List Char :=
  (if o.file then [Square.fileLetter s.file] else []) ++ if o.rank then [Square.rankDigit s.rank] else []

/-- What is said of a move by its text. -/
def Origin.spec (o : Origin) (k : Kind) (m : Move) : MoveSpec :=
  ⟨k, if o.file then some m.source.fileIndex else none, if o.rank then some m.source.rankIndex else none, m.target,
    m.promotion⟩

/-- Among the legal moves of the same kind of piece with the same target and promotion, only `m` comes from there. -/
def Origin.Tells (o : Origin) (b : Board) (m : Move) : Prop :=
  ∀ m' ∈ b.legalMoves, b.piece? m'.source = b.piece? m.source → m'.target = m.target → m'.promotion = m.promotion →
    (o.file = true → m'.source.file = m.source.file) → (o.rank = true → m'.source.rank = m.source.rank) → m' = m

/-- The letter of what a pawn becomes, with an equals sign before it or without. -/
def promotionText (equals : Bool) : Option Kind → List Char
  | none => []
  | some k => (if equals then ['='] else []) ++ [k.upper]

/-- Castling to the right or to the left of the king, with letters or with zeros. -/
def castlingText (right zeros : Bool) : List Char :=
  let c := if zeros then '0' else 'O'
  if right then [c, '-', c] else [c, '-', c, '-', c]

/-- A move that is not castling. -/
def moveText (k : Kind) (o : Origin) (m : Move) (takes equals : Bool) : List Char :=
  kindText k ++ o.text m.source ++ (if takes then ['x'] else []) ++ m.target.name ++ promotionText equals m.promotion

/-- The ways to write a legal move. -/
inductive Writes (b : Board) (m : Move) : List Char → Prop where
  | castling (zeros : Bool) : b.isCastling m = true →
      Writes b m (castlingText (m.source.file < m.target.file) zeros)
  | move {k : Kind} (o : Origin) (takes equals : Bool) : b.isCastling m = false →
      b.piece? m.source = some ⟨b.side, k⟩ → o.Tells b m → Writes b m (moveText k o m takes equals)

/-! ### The characters -/

/-- A character that neither trimming nor the marks take away. -/
def isSolid (c : Char) : Bool := !Text.isBlank c && !isMark c

/-- A solid character other than a dash, which every text for castling has. -/
def isUndashed (c : Char) : Bool := isSolid c && c != '-'

theorem solid_castlingText (right zeros : Bool) : (castlingText right zeros).all isSolid = true := by
  cases right <;> cases zeros <;> decide

theorem undashed_name : ∀ s : Square, s.name.all isUndashed = true := by decide

theorem undashed_origin (o : Origin) : ∀ s : Square, (o.text s).all isUndashed = true := by
  rcases o with ⟨_ | _, _ | _⟩ <;> decide

theorem undashed_moveText (k : Kind) (o : Origin) (m : Move) (takes equals : Bool) :
    (moveText k o m takes equals).all isUndashed = true := by
  have hkind : (kindText k).all isUndashed = true := by cases k <;> decide
  have htakes : (if takes then ['x'] else []).all isUndashed = true := by cases takes <;> decide
  have hpromotion : (promotionText equals m.promotion).all isUndashed = true := by
    rcases m.promotion with _ | k
    · rfl
    · cases equals <;> cases k <;> decide
  simp only [moveText, List.all_append, hkind, undashed_origin, htakes, undashed_name, hpromotion, Bool.and_self]

theorem solid_moveText (k : Kind) (o : Origin) (m : Move) (takes equals : Bool) :
    (moveText k o m takes equals).all isSolid = true := by
  rw [List.all_eq_true]
  intro c hc
  exact (Bool.and_eq_true_iff.mp (List.all_eq_true.mp (undashed_moveText k o m takes equals) c hc)).1

/-- Squares are written without capital letters. -/
theorem not_upper_coords : ∀ s : Square,
    (Square.fileLetter s.file).isUpper = false ∧ (Square.rankDigit s.rank).isUpper = false := by decide

theorem isBlank_of_isMark {c : Char} (h : isMark c = true) : Text.isBlank c = false := by
  simp only [isMark, Bool.or_eq_true, beq_iff_eq] at h
  rcases h with ((rfl | rfl) | rfl) | rfl <;> decide

theorem core_written {before s marks after : List Char} (hbefore : Text.allBlank before = true)
    (hafter : Text.allBlank after = true) (hmarks : marks.all isMark = true) (hs : s.all isSolid = true) :
    core (String.ofList (before ++ (s ++ marks) ++ after)) = s := by
  simp only [List.all_eq_true, isSolid, Bool.and_eq_true, Bool.not_eq_true'] at hs hmarks
  have hblank : ∀ c ∈ s ++ marks, Text.isBlank c = false := by
    rw [List.forall_mem_append]
    exact ⟨fun c hc => (hs c hc).1, fun c hc => isBlank_of_isMark (hmarks c hc)⟩
  rw [core, String.toList_ofList, Text.trim_around hbefore hafter hblank]
  exact Text.dropEndWhile_append (fun c hc => (hs c hc).2) hmarks

/-! ### What is read -/

theorem castlingWing?_castlingText (right zeros : Bool) : castlingWing? (castlingText right zeros) = some right := by
  cases right <;> cases zeros <;> decide

/-- A text that castling is never written like is not castling. -/
theorem castlingWing?_of_all {p : Char → Bool} (hp : ["O-O", "0-0", "O-O-O", "0-0-0"].all (!·.toList.all p) = true)
    {s : List Char} (hs : s.all p = true) : castlingWing? s = none := by
  have hnot : ∀ t ∈ ["O-O", "0-0", "O-O-O", "0-0-0"], s ≠ t.toList := by
    rintro t ht rfl
    simpa [hs] using List.all_eq_true.mp hp t ht
  simp only [List.forall_mem_cons] at hnot
  obtain ⟨hshort, hshort', hlong, hlong', -⟩ := hnot
  rw [castlingWing?, if_neg (not_or.mpr ⟨hshort, hshort'⟩), if_neg (not_or.mpr ⟨hlong, hlong'⟩)]

theorem castlingWing?_moveText (k : Kind) (o : Origin) (m : Move) (takes equals : Bool) :
    castlingWing? (moveText k o m takes equals) = none :=
  castlingWing?_of_all (by decide) (undashed_moveText k o m takes equals)

theorem readKind_kindText {k : Kind} {c : Char} (hc : c.isUpper = false) (s : List Char) :
    MoveSpec.readKind (kindText k ++ c :: s) = some (k, c :: s) := by
  cases k with
  | pawn => simp [kindText, MoveSpec.readKind, hc]
  | knight | bishop | rook | queen | king => rfl

theorem readOrigin_text (o : Origin) : ∀ s : Square, MoveSpec.readOrigin (o.text s) =
    some (if o.file then some s.fileIndex else none, if o.rank then some s.rankIndex else none) := by
  rcases o with ⟨_ | _, _ | _⟩ <;> decide

/-- The signs that are passed over. -/
theorem filter_moveText (k : Kind) (o : Origin) (m : Move) (takes equals : Bool) :
    (moveText k o m takes equals).filter (fun c => c != 'x' && c != '=') =
      kindText k ++ (o.text m.source ++ m.target.name ++ (m.promotion.map Kind.upper).toList) := by
  have hkind : (kindText k).filter (fun c => c != 'x' && c != '=') = kindText k := by cases k <;> decide
  have horigin : ∀ s : Square, (o.text s).filter (fun c => c != 'x' && c != '=') = o.text s := by
    rcases o with ⟨_ | _, _ | _⟩ <;> decide
  have htakes : (if takes then ['x'] else []).filter (fun c => c != 'x' && c != '=') = [] := by cases takes <;> decide
  have hname : ∀ s : Square, s.name.filter (fun c => c != 'x' && c != '=') = s.name := by decide
  have hpromotion : (promotionText equals m.promotion).filter (fun c => c != 'x' && c != '=') =
      (m.promotion.map Kind.upper).toList := by
    rcases m.promotion with _ | k
    · rfl
    · cases equals <;> cases k <;> decide
  simp only [moveText, List.filter_append, hkind, horigin, htakes, hname, hpromotion, List.nil_append,
    List.append_assoc]

theorem readPromotion_text {k : Kind} {promotion : Option Kind} (h : promotion ≠ none → k = .pawn) (s : List Char)
    (t : Square) : MoveSpec.readPromotion k (s ++ t.name ++ (promotion.map Kind.upper).toList) =
      some (promotion, s ++ t.name) := by
  cases promotion with
  | none =>
    simp [MoveSpec.readPromotion, Square.name, (not_upper_coords t).2]
  | some k' =>
    have hupper : k'.upper.isUpper = true := by cases k' <;> decide
    simp [MoveSpec.readPromotion, h, hupper, Kind.ofLetter?_upper]

theorem parse_moveText {k : Kind} {m : Move} (h : m.promotion ≠ none → k = .pawn) (o : Origin) (takes equals : Bool) :
    MoveSpec.parse (moveText k o m takes equals) = some (o.spec k m) := by
  -- A pawn's text begins with what is left of its squares, which is no capital letter.
  obtain ⟨c, rest, hhead, hc⟩ : ∃ c rest, o.text m.source ++ m.target.name = c :: rest ∧ c.isUpper = false := by
    rcases o with ⟨_ | _, _ | _⟩
    · exact ⟨_, _, rfl, (not_upper_coords _).1⟩
    · exact ⟨_, _, rfl, (not_upper_coords _).2⟩
    · exact ⟨_, _, rfl, (not_upper_coords _).1⟩
    · exact ⟨_, _, rfl, (not_upper_coords _).1⟩
  have hlength : (o.text m.source).length ≤ 2 := by rcases o with ⟨_ | _, _ | _⟩ <;> simp [Origin.text]
  have hsum : (o.text m.source ++ m.target.name).length = (o.text m.source).length + 2 := List.length_append
  rw [MoveSpec.parse, filter_moveText, hhead, List.cons_append, readKind_kindText hc, ← List.cons_append, ← hhead]
  simp only [bind, Option.bind, readPromotion_text h, hsum, Nat.add_sub_cancel, List.drop_left, List.take_left,
    Square.ofName?_name, readOrigin_text]
  exact if_pos (by omega)

/-! ### Moves -/

variable {b : Board} {m : Move}

theorem promotion_pawn {k : Kind} (hm : m ∈ b.legalMoves) (hk : b.piece? m.source = some ⟨b.side, k⟩)
    (hpromotion : m.promotion ≠ none) : k = .pawn := by
  rcases Board.mem_legalMoves.mp hm with ⟨hmove, -⟩ | hcastling
  · obtain ⟨-, k', hk', -, hpr⟩ := Board.mem_movesFrom.mp hmove
    obtain rfl : k = k' := (Piece.mk.inj (Option.some.inj (hk.symm.trans hk'))).2
    unfold Board.promotions at hpr
    split at hpr
    · rename_i hpawn
      exact hpawn.1
    · exact absurd (List.mem_singleton.mp hpr) hpromotion
  · exact absurd (Board.mem_castlings hcastling).2.1 hpromotion

/-- Castling to one side of the king is castling, with the rook on that side. -/
theorem isCastlingTo_iff (hstand : b.RooksStand) (hm : m ∈ b.legalMoves) {right : Bool} :
    isCastlingTo b right m = true ↔ b.isCastling m = true ∧ decide (m.source.file < m.target.file) = right := by
  simp only [isCastlingTo, Bool.and_eq_true, decide_eq_true_eq, beq_iff_eq]
  constructor
  · rintro ⟨⟨-, hrook⟩, hright⟩
    exact ⟨by simp [Board.isCastling, hrook], hright⟩
  · rintro ⟨hcastling, hright⟩
    have hm' := Board.castlings_of_isCastling hm hcastling
    exact ⟨⟨Board.king?_piece (Board.mem_castlings hm').1, (hstand.castles hm').1⟩, hright⟩

theorem accepts_iff {m' : Move} {k : Kind} {o : Origin} (hk : b.piece? m.source = some ⟨b.side, k⟩) :
    (o.spec k m).accepts b m' = true ↔ b.isCastling m' = false ∧ b.piece? m'.source = b.piece? m.source ∧
      m'.target = m.target ∧ m'.promotion = m.promotion ∧ (o.file = true → m'.source.file = m.source.file) ∧
      (o.rank = true → m'.source.rank = m.source.rank) := by
  have hfile : (if o.file then some m.source.fileIndex else none).all (fun f => m'.source.file = f.val) = true ↔
      (o.file = true → m'.source.file = m.source.file) := by
    cases o.file with
    | false => simp
    | true => exact decide_eq_true_iff.trans ⟨fun h _ => h, fun h => h rfl⟩
  have hrank : (if o.rank then some m.source.rankIndex else none).all (fun r => m'.source.rank = r.val) = true ↔
      (o.rank = true → m'.source.rank = m.source.rank) := by
    cases o.rank with
    | false => simp
    | true => exact decide_eq_true_iff.trans ⟨fun h _ => h, fun h => h rfl⟩
  unfold Origin.spec
  simp only [MoveSpec.accepts, Bool.and_eq_true, decide_eq_true_eq, Bool.not_eq_true', hfile, hrank, hk]
  tauto

/-- Of the legal moves that castle to one side of the king there is but one. -/
theorem find?_castling (hb : b.Reached) (hm : m ∈ b.legalMoves) (hcastling : b.isCastling m = true) :
    b.legalMoves.find? (isCastlingTo b (m.source.file < m.target.file)) = some m := by
  have hm' := Board.castlings_of_isCastling hm hcastling
  cases hfound : b.legalMoves.find? (isCastlingTo b (m.source.file < m.target.file)) with
  | none =>
    exact absurd ((isCastlingTo_iff hb.rooksStand hm).mpr ⟨hcastling, rfl⟩) (List.find?_eq_none.mp hfound m hm)
  | some n =>
    have hlegal := List.mem_of_find?_eq_some hfound
    obtain ⟨hcastling', hside⟩ := (isCastlingTo_iff hb.rooksStand hlegal).mp (List.find?_some hfound)
    have hn := Board.castlings_of_isCastling hlegal hcastling'
    have hking : m.source = n.source :=
      Option.some.inj ((Board.mem_castlings hm').1.symm.trans (Board.mem_castlings hn).1)
    rw [decide_eq_decide, ← hking] at hside
    rw [Board.castlings_eq hb.rooksBeside hm' hn hside.symm]

/-- What is said of a move that is told apart fits this legal move alone. -/
theorem filter_accepts (hb : b.Reached) (hm : m ∈ b.legalMoves) (hcastling : b.isCastling m = false) {k : Kind}
    (hk : b.piece? m.source = some ⟨b.side, k⟩) {o : Origin} (h : o.Tells b m) :
    b.legalMoves.filter ((o.spec k m).accepts b) = [m] := by
  have hnodup := (Board.nodup_legalMoves hb.rooksBeside hb.rooksStand).filter ((o.spec k m).accepts b)
  refine List.perm_singleton.mp ((List.perm_ext_iff_of_nodup hnodup (List.nodup_singleton m)).mpr fun m' => ?_)
  rw [List.mem_filter, accepts_iff hk, List.mem_singleton]
  constructor
  · rintro ⟨hlegal, -, hpiece, htarget, hpromotion, hfile, hrank⟩
    exact h m' hlegal hpiece htarget hpromotion hfile hrank
  · rintro rfl
    exact ⟨hm, hcastling, rfl, rfl, rfl, fun _ => rfl, fun _ => rfl⟩

/-- A legal move is read from every text that writes it. -/
theorem parse_written (hb : b.Reached) (hm : m ∈ b.legalMoves) {s : List Char} (hs : Writes b m s)
    {before marks after : List Char} (hbefore : Text.allBlank before = true) (hmarks : marks.all isMark = true)
    (hafter : Text.allBlank after = true) : parse b (String.ofList (before ++ (s ++ marks) ++ after)) = .ok m := by
  cases hs with
  | castling zeros hcastling =>
    have hne : ∀ right, castlingText right zeros ≠ [] := by cases zeros <;> decide
    simp only [parse, core_written hbefore hafter hmarks (solid_castlingText _ zeros), if_neg (hne _),
      castlingWing?_castlingText, find?_castling hb hm hcastling]
  | @move k o takes equals hcastling hk htells =>
    have hne : moveText k o m takes equals ≠ [] := by simp [moveText, Square.name]
    simp only [parse, core_written hbefore hafter hmarks (solid_moveText ..), if_neg hne, castlingWing?_moveText,
      parse_moveText (promotion_pawn hm hk), filter_accepts hb hm hcastling hk htells]

/-- With rooks on a1 and h1, the move of the first one to d1 is told apart by its file. -/
theorem parse_written_rooks : ∃ b, Board.ofText? "4k3/8/8/8/8/8/4K3/R6R w - - 0 1" = some b ∧
    parse b " Raxd1+!? " = .ok ⟨0, 3, none⟩ := by
  obtain ⟨b, hb, hrun⟩ := (Option.any_eq_true (fun b : Board => decide (⟨0, 3, none⟩ ∈ b.legalMoves ∧
    b.isCastling ⟨0, 3, none⟩ = false ∧ b.piece? 0 = some ⟨b.side, .rook⟩ ∧ ∀ m ∈ b.legalMoves,
      b.piece? m.source = b.piece? 0 → m.target = 3 → m.promotion = none → m.source.file = 0 → m = ⟨0, 3, none⟩))
    (Board.ofText? "4k3/8/8/8/8/8/4K3/R6R w - - 0 1")).mp (by decide +kernel)
  obtain ⟨hm, hcastling, hrook, htells⟩ := of_decide_eq_true hrun
  have hwrites : Writes b ⟨0, 3, none⟩ "Raxd1".toList := Writes.move (m := ⟨0, 3, none⟩) ⟨true, false⟩ true false
    hcastling hrook fun m' hm' hpiece htarget hpromotion hfile _ => htells m' hm' hpiece htarget hpromotion (hfile rfl)
  have hblank : Text.allBlank [' '] = true := by decide
  have hmarks : "+!?".toList.all isMark = true := by decide
  have hread := parse_written (.read hb) hm hwrites hblank hmarks hblank
  have htext : String.ofList ([' '] ++ ("Raxd1".toList ++ "+!?".toList) ++ [' ']) = " Raxd1+!? " := by decide
  rw [htext] at hread
  exact ⟨b, hb, hread⟩

end San
end ChessArchive
