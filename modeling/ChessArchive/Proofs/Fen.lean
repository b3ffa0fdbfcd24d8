import ChessArchive.Fen
import ChessArchive.Proofs.Placement.Codec

/-! The part of a position text that counts. Nothing after the third field is read, a run of empty squares may be written
    as several digits, and of the castling letters it matters only which there are. -/

namespace ChessArchive
open Placement

/-! ### Fields -/

/-- A field on its own is read as it is. -/
theorem Placement.decode_ofList {field : List Char} (h : Text.IsWord field) :
    decode (String.ofList field) = decodeField field := by
  rw [decode, String.toList_ofList, decodeText, Text.firstField?_of_plain h.1 h.2]

namespace CastlingRights

theorem flags_injective {r t : CastlingRights} (h : r.flags = t.flags) : r = t := by
  cases r
  cases t
  simpa [flags] using h

theorem flags_grant {field : List Char} {r t : CastlingRights} (h : field.foldlM grant r = some t) :
    t.flags = (r.flags.zip ['K', 'Q', 'k', 'q']).map fun (set, c) => set || decide (c ∈ field) := by
  induction field generalizing r with
  | nil =>
    cases h
    simp [flags]
  | cons c field ih =>
    obtain ⟨u, hu, h⟩ := Option.bind_eq_some_iff.mp h
    rw [ih h]
    unfold grant at hu
    split at hu <;> cases hu <;> simp [flags]

/-- The flags of a field are its letters. -/
theorem flags_parse {field : List Char} {r : CastlingRights} (h : parse field = .ok r) :
    r.flags = ['K', 'Q', 'k', 'q'].map fun c => decide (c ∈ field) := by
  unfold parse at h
  split at h
  · rename_i hdash
    cases h
    rw [hdash]
    decide
  · split at h
    · rename_i t ht
      cases h
      simpa [flags, none] using flags_grant ht
    · cases h

end CastlingRights

namespace WrittenRank

theorem text_injective {r t : WrittenRank Piece} (h : r.text sign = t.text sign) : r = t := by
  induction r generalizing t with
  | nil =>
    rcases t with _ | ⟨_ | _, t⟩
    · rfl
    · cases h
    · cases h
  | cons item r ih =>
    rcases item with ⟨m, hm⟩ | p <;> rcases t with _ | ⟨⟨n, hn⟩ | q, t⟩
    · cases h
    · obtain ⟨hfirst, hrest⟩ := List.cons.inj h
      obtain rfl := (digitChar_inj (by omega) (by omega)).mp hfirst
      rw [ih hrest]
    · exact absurd (List.cons.inj h).1 (symbol_ne_digitChar q (by omega)).symm
    · cases h
    · exact absurd (List.cons.inj h).1 (symbol_ne_digitChar p (by omega))
    · obtain ⟨hfirst, hrest⟩ := List.cons.inj h
      rw [Piece.symbol_injective hfirst, ih hrest]

end WrittenRank

/-- Two fields that leave out and occupy the same squares are read alike. -/
theorem Placement.decodeField_congr {field other : List Char} {placed standing : Occupied}
    {ranks others : List (WrittenRank Piece)} (hplaced : decodeField field = .ok placed)
    (hstanding : decodeField other = .ok standing) (hfield : field.splitOn '/' = ranks.map (·.text sign))
    (hother : other.splitOn '/' = others.map (·.text sign)) (hcells : ranks.map (·.cells) = others.map (·.cells)) :
    placed = standing := by
  have hwritten : ∀ {field : List Char} {placed : Occupied} {ranks : List (WrittenRank Piece)},
      decodeField field = .ok placed → field.splitOn '/' = ranks.map (·.text sign) →
      (∀ r ∈ ranks, r.width ≤ 8) ∧ placed = WrittenRank.listAll ranks := by
    intro field placed ranks hread hranks
    obtain ⟨read, hsplit, -, hwidth, hplaced⟩ := decodeField_iff.mp hread
    obtain rfl : ranks = read :=
      (List.map_inj_right fun _ _ => WrittenRank.text_injective).mp (hranks.symm.trans hsplit)
    exact ⟨fun r hr => (hwidth r hr).le, hplaced⟩
  obtain ⟨hwidth, hlist⟩ := hwritten hplaced hfield
  obtain ⟨hwidth', hlist'⟩ := hwritten hstanding hother
  refine eq_of_mem_iff (decodeField_squares hplaced) (decodeField_squares hstanding) fun s p => ?_
  have hrank : ∀ ranks : List (WrittenRank Piece),
      (∃ r, ranks[s.rankIndex.rev.val]? = some r ∧ r.cells[s.file]? = some (some p)) ↔
        ∃ cells, (ranks.map (·.cells))[s.rankIndex.rev.val]? = some cells ∧ cells[s.file]? = some (some p) := by
    intro ranks
    simp
  rw [hlist, hlist', WrittenRank.mem_listAll hwidth, WrittenRank.mem_listAll hwidth', hrank, hrank, hcells]

/-! ### Texts -/

namespace Fen

theorem parse_ok {text : String} {fen : Fen} (h : parse text = .ok fen) :
    ∃ field rest placed, Text.fields text.toList = field :: rest ∧ decodeField field = .ok placed ∧
      decode fen.placement = .ok placed ∧ parseSide rest.head? = .ok fen.side ∧
      parseCastling rest.tail.head? = .ok fen.castling := by
  unfold parse at h
  split at h
  · cases h
  · rename_i field rest hfields
    obtain ⟨placed, hplaced, h⟩ := bind_ok_iff.mp h
    obtain ⟨side, hside, h⟩ := bind_ok_iff.mp h
    obtain ⟨castling, hcastling, h⟩ := bind_ok_iff.mp h
    obtain rfl := pure_ok_iff.mp h
    have hword : Text.IsWord field := Text.isWord_of_mem_fields (hfields ▸ List.mem_cons_self)
    exact ⟨field, rest, placed, hfields, hplaced, (decode_ofList hword).trans hplaced, hside, hcastling⟩

/-- The letters of the castling field, none if there is no such field. -/
def castlingLetters (text : String) : List Char := ((Text.fields text.toList)[2]?).getD []

/-- Two texts say the same of a position, whatever their clocks and en passant fields: their placements leave out and
    occupy the same squares, their side fields are equal, and they have the same castling letters. -/
structure Alike (text other : String) : Prop where
  placement : ∃ ranks others : List (WrittenRank Piece), ranks.map (·.cells) = others.map (·.cells) ∧
    (Text.fields text.toList).head?.map (·.splitOn '/') = some (ranks.map (·.text sign)) ∧
    (Text.fields other.toList).head?.map (·.splitOn '/') = some (others.map (·.text sign))
  side : (Text.fields text.toList)[1]? = (Text.fields other.toList)[1]?
  castling : ∀ c ∈ ['K', 'Q', 'k', 'q'], c ∈ castlingLetters text ↔ c ∈ castlingLetters other

theorem parse_flags {text : String} {fen : Fen} (h : parse text = .ok fen) :
    fen.castling.flags = ['K', 'Q', 'k', 'q'].map fun c => decide (c ∈ castlingLetters text) := by
  obtain ⟨field, rest, -, hfields, -, -, -, hcastling⟩ := parse_ok h
  rw [castlingLetters, hfields]
  rcases rest with _ | ⟨side, _ | ⟨letters, rest⟩⟩
  · rw [← Except.ok.inj hcastling]
    rfl
  · rw [← Except.ok.inj hcastling]
    rfl
  · exact CastlingRights.flags_parse hcastling

theorem Alike.read {text other : String} (halike : Alike text other) {fen fen' : Fen} (h : parse text = .ok fen)
    (h' : parse other = .ok fen') :
    decode fen.placement = decode fen'.placement ∧ fen.side = fen'.side ∧ fen.castling = fen'.castling := by
  have hflags := parse_flags h
  have hflags' := parse_flags h'
  obtain ⟨field, rest, placed, hfields, hfield, hplaced, hside, -⟩ := parse_ok h
  obtain ⟨field', rest', placed', hfields', hfield', hplaced', hside', -⟩ := parse_ok h'
  obtain ⟨⟨ranks, others, hcells, hranks, hothers⟩, hsame, hletters⟩ := halike
  rw [hfields] at hranks hsame
  rw [hfields'] at hothers hsame
  refine ⟨?_, ?_, CastlingRights.flags_injective ?_⟩
  · rw [hplaced, hplaced', decodeField_congr hfield hfield' (Option.some.inj hranks) (Option.some.inj hothers) hcells]
  · have hheads : rest.head? = rest'.head? := by simpa [List.head?_eq_getElem?] using hsame
    exact Except.ok.inj (hside.symm.trans (hheads ▸ hside'))
  · rw [hflags, hflags']
    exact List.map_congr_left fun c hc => decide_eq_decide.mpr (hletters c hc)

end Fen
end ChessArchive
