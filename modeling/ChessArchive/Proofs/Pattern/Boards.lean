import ChessArchive.Proofs.Pattern.Grammar
import ChessArchive.Proofs.Placement.Codec
import ChessArchive.Proofs.Placement.Language

/-! Boards as patterns. A placement is a pattern that asks for the piece on each of its squares, and a pattern without
    groups whose ranks are full is a placement. -/

namespace ChessArchive

/-! ### Ranks with other signs -/

namespace WrittenRank
variable {α β : Type} {f : α → β}

/-- A rank with other signs. -/
def withSigns (f : α → β) (r : WrittenRank α) : WrittenRank β :=
  r.map fun
    | .skip n within => .skip n within
    | .put a => .put (f a)

theorem width_withSigns (r : WrittenRank α) : (r.withSigns f).width = r.width := by
  induction r with
  | nil => rfl
  | cons item r ih =>
    cases item with
    | skip n within => exact congrArg (n + ·) ih
    | put a => exact congrArg (1 + ·) ih

/-- A rank is written as before if its signs are. -/
theorem text_withSigns {sign : α → List Char} {sign' : β → List Char} (h : ∀ a, sign' (f a) = sign a)
    (r : WrittenRank α) : (r.withSigns f).text sign' = r.text sign := by
  induction r with
  | nil => rfl
  | cons item r ih =>
    cases item with
    | skip n within => exact congrArg (Nat.digitChar n :: ·) ih
    | put a => exact congrArg₂ (· ++ ·) (h a) ih

theorem listing_withSigns (rank : Fin 8) (file : Nat) (r : WrittenRank α) :
    (r.withSigns f).listing rank file = (r.listing rank file).map fun e => (e.1, f e.2) := by
  induction r generalizing file with
  | nil => rfl
  | cons item r ih =>
    cases item with
    | skip n within => exact ih (file + n)
    | put a =>
      have hput : withSigns f (.put a :: r) = .put (f a) :: withSigns f r := rfl
      rw [hput, listing, listing, List.map_append, ih]
      cases Square.ofCoords? file rank <;> rfl

theorem listAll_withSigns (ranks : List (WrittenRank α)) :
    listAll (ranks.map (withSigns f)) = (listAll ranks).map fun e => (e.1, f e.2) := by
  rw [listAll, listAll, List.zip_map_right, List.flatMap_map, List.map_flatMap]
  exact List.flatMap_congr fun x _ => listing_withSigns x.1.rev 0 x.2

end WrittenRank

namespace Pattern
open Placement

/-! ### Placements that are patterns -/

/-- What is written for a placement is a pattern with a constraint for each piece. -/
theorem compile_of_decode {text : String} {placed : Occupied} (h : decode text = .ok placed) :
    ∃ p, compile text = .ok p ∧ p.constraints = placed.map fun e => ⟨e.1, .single e.2⟩ := by
  unfold decode decodeText at h
  split at h
  · cases h
  · rename_i field hfield
    obtain ⟨ranks, hsplit, hlen, hwidth, rfl⟩ := decodeField_iff.mp h
    have htext : ∀ r : WrittenRank Piece, (r.withSigns Alternatives.one).text Alternatives.text = r.text sign :=
      WrittenRank.text_withSigns fun _ => rfl
    have hwrites : Writes ((Text.firstField? text.toList).getD []) (ranks.map (·.withSigns .one)) := by
      constructor
      case split =>
        rw [hfield, Option.getD_some, hsplit, List.map_map]
        exact List.map_congr_left fun r _ => (htext r).symm
      case count => exact ((List.length_map _).trans hlen).le
      case width =>
        intro r hr
        obtain ⟨written, hwritten, rfl⟩ := List.mem_map.mp hr
        exact (WrittenRank.width_withSigns written).trans_le (hwidth written hwritten).le
    refine ⟨⟨_⟩, compile_iff.mpr ⟨_, hwrites, rfl⟩, ?_⟩
    rw [WrittenRank.listAll_withSigns, List.map_map]
    rfl

/-- A pattern with one piece for each of its squares matches the boards that have these pieces there. -/
theorem matchesBoard_single {p : Pattern} {placed : Occupied}
    (h : p.constraints = placed.map fun e => ⟨e.1, .single e.2⟩) (hsome : placed ≠ []) (occupied : Occupied) :
    p.matchesBoard occupied = true ↔ ∀ e ∈ placed, LastOn occupied e.1 e.2 := by
  have hasks : p.isEmpty = false := by simpa [isEmpty, h] using hsome
  simp only [matchesBoard, hasks, Bool.not_false, Bool.true_and, h, List.all_map, List.all_eq_true, Function.comp_apply,
    Option.any_eq_true, PieceSet.contains_single, decide_eq_true_eq, lastOn_iff]
  refine forall₂_congr fun e _ => ⟨?_, fun he => ⟨e.2, he, rfl⟩⟩
  rintro ⟨q, hq, rfl⟩
  exact hq

/-! ### Patterns that are placements -/

theorem signs_of_no_group {r : WrittenRank Alternatives} (h : '[' ∉ r.text Alternatives.text) :
    ∀ c ∈ r.text Alternatives.text, c ∈ rankSigns := by
  induction r with
  | nil => exact nofun
  | cons item r ih =>
    cases item with
    | skip n within =>
      rw [WrittenRank.text_skip, List.mem_cons, not_or] at h
      exact List.forall_mem_cons.mpr ⟨mem_rankSigns.mpr (Or.inl ⟨n, within, rfl⟩), ih h.2⟩
    | put a =>
      rw [WrittenRank.text_put, List.mem_append, not_or] at h
      cases a with
      | one q => exact List.forall_mem_cons.mpr ⟨mem_rankSigns.mpr (Or.inr ⟨q, rfl⟩), ih h.2⟩
      | group first others => exact absurd List.mem_cons_self h.1

theorem decode_of_compile {text : String} {p : Pattern} (h : compile text = .ok p) {field : List Char}
    (hfield : Text.firstField? text.toList = some field) (hgroups : '[' ∉ field) (hlen : (field.splitOn '/').length = 8)
    (hwidth : ∀ part ∈ field.splitOn '/', textWidth part = 8) : ∃ placed, decode text = .ok placed := by
  have hsigns : ∀ part ∈ field.splitOn '/', ∀ c ∈ part, c ∈ rankSigns := by
    obtain ⟨ranks, hwrites, -⟩ := compile_iff.mp h
    have hsplit := hwrites.split
    rw [hfield, Option.getD_some] at hsplit
    intro part hpart
    have hjoined : ['/'].intercalate (field.splitOn '/') = field := List.intercalate_splitOn '/'
    have hnone : '[' ∉ part := fun hmem => hgroups (hjoined ▸ Text.mem_intercalate hpart hmem)
    rw [hsplit] at hpart
    obtain ⟨r, -, rfl⟩ := List.mem_map.mp hpart
    exact signs_of_no_group hnone
  have hread := decodeField_ok_iff.mpr ⟨hlen, fun part hpart => ⟨hsigns part hpart, hwidth part hpart⟩⟩
  rw [decode, decodeText, hfield]
  exact hread

/-! ### The common language -/

/-- The decoder of placements and the compiler of patterns agree. What is read as a placement is read as the pattern that
    asks for each of its pieces, in the same order; unless it asks for nothing, this pattern matches the boards that have
    all these pieces, that of the placement among them. And what is read as a pattern is read as a placement if its field
    has eight ranks, each eight squares wide, and no group. -/
theorem placements_are_patterns (text : String) :
    (∀ placed, decode text = .ok placed → ∃ p, compile text = .ok p ∧
      p.constraints = placed.map (fun e => ⟨e.1, .single e.2⟩) ∧
      (placed ≠ [] → (∀ occupied, p.matchesBoard occupied = true ↔ ∀ e ∈ placed, LastOn occupied e.1 e.2) ∧
        p.matchesBoard placed = true)) ∧
    ∀ p field, compile text = .ok p → Text.firstField? text.toList = some field → '[' ∉ field →
      (field.splitOn '/').length = 8 → (∀ part ∈ field.splitOn '/', textWidth part = 8) →
        ∃ placed, decode text = .ok placed := by
  refine ⟨fun placed h => ?_, fun p field h hfield hgroups hlen hwidth => decode_of_compile h hfield hgroups hlen hwidth⟩
  obtain ⟨p, hp, hasks⟩ := compile_of_decode h
  refine ⟨p, hp, hasks, fun hsome => ⟨matchesBoard_single hasks hsome, ?_⟩⟩
  rw [matchesBoard_single hasks hsome]
  intro e he
  exact lastOn_iff.mpr ((pieceOn_iff (decode_nodup h)).mpr he)

/-- Skip digits side by side, in a placement that is a pattern, and in a pattern that is a placement. -/
theorem placements_are_patterns_split_digits :
    (∃ p, compile "44/8/8/8/3P4/8/8/8 w" = .ok p ∧ p.constraints = [⟨27, .single ⟨.white, .pawn⟩⟩] ∧
      p.matchesBoard [(27, ⟨.white, .knight⟩), (27, ⟨.white, .pawn⟩), (0, ⟨.black, .king⟩)] = true) ∧
      ∃ placed, decode "8/8/8/8/8/8/8/34k" = .ok placed := by
  constructor
  · have hdecode : decode "44/8/8/8/3P4/8/8/8 w" = .ok [(27, ⟨.white, .pawn⟩)] := by decide +kernel
    obtain ⟨p, hp, hasks, hmatches⟩ := (placements_are_patterns "44/8/8/8/3P4/8/8/8 w").1 _ hdecode
    obtain ⟨hboards, -⟩ := hmatches (List.cons_ne_nil _ _)
    refine ⟨p, hp, hasks, (hboards _).mpr (List.forall_mem_singleton.mpr ?_)⟩
    exact ⟨[(27, ⟨.white, .knight⟩)], [(0, ⟨.black, .king⟩)], rfl, by decide⟩
  · obtain ⟨p, hp, -⟩ : ∃ p, compile "8/8/8/8/8/8/8/34k" = .ok p ∧ p.constraints.length = 1 :=
      exists_ok_of_all (by decide +kernel)
    exact (placements_are_patterns "8/8/8/8/8/8/8/34k").2 p "8/8/8/8/8/8/8/34k".toList hp (by decide +kernel)
      (by decide +kernel) (by decide +kernel) (by decide +kernel)

end Pattern
end ChessArchive
