import Mathlib.Data.List.DropRight
import Mathlib.Data.List.TakeWhile
import ChessArchive.Pgn.Reader
import ChessArchive.Proofs.Pgn.Lines

/-! Reading a file record by record. However the source splits its bytes, the records are the lines of the text in
    their order, cut before each tag line that follows movetext; nothing is lost and nothing comes twice. -/

namespace ChessArchive
namespace Pgn
open Text

/-! ### Lists -/

theorem filter_eq_dropLast {α : Type} {p : α → Bool} {xs : List α} (h : ∀ x ∈ xs.dropLast, p x = true) :
    xs.filter p = if xs.getLast?.any (!p ·) then xs.dropLast else xs := by
  induction xs with
  | nil => rfl
  | cons x xs ih =>
    cases xs with
    | nil => cases hx : p x <;> simp [hx]
    | cons y xs =>
      rw [List.dropLast_cons_of_ne_nil (List.cons_ne_nil y xs), List.forall_mem_cons] at h
      rw [List.filter_cons_of_pos h.1, ih h.2, List.getLast?_cons_cons,
        List.dropLast_cons_of_ne_nil (List.cons_ne_nil y xs)]
      split <;> rfl

/-! ### Sources -/

theorem rdropWhile_feed (line rest : List UInt8) :
    (line ++ 10 :: rest).rdropWhile (· != 10) = line ++ 10 :: rest.rdropWhile (· != 10) := by
  rw [List.rdropWhile, List.reverse_append, List.reverse_cons, List.append_assoc, List.dropWhile_append]
  split
  · rename_i h
    have h := List.isEmpty_iff.mp h
    simp [List.rdropWhile, h]
  · simp [List.rdropWhile]

/-- The lines with a line feed are those up to the last one. -/
theorem byteLines_complete (bytes : List UInt8) :
    (byteLines bytes).filter (fun line => line.getLast? = some 10) = byteLines (bytes.rdropWhile (· != 10)) := by
  induction bytes using feed_induction with
  | last line h =>
    have hlast : ¬ line.getLast? = some 10 := fun hlast => h (List.mem_of_getLast? hlast)
    have hnone : line.rdropWhile (· != 10) = [] := List.rdropWhile_eq_nil_iff.mpr fun b hb =>
      bne_iff_ne.mpr fun heq => h (heq ▸ hb)
    rw [hnone]
    by_cases hne : line = []
    · rw [hne]
      rfl
    · rw [byteLines_last hne h, List.filter_cons_of_neg (by simpa using hlast)]
      rfl
  | line line rest h ih =>
    rw [byteLines_line h, rdropWhile_feed, byteLines_line h, List.filter_cons_of_pos (by simp), ih]

theorem sourceLines_line {line : List UInt8} (h : 10 ∉ line) (s : List UInt8) (e : Ending) :
    sourceLines (line ++ 10 :: s) e = decodeUtf8 (line ++ [10]) :: sourceLines s e := by
  cases e with
  | finished => rw [sourceLines, byteLines_line h, List.map_cons, sourceLines]
  | failed cause => simp [sourceLines, byteLines_line h]

theorem sourceLines_last {line : List UInt8} (h : 10 ∉ line) (e : Ending) :
    sourceLines line e = match e with
      | .finished => if line = [] then [] else [decodeUtf8 line]
      | .failed _ => [] := by
  have hlast : ¬ line.getLast? = some 10 := fun hlast => h (List.mem_of_getLast? hlast)
  by_cases hne : line = []
  · cases e <;> simp [sourceLines, hne, byteLines]
  · cases e <;> simp [sourceLines, byteLines_last hne h, hne, hlast]

namespace ByteSource

/-- The lines that a source will give. -/
def lines (s : ByteSource) : List (List Char) := sourceLines s.bytes s.ending

/-- The bytes that can become lines: where the source fails, those up to its last line feed. -/
def legible (s : ByteSource) : List UInt8 :=
  match s.ending with
  | .finished => s.bytes
  | .failed _ => s.bytes.rdropWhile (· != 10)

theorem lines_legible (s : ByteSource) : s.lines = linesOf (decodeUtf8 s.legible) := by
  rw [linesOf_decodeUtf8, lines, legible]
  cases s.ending with
  | finished => rfl
  | failed cause => rw [sourceLines, byteLines_complete]

/-- Bytes with a line feed are cut behind the first one. -/
theorem dropWhile_feed {bytes : List UInt8} (h : bytes.dropWhile (· != 10) ≠ []) : ∃ more,
    bytes.dropWhile (· != 10) = 10 :: more ∧ bytes = bytes.takeWhile (· != 10) ++ 10 :: more := by
  obtain ⟨feed, more, hfeed⟩ := List.exists_cons_of_ne_nil h
  have hhead : (feed != 10) = false := by simpa [hfeed] using List.head_dropWhile_not (· != 10) h
  obtain rfl : feed = 10 := by simpa using hhead
  refine ⟨more, hfeed, ?_⟩
  rw [← hfeed, List.takeWhile_append_dropWhile]

theorem takeLine_cases (portions : List (List UInt8)) :
    (∃ line left, 10 ∉ line ∧ takeLine portions = (line ++ [10], some left) ∧
      portions.flatten = line ++ 10 :: left.flatten) ∨
    10 ∉ portions.flatten ∧ takeLine portions = (portions.flatten, none) := by
  induction portions with
  | nil => exact Or.inr ⟨List.not_mem_nil, rfl⟩
  | cons portion rest ih =>
    have hplain : 10 ∉ portion.takeWhile (· != 10) := fun hmem => by simpa using List.mem_takeWhile_imp hmem
    rw [takeLine, List.flatten_cons]
    by_cases hnone : portion.dropWhile (· != 10) = []
    · have hsplit := List.takeWhile_append_dropWhile (p := (· != 10)) (l := portion)
      rw [hnone, List.append_nil] at hsplit
      rw [hsplit] at hplain
      rw [hnone]
      rcases ih with ⟨line, left, hline, htake, hflatten⟩ | ⟨hrest, htake⟩
      · refine Or.inl ⟨portion ++ line, left, by simp [hplain, hline], ?_, ?_⟩
        · rw [htake, List.append_assoc]
        · rw [hflatten, List.append_assoc]
      · exact Or.inr ⟨by simp [hplain, hrest], by rw [htake]⟩
    · obtain ⟨more, hfeed, hsplit⟩ := dropWhile_feed hnone
      refine Or.inl ⟨_, more :: rest, hplain, by rw [hfeed], ?_⟩
      rw [List.flatten_cons, ← List.cons_append, ← List.append_assoc, ← hsplit]

theorem readLine_cons {s : ByteSource} {line : List Char} {rest : List (List Char)} (h : s.lines = line :: rest) :
    ∃ b bytes t, s.readLine = (.ok (b :: bytes), t) ∧ decodeUtf8 (b :: bytes) = line ∧ t.lines = rest ∧
      t.ending = s.ending := by
  rcases takeLine_cases s.portions with ⟨bytes, left, hplain, htake, hflatten⟩ | ⟨hplain, htake⟩
  · rw [lines, ByteSource.bytes, hflatten, sourceLines_line hplain, List.cons.injEq] at h
    obtain ⟨rfl, rfl⟩ := h
    obtain ⟨b, more, hcons⟩ := List.exists_cons_of_ne_nil (List.append_ne_nil_of_right_ne_nil bytes (List.cons_ne_nil 10 []))
    refine ⟨b, more, { s with portions := left }, ?_, by rw [hcons], rfl, rfl⟩
    rw [readLine, htake, hcons]
  · rw [lines, ByteSource.bytes, sourceLines_last hplain] at h
    cases hending : s.ending with
    | finished =>
      rw [hending] at h
      dsimp only at h
      split at h
      · cases h
      · rename_i hne
        obtain ⟨rfl, rfl⟩ := List.cons.inj h
        obtain ⟨b, bytes, hcons⟩ := List.exists_cons_of_ne_nil hne
        refine ⟨b, bytes, { s with portions := [] }, ?_, by rw [hcons], ?_, hending⟩
        · rw [readLine, htake, hcons, hending]
        · rw [lines, hending]
          rfl
    | failed cause =>
      rw [hending] at h
      cases h

theorem readLine_nil {s : ByteSource} (h : s.lines = []) : ∃ t : ByteSource, t.lines = [] ∧ t.ending = s.ending ∧
    s.readLine = (match s.ending with
      | .finished => .ok []
      | .failed cause => .error cause, t) := by
  rcases takeLine_cases s.portions with ⟨bytes, left, hplain, htake, hflatten⟩ | ⟨hplain, htake⟩
  · rw [lines, ByteSource.bytes, hflatten, sourceLines_line hplain] at h
    cases h
  · rw [lines, ByteSource.bytes, sourceLines_last hplain] at h
    refine ⟨{ s with portions := [] }, ?_, rfl, ?_⟩
    · rw [lines]
      cases s.ending <;> rfl
    rw [readLine, htake]
    cases hending : s.ending with
    | finished =>
      rw [hending] at h
      dsimp only at h
      split at h
      · rename_i hnone
        rw [hnone]
      · cases h
    | failed cause => rfl

end ByteSource

/-! ### Cutting lines into records -/

theorem splitRecord_append (moving : Bool) (lines : List (List Char)) :
    (splitRecord moving lines).1 ++ (splitRecord moving lines).2 = lines := by
  induction lines generalizing moving with
  | nil => rfl
  | cons line rest ih =>
    rw [splitRecord]
    split
    · rfl
    · exact congrArg (line :: ·) (ih _)

/-- A record has no tag line after movetext. -/
theorem splitRecord_ordered (moving : Bool) (lines : List (List Char)) :
    (moving = true → ∀ l ∈ (splitRecord moving lines).1, isTagLine l = false) ∧
      (splitRecord moving lines).1.Pairwise fun l m => isMoveLine l = true → isTagLine m = false := by
  induction lines generalizing moving with
  | nil => exact ⟨fun _ _ h => absurd h List.not_mem_nil, .nil⟩
  | cons line rest ih =>
    rw [splitRecord]
    split
    · exact ⟨fun _ _ h => absurd h List.not_mem_nil, .nil⟩
    · rename_i hgo
      obtain ⟨hplain, hordered⟩ := ih (moving || isMoveLine line)
      refine ⟨fun hmoving => List.forall_mem_cons.mpr ⟨?_, hplain (by rw [hmoving, Bool.true_or])⟩,
        List.pairwise_cons.mpr ⟨fun l hl hline => hplain (by rw [hline, Bool.or_true]) l hl, hordered⟩⟩
      simpa [hmoving] using hgo

/-- A record is ended by a tag line alone, and only after movetext. -/
theorem splitRecord_ended {moving : Bool} {lines later : List (List Char)} {line : List Char}
    (h : (splitRecord moving lines).2 = line :: later) :
    isTagLine line = true ∧ (moving || (splitRecord moving lines).1.any isMoveLine) = true := by
  induction lines generalizing moving with
  | nil => cases h
  | cons first rest ih =>
    rw [splitRecord] at h ⊢
    split at h
    · rename_i hstop
      obtain ⟨rfl, rfl⟩ := List.cons.inj h
      rw [Bool.and_eq_true] at hstop
      exact ⟨hstop.2, by rw [hstop.1, Bool.true_or]⟩
    · rename_i hgo
      obtain ⟨htag, hmoved⟩ := ih h
      rw [if_neg hgo, List.any_cons, ← Bool.or_assoc]
      exact ⟨htag, hmoved⟩

/-- Lines cut into chunks as they stand, before each tag line that follows movetext. -/
structure Cut (lines : List (List Char)) (chunks : List (List (List Char))) : Prop where
  flatten : chunks.flatten = lines
  nonempty : ∀ c ∈ chunks, c ≠ []
  opened : ∀ c ∈ chunks.tail, ∃ line, c.head? = some line ∧ isTagLine line = true
  ordered : ∀ c ∈ chunks, c.Pairwise fun l m => isMoveLine l = true → isTagLine m = false
  ended : ∀ c ∈ chunks.dropLast, c.any isMoveLine = true

theorem records_cons (line : List Char) (rest : List (List Char)) : records (line :: rest) =
    (line :: (splitRecord (isMoveLine line) rest).1) :: records (splitRecord (isMoveLine line) rest).2 := by
  rw [records]

@[elab_as_elim]
theorem records_induction {motive : List (List Char) → Prop} (nil : motive [])
    (cons : ∀ line rest, motive (splitRecord (isMoveLine line) rest).2 → motive (line :: rest))
    (lines : List (List Char)) : motive lines :=
  records.induct motive nil cons lines

theorem records_eq_nil {lines : List (List Char)} (h : records lines = []) : lines = [] := by
  cases lines with
  | nil => rfl
  | cons line rest => cases (records_cons line rest).symm.trans h

theorem Cut.single {line : List Char} {rest : List (List Char)}
    (h : (line :: rest).Pairwise fun l m => isMoveLine l = true → isTagLine m = false) :
    Cut (line :: rest) [line :: rest] where
  flatten := List.flatten_singleton
  nonempty := List.forall_mem_singleton.mpr (List.cons_ne_nil line rest)
  opened := nofun
  ordered := List.forall_mem_singleton.mpr h
  ended := nofun

theorem records_cut (lines : List (List Char)) : Cut lines (records lines) := by
  induction lines using records_induction with
  | nil => constructor <;> simp [records]
  | cons line rest ih =>
    obtain ⟨hplain, hordered⟩ := splitRecord_ordered (isMoveLine line) rest
    have hflatten : (splitRecord (isMoveLine line) rest).1 ++ (records (splitRecord (isMoveLine line) rest).2).flatten =
        rest := by
      rw [ih.flatten]
      exact splitRecord_append _ _
    have hfirst : (line :: (splitRecord (isMoveLine line) rest).1).Pairwise fun l m =>
        isMoveLine l = true → isTagLine m = false :=
      List.pairwise_cons.mpr ⟨fun l hl hline => hplain hline l hl, hordered⟩
    rw [records_cons]
    cases hlater : (splitRecord (isMoveLine line) rest).2 with
    | nil =>
      rw [hlater, records, List.flatten_nil, List.append_nil] at hflatten
      rw [hflatten] at hfirst
      rw [records, hflatten]
      exact .single hfirst
    | cons next later =>
      -- The next record begins with the tag line that ended this one.
      obtain ⟨htag, hmoved⟩ := splitRecord_ended hlater
      have hopened := ih.opened
      have hended := ih.ended
      have hnonempty := ih.nonempty
      have hlast := ih.ordered
      rw [hlater] at hflatten
      rw [hlater, records_cons] at hopened hended hnonempty hlast
      rw [records_cons] at hflatten ⊢
      refine ⟨?_, List.forall_mem_cons.mpr ⟨List.cons_ne_nil _ _, hnonempty⟩,
        List.forall_mem_cons.mpr ⟨⟨next, rfl, htag⟩, hopened⟩, List.forall_mem_cons.mpr ⟨hfirst, hlast⟩,
        List.forall_mem_cons.mpr ⟨by rwa [List.any_cons], hended⟩⟩
      rw [List.flatten_cons, List.cons_append, hflatten]

theorem not_blank_of_moves {lines : List (List Char)} (h : lines.any isMoveLine = true) :
    allBlank lines.flatten = false := by
  obtain ⟨line, hline, hmove⟩ := List.any_eq_true.mp h
  rw [isMoveLine, Bool.and_eq_true, Bool.not_eq_true'] at hmove
  rw [← Bool.not_eq_true, allBlank, List.all_flatten, List.all_eq_true]
  exact fun hblank => Bool.false_ne_true (hmove.1.symm.trans (hblank line hline))

namespace Cut
variable {lines c d x : List (List Char)} {cs ds : List (List (List Char))}

theorem tail (h : Cut lines (c :: cs)) : Cut cs.flatten cs where
  flatten := rfl
  nonempty := (List.forall_mem_cons.mp h.nonempty).2
  opened := fun e he => h.opened e (List.mem_of_mem_tail he)
  ordered := (List.forall_mem_cons.mp h.ordered).2
  ended := fun e he => h.ended e <| by
    rw [List.dropLast_cons_of_ne_nil (List.ne_nil_of_mem (List.dropLast_subset _ he))]
    exact List.mem_cons_of_mem c he

/-- A first chunk cannot go on where another one ends: there is a tag line, and movetext before it. -/
theorem not_longer (hc : Cut lines (c :: cs)) (hd : d.Pairwise fun l m => isMoveLine l = true → isTagLine m = false)
    (hlonger : d = c ++ x) (hrest : cs.flatten = x ++ ds.flatten) : x = [] := by
  by_contra hne
  obtain ⟨m, y, rfl⟩ := List.exists_cons_of_ne_nil hne
  cases cs with
  | nil => cases hrest
  | cons e es =>
    obtain ⟨line, hhead, htag⟩ := hc.opened e List.mem_cons_self
    obtain ⟨l, hl, hmove⟩ := List.any_eq_true.mp (hc.ended c List.mem_cons_self)
    obtain ⟨z, rfl⟩ : ∃ z, e = line :: z := List.head?_eq_some_iff.mp hhead
    obtain ⟨rfl, -⟩ := List.cons.inj hrest
    subst hlonger
    have hplain := (List.pairwise_append.mp hd).2.2 l hl line List.mem_cons_self hmove
    rw [htag] at hplain
    cases hplain

/-- There is one way to cut lines so. -/
theorem unique (hc : Cut lines cs) (hd : Cut lines ds) : cs = ds := by
  induction cs generalizing lines ds with
  | nil =>
    cases ds with
    | nil => rfl
    | cons d ds =>
      have hnil := hd.flatten.trans hc.flatten.symm
      exact absurd (List.append_eq_nil_iff.mp hnil).1 (hd.nonempty d List.mem_cons_self)
  | cons c cs ih =>
    cases ds with
    | nil =>
      have hnil := hc.flatten.trans hd.flatten.symm
      exact absurd (List.append_eq_nil_iff.mp hnil).1 (hc.nonempty c List.mem_cons_self)
    | cons d ds =>
      have hsame := hc.flatten.trans hd.flatten.symm
      rw [List.flatten_cons, List.flatten_cons] at hsame
      obtain ⟨rfl, hrest⟩ : c = d ∧ cs.flatten = ds.flatten := by
        rcases List.append_eq_append_iff.mp hsame with ⟨x, hlonger, hrest⟩ | ⟨x, hlonger, hrest⟩
        · obtain rfl := hc.not_longer (hd.ordered d List.mem_cons_self) hlonger hrest
          exact ⟨by rw [hlonger, List.append_nil], hrest⟩
        · obtain rfl := hd.not_longer (hc.ordered c List.mem_cons_self) hlonger hrest
          exact ⟨by rw [hlonger, List.append_nil], hrest.symm⟩
      rw [ih hc.tail (hrest ▸ hd.tail)]

end Cut

namespace Reader

/-! ### One record -/

section
variable {r : Reader}

theorem collect_line {line : List Char} {rest : List (List Char)} (h : r.source.lines = line :: rest)
    (chunk : List Char) (moving : Bool) :
    ∃ t : ByteSource, t.lines = rest ∧ t.ending = r.source.ending ∧ collect chunk moving r =
      if moving && isTagLine line then (.ok chunk, { r with source := t, pending := some line })
      else collect (chunk ++ line) (moving || isMoveLine line) { r with source := t } := by
  obtain ⟨b, bytes, t, hread, rfl, hlines, hending⟩ := ByteSource.readLine_cons h
  refine ⟨t, hlines, hending, ?_⟩
  rw [collect]
  split <;> simp_all

theorem collect_over (h : r.source.lines = []) (chunk : List Char) (moving : Bool) :
    ∃ t : ByteSource, t.lines = [] ∧ t.ending = r.source.ending ∧ collect chunk moving r =
      match r.source.ending with
      | .finished => (.ok chunk, { r with source := t, done := true })
      | .failed cause => (.error cause, { r with source := t }) := by
  obtain ⟨t, hlines, hending, hread⟩ := ByteSource.readLine_nil h
  refine ⟨t, hlines, hending, ?_⟩
  rw [collect]
  cases hending : r.source.ending <;> split <;> simp_all

/-- A record is read up to the tag line that ends it, which is kept for the next one, or up to the end of the source. -/
theorem collect_record {lines : List (List Char)} {moving : Bool} (h : r.source.lines = lines) (chunk : List Char) :
    ∃ t : ByteSource, t.lines = (splitRecord moving lines).2.tail ∧ t.ending = r.source.ending ∧
      collect chunk moving r = match (splitRecord moving lines).2, r.source.ending with
        | line :: _, _ =>
          (.ok (chunk ++ (splitRecord moving lines).1.flatten), { r with source := t, pending := some line })
        | [], .finished => (.ok (chunk ++ (splitRecord moving lines).1.flatten), { r with source := t, done := true })
        | [], .failed cause => (.error cause, { r with source := t }) := by
  induction lines generalizing chunk moving r with
  | nil =>
    obtain ⟨t, hlines, hending, hcollect⟩ := collect_over h chunk moving
    refine ⟨t, hlines, hending, ?_⟩
    rw [hcollect, splitRecord, List.flatten_nil, List.append_nil]
    cases r.source.ending <;> rfl
  | cons first rest ih =>
    obtain ⟨t, hlines, hending, hcollect⟩ := collect_line h chunk moving
    rw [hcollect, splitRecord]
    by_cases hstop : (moving && isTagLine first) = true
    · refine ⟨t, by rw [if_pos hstop]; exact hlines, hending, ?_⟩
      simp only [if_pos hstop, List.flatten_nil, List.append_nil]
    · obtain ⟨u, hmore, hsame, hrest⟩ := ih (r := { r with source := t }) hlines (chunk ++ first)
      refine ⟨u, by rw [if_neg hstop]; exact hmore, hsame.trans hending, ?_⟩
      simp only [if_neg hstop, hrest, hending, List.flatten_cons, List.append_assoc]

end

/-! ### What the calls give -/

/-- What the calls give for these records one after the other. A last text that is blank is left out; where the source
    fails, the last record is not known to be complete, and the failure takes its place. -/
def handed (texts : List (List Char)) : Ending → List (Except String (List Char))
  | .finished => (if texts.getLast?.any allBlank then texts.dropLast else texts).map .ok
  | .failed cause => texts.dropLast.map .ok ++ [.error cause]

theorem handed_cons (text next : List Char) (texts : List (List Char)) (e : Ending) :
    handed (text :: next :: texts) e = .ok text :: handed (next :: texts) e := by
  cases e with
  | finished =>
    rw [handed, handed, List.getLast?_cons_cons, List.dropLast_cons_of_ne_nil (List.cons_ne_nil _ _)]
    split <;> rfl
  | failed cause =>
    rw [handed, handed, List.dropLast_cons_of_ne_nil (List.cons_ne_nil _ _)]
    rfl

/-! ### One call -/

/-- The reader has come to the end, and there is no line that it has kept. -/
structure Over (r : Reader) : Prop where
  done : r.done = true
  pending : r.pending = none

/-- The reader still has these lines to give: the tag line that it has kept, and those of its source. -/
structure Waits (r : Reader) (lines : List (List Char)) : Prop where
  going : r.done = false
  lines : r.pending.toList ++ r.source.lines = lines
  tag : ∀ line ∈ r.pending, isTagLine line = true

section
variable {r : Reader}

theorem Over.advance (h : r.Over) : r.advance = (none, r) := by
  rw [Reader.advance, h.done, h.pending]
  rfl

theorem Over.after (h : r.Over) (n : Nat) : r.after n = r := by
  induction n with
  | zero => rfl
  | succ n ih => rwa [Reader.after, next, h.advance]

theorem start_waits (s : ByteSource) : (start s).Waits s.lines :=
  ⟨rfl, rfl, nofun⟩

theorem Waits.advance {lines : List (List Char)} (h : r.Waits lines) : r.advance =
    match collect (r.pending.getD []) false { r with pending := none } with
    | (.ok text, next) => (if allBlank text then none else some (.ok text), next)
    | (.error cause, next) => (some (.error cause), { next with pending := none, done := true }) := by
  rw [Reader.advance, h.going]
  rfl

theorem Waits.collect {line : List Char} {rest : List (List Char)} (h : r.Waits (line :: rest)) :
    ∃ t : ByteSource, t.lines = rest ∧ t.ending = r.source.ending ∧
      Reader.collect (r.pending.getD []) false { r with pending := none } =
        Reader.collect line (isMoveLine line) ⟨t, none, false⟩ := by
  have hlines := h.lines
  obtain ⟨source, pending, done⟩ := r
  obtain rfl : done = false := h.going
  cases pending with
  | none =>
    obtain ⟨t, hrest, hending, hcollect⟩ :=
      collect_line (r := ⟨source, none, false⟩) hlines [] false
    exact ⟨t, hrest, hending, hcollect⟩
  | some kept =>
    obtain ⟨rfl, hrest⟩ := List.cons.inj hlines
    refine ⟨source, hrest, rfl, ?_⟩
    rw [isMoveLine, h.tag kept rfl, Bool.not_true, Bool.and_false]
    rfl

/-- The call for the last record, or for none, comes to the end. -/
theorem Waits.advance_last {lines : List (List Char)} (h : r.Waits lines) (hlast : (records lines).length ≤ 1) :
    ∃ t : Reader, t.Over ∧
      r.advance = ((handed ((records lines).map List.flatten) r.source.ending).head?, t) := by
  cases lines with
  | nil =>
    obtain ⟨hpending, hlines⟩ := List.append_eq_nil_iff.mp h.lines
    rw [Option.toList_eq_nil_iff] at hpending
    obtain ⟨t, -, -, hcollect⟩ := collect_over (r := { r with pending := none }) hlines [] false
    refine ⟨⟨t, none, true⟩, ⟨rfl, rfl⟩, ?_⟩
    rw [h.advance, hpending, Option.getD_none, hcollect, records]
    cases r.source.ending <;> rfl
  | cons line rest =>
    have hend : (splitRecord (isMoveLine line) rest).2 = [] := by
      rw [records_cons, List.length_cons] at hlast
      exact records_eq_nil (List.length_eq_zero_iff.mp (by omega))
    obtain ⟨t, hrest, hending, hfirst⟩ := h.collect
    obtain ⟨u, -, -, hcollect⟩ := collect_record (r := ⟨t, none, false⟩) hrest line
    rw [hend] at hcollect
    refine ⟨⟨u, none, true⟩, ⟨rfl, rfl⟩, ?_⟩
    rw [h.advance, hfirst, hcollect, records_cons, hend, records, List.map_singleton, List.flatten_cons]
    dsimp only
    rw [hending]
    cases r.source.ending with
    | finished =>
      cases hblank : allBlank (line ++ (splitRecord (isMoveLine line) rest).1.flatten) <;> simp [handed, hblank]
    | failed cause => rfl

/-- A call that ends at a tag line has read a record, and leaves the tag line and the lines after it. -/
theorem Waits.advance_more {line next : List Char} {rest later : List (List Char)} (h : r.Waits (line :: rest))
    (hend : (splitRecord (isMoveLine line) rest).2 = next :: later) : ∃ t : Reader, t.Waits (next :: later) ∧
      t.source.ending = r.source.ending ∧
      r.advance = (some (.ok (line :: (splitRecord (isMoveLine line) rest).1).flatten), t) := by
  obtain ⟨htag, hmoved⟩ := splitRecord_ended hend
  obtain ⟨t, hrest, hending, hfirst⟩ := h.collect
  obtain ⟨u, hlater, hsame, hcollect⟩ := collect_record (r := ⟨t, none, false⟩) hrest line
  rw [hend] at hlater hcollect
  refine ⟨⟨u, some next, false⟩, ⟨rfl, congrArg (next :: ·) hlater, ?_⟩, hsame.trans hending, ?_⟩
  · exact fun line hline => Option.some.inj hline ▸ htag
  · rw [h.advance, hfirst, hcollect]
    dsimp only
    rw [← List.flatten_cons, if_neg]
    rw [Bool.not_eq_true]
    exact not_blank_of_moves (by rwa [List.any_cons])

end

theorem length_handed_le {texts : List (List Char)} (h : texts.length ≤ 1) (e : Ending) :
    (handed texts e).length ≤ 1 := by
  cases e with
  | finished =>
    rw [handed, List.length_map]
    split
    · rw [List.length_dropLast]
      omega
    · exact h
  | failed cause =>
    rw [handed, List.length_append, List.length_map, List.length_dropLast, List.length_singleton]
    omega

/-! ### All calls -/

section
variable {r t : Reader}

theorem calls_last {items : List (Except String (List Char))} (hlast : items.length ≤ 1) (ht : t.Over)
    (h : r.advance = (items.head?, t)) (n : Nat) : (r.after n).advance.1 = items[n]? := by
  cases n with
  | zero => rw [Reader.after, h, List.head?_eq_getElem?]
  | succ n =>
    rw [Reader.after, next, h, ht.after, ht.advance, List.getElem?_eq_none (by omega)]

theorem calls_more {first : Except String (List Char)} {items : List (Except String (List Char))}
    (ht : ∀ n, (t.after n).advance.1 = items[n]?) (h : r.advance = (some first, t)) (n : Nat) :
    (r.after n).advance.1 = (first :: items)[n]? := by
  cases n with
  | zero => rw [Reader.after, h, List.getElem?_cons_zero]
  | succ n => rw [Reader.after, next, h, ht, List.getElem?_cons_succ]

theorem Waits.calls_last {lines : List (List Char)} (h : r.Waits lines) (hlast : (records lines).length ≤ 1) (n : Nat) :
    (r.after n).advance.1 = (handed ((records lines).map List.flatten) r.source.ending)[n]? := by
  obtain ⟨t, ht, hadvance⟩ := h.advance_last hlast
  exact Reader.calls_last (length_handed_le (by rwa [List.length_map]) _) ht hadvance n

/-- The calls of a reader give the records that it waits for, and then nothing more. -/
theorem Waits.calls {lines : List (List Char)} (h : r.Waits lines) (n : Nat) :
    (r.after n).advance.1 = (handed ((records lines).map List.flatten) r.source.ending)[n]? := by
  induction lines using records_induction generalizing r n with
  | nil => exact h.calls_last (by simp [records]) n
  | cons line rest ih =>
    cases hend : (splitRecord (isMoveLine line) rest).2 with
    | nil => exact h.calls_last (by simp [records_cons, hend, records]) n
    | cons first later =>
      rw [hend] at ih
      obtain ⟨t, ht, hending, hadvance⟩ := h.advance_more hend
      rw [records_cons, hend, records_cons, List.map_cons, List.map_cons, handed_cons, ← hending]
      refine calls_more (fun m => ?_) hadvance n
      rw [ih ht, records_cons, List.map_cons]

end

/-! ### The whole file -/

theorem readAll_eq (bytes : List UInt8) (e : Ending) :
    readAll bytes e = (handed ((records (sourceLines bytes e)).map List.flatten) e).map item := by
  cases e with
  | finished =>
    have hended : ∀ text ∈ ((records (sourceLines bytes .finished)).map List.flatten).dropLast,
        (!allBlank text) = true := by
      intro text htext
      rw [← List.map_dropLast] at htext
      obtain ⟨chunk, hchunk, rfl⟩ := List.mem_map.mp htext
      rw [not_blank_of_moves ((records_cut _).ended chunk hchunk)]
      rfl
    rw [readAll, recordTexts, filter_eq_dropLast hended, handed, List.map_map]
    simp only [Bool.not_not]
    rfl
  | failed cause =>
    rw [readAll, recordTexts, handed, List.map_append, List.map_map, List.map_map, List.map_dropLast,
      List.map_dropLast, List.map_map]
    rfl

/-- Whatever a source gives, and however it splits it, there is one way to cut the lines of its text before each tag
    line after movetext, and the calls give the chunks of this cut in their order: no character is lost, and none
    comes twice. A last chunk that is blank is left out, and where the source fails, the chunk that was not complete
    gives way to the failure. After that the calls give nothing more. -/
theorem calls_cut (source : ByteSource) : ∃ chunks,
    (∀ cut, Cut (linesOf (decodeUtf8 source.legible)) cut ↔ cut = chunks) ∧
    (chunks.map List.flatten).flatten = decodeUtf8 source.legible ∧
    (∀ n, ((start source).after n).advance.1 = (handed (chunks.map List.flatten) source.ending)[n]?) ∧
    ∀ n, ((start source).after n).next.1 = ((handed (chunks.map List.flatten) source.ending).map item)[n]? ∧
      ((start source).after n).next.1 = (readAll source.bytes source.ending)[n]? := by
  have hcut := records_cut (linesOf (decodeUtf8 source.legible))
  have hcalls := (start_waits source).calls
  rw [source.lines_legible] at hcalls
  have hnext (n : Nat) : ((start source).after n).next.1 =
      ((handed ((records (linesOf (decodeUtf8 source.legible))).map List.flatten) source.ending).map item)[n]? := by
    rw [next, hcalls, List.getElem?_map]
    rfl
  refine ⟨_, fun cut => ⟨fun h => h.unique hcut, fun h => h ▸ hcut⟩, ?_, hcalls, fun n => ⟨hnext n, ?_⟩⟩
  · rw [← List.flatten_flatten, hcut.flatten, flatten_linesOf]
  · rw [hnext, readAll_eq, ← source.lines_legible]
    rfl

end Reader
end Pgn
end ChessArchive
