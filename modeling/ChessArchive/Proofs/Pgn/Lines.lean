import ChessArchive.Pgn.Stream
import ChessArchive.Proofs.Text.Utf8

/-! Lines of a text, each with its line feed, and those among them that open with a bracket. Cutting the bytes of a text
    into lines and reading each line comes to the same as cutting the text. -/

namespace ChessArchive
namespace Pgn
open Text

/-- Puts a character in front of the first line. -/
def toFirst (c : Char) : List (List Char) → List (List Char)
  | [] => [[c]]
  | line :: rest => (c :: line) :: rest

/-- The lines of a text. Each but the last ends with its line feed; the last one is not empty. -/
def linesOf : List Char → List (List Char)
  | [] => []
  | c :: s => if c = '\n' then [c] :: linesOf s else toFirst c (linesOf s)

/-! ### Bytes -/

/-- Bytes are a line after the other, and at last some without a line feed. -/
@[elab_as_elim]
theorem feed_induction {motive : List UInt8 → Prop} (last : ∀ line, 10 ∉ line → motive line)
    (line : ∀ line rest, 10 ∉ line → motive rest → motive (line ++ 10 :: rest)) (bytes : List UInt8) :
    motive bytes := by
  induction hlength : bytes.length using Nat.strongRecOn generalizing bytes with
  | _ n ih =>
    by_cases hfeed : 10 ∈ bytes
    · obtain ⟨first, rest, rfl, hfirst⟩ := List.eq_append_cons_of_mem hfeed
      refine line first rest hfirst (ih _ ?_ rest rfl)
      rw [← hlength, List.length_append, List.length_cons]
      omega
    · exact last bytes hfeed

theorem byteLines_feed (s : List UInt8) : byteLines (10 :: s) = [10] :: byteLines s := rfl

theorem byteLines_append {bs : List UInt8} (hbs : bs ≠ []) (hfeed : 10 ∉ bs) (s : List UInt8) :
    byteLines (bs ++ s) = match byteLines s with
      | [] => [bs]
      | line :: rest => (bs ++ line) :: rest := by
  induction bs with
  | nil => exact absurd rfl hbs
  | cons b bs ih =>
    rw [List.mem_cons, not_or] at hfeed
    have hcons : byteLines (b :: bs ++ s) = match byteLines (bs ++ s) with
        | [] => [[b]]
        | line :: rest => (b :: line) :: rest := if_neg (Ne.symm hfeed.1)
    rw [hcons]
    by_cases hlast : bs = []
    · subst hlast
      rfl
    · rw [ih hlast hfeed.2]
      cases byteLines s <;> rfl

theorem byteLines_line {line : List UInt8} (h : 10 ∉ line) (s : List UInt8) :
    byteLines (line ++ 10 :: s) = (line ++ [10]) :: byteLines s := by
  by_cases hne : line = []
  · rw [hne]
    exact byteLines_feed s
  · rw [byteLines_append hne h, byteLines_feed]

theorem byteLines_last {line : List UInt8} (hne : line ≠ []) (h : 10 ∉ line) : byteLines line = [line] := by
  have hlast := byteLines_append hne h []
  rwa [List.append_nil] at hlast

theorem feed_not_mem_encode {c : Char} (h : c ≠ '\n') : 10 ∉ String.utf8EncodeChar c := by
  intro hmem
  rcases byte_of_mem_encode hmem with hbyte | hbyte
  · exact h (Char.toNat_inj.mp hbyte.symm)
  · exact absurd hbyte (by decide)

theorem linesOf_decode (s : List Char) :
    (byteLines (s.flatMap String.utf8EncodeChar)).map decodeUtf8 = linesOf s := by
  have hnil : decodeUtf8 [] = [] := by rw [decodeUtf8]
  induction s with
  | nil => rfl
  | cons c s ih =>
    rw [List.flatMap_cons, linesOf]
    by_cases hc : c = '\n'
    · subst hc
      rw [if_pos rfl, ← ih, show String.utf8EncodeChar '\n' = [10] from rfl, List.singleton_append, byteLines_feed,
        List.map_cons]
      exact congrArg (· :: _) (decodeUtf8_encode '\n' [] |>.trans (by rw [hnil]))
    · rw [if_neg hc, ← ih, byteLines_append String.utf8EncodeChar_ne_nil (feed_not_mem_encode hc)]
      cases byteLines (s.flatMap String.utf8EncodeChar) with
      | nil =>
        have hread := decodeUtf8_encode c []
        rw [List.append_nil, hnil] at hread
        exact congrArg ([·]) hread
      | cons line rest => exact congrArg (· :: _) (decodeUtf8_encode c line)

/-! ### Texts -/

theorem toFirst_append (c : Char) {lines : List (List Char)} (h : lines ≠ []) (more : List (List Char)) :
    toFirst c (lines ++ more) = toFirst c lines ++ more := by
  cases lines with
  | nil => exact absurd rfl h
  | cons line rest => rfl

theorem linesOf_cons {c : Char} (hc : c ≠ '\n') (s : List Char) : linesOf (c :: s) = toFirst c (linesOf s) :=
  if_neg hc

theorem linesOf_ne_nil {s : List Char} (h : s ≠ []) : linesOf s ≠ [] := by
  cases s with
  | nil => exact absurd rfl h
  | cons c s =>
    rw [linesOf]
    split
    · exact List.cons_ne_nil _ _
    · cases linesOf s <;> exact List.cons_ne_nil _ _

/-- After a line feed the lines go on by themselves. -/
theorem linesOf_feed (s t : List Char) : linesOf (s ++ '\n' :: t) = linesOf (s ++ ['\n']) ++ linesOf t := by
  induction s with
  | nil => rfl
  | cons c s ih =>
    rw [List.cons_append, List.cons_append, linesOf, linesOf, ih]
    split
    · rfl
    · exact toFirst_append c (linesOf_ne_nil (by simp)) _

theorem linesOf_line {line : List Char} (h : '\n' ∉ line) (s : List Char) :
    linesOf (line ++ '\n' :: s) = (line ++ ['\n']) :: linesOf s := by
  induction line with
  | nil => rfl
  | cons c line ih =>
    rw [List.mem_cons, not_or] at h
    rw [List.cons_append, linesOf_cons (Ne.symm h.1), ih h.2]
    rfl

theorem linesOf_last {line : List Char} (hne : line ≠ []) (h : '\n' ∉ line) : linesOf line = [line] := by
  induction line with
  | nil => exact absurd rfl hne
  | cons c line ih =>
    rw [List.mem_cons, not_or] at h
    rw [linesOf_cons (Ne.symm h.1)]
    by_cases hlast : line = []
    · rw [hlast]
      rfl
    · rw [ih hlast h.2]
      rfl

/-- A cut into lines that takes off one line after another takes off all that are in front. -/
theorem cut_lines {f : List Char → List (List Char)} {g : List Char → List Char}
    (hf : ∀ l s, '\n' ∉ l → f (l ++ '\n' :: s) = g l :: f s) {ls : List (List Char)} (hls : ∀ l ∈ ls, '\n' ∉ l)
    (s : List Char) : f ((ls.flatMap fun l => l ++ ['\n']) ++ s) = ls.map g ++ f s := by
  induction ls with
  | nil => rfl
  | cons l ls ih =>
    rw [List.forall_mem_cons] at hls
    rw [List.flatMap_cons, List.append_assoc, List.append_assoc, List.singleton_append, hf _ _ hls.1, ih hls.2]
    rfl

theorem splitOn_line {line : List Char} (h : '\n' ∉ line) (s : List Char) :
    (line ++ '\n' :: s).splitOn '\n' = line :: s.splitOn '\n' := by
  refine List.splitOnP_append_cons_of_forall_mem (fun c hc => ?_) '\n' rfl s
  exact beq_eq_false_iff_ne.mpr fun heq => h (heq ▸ hc)

theorem splitOn_lines {ls : List (List Char)} (h : ∀ l ∈ ls, '\n' ∉ l) (s : List Char) :
    ((ls.flatMap fun l => l ++ ['\n']) ++ s).splitOn '\n' = ls ++ s.splitOn '\n' := by
  rw [cut_lines (f := List.splitOn '\n') (g := id) (fun _ s hl => splitOn_line hl s) h, List.map_id]

theorem flatten_linesOf (s : List Char) : (linesOf s).flatten = s := by
  induction s with
  | nil => rfl
  | cons c s ih =>
    rw [linesOf]
    split
    · rw [List.flatten_cons, ih]
      rfl
    · cases hlines : linesOf s with
      | nil =>
        rw [hlines] at ih
        rw [← ih]
        rfl
      | cons line rest =>
        rw [hlines, List.flatten_cons] at ih
        rw [toFirst, List.flatten_cons, List.cons_append, ih]

/-- Whatever bytes a file consists of, its lines are read as the lines of the text that it is read as. -/
theorem linesOf_decodeUtf8 (bytes : List UInt8) : linesOf (decodeUtf8 bytes) = (byteLines bytes).map decodeUtf8 := by
  have hnil : decodeUtf8 [] = [] := by rw [decodeUtf8]
  induction bytes using feed_induction with
  | last line h =>
    by_cases hne : line = []
    · rw [hne, hnil]
      rfl
    · rw [byteLines_last hne h, linesOf_last (decodeUtf8_ne_nil hne) (feed_not_mem_decode h)]
      rfl
  | line line rest h ih =>
    rw [decodeUtf8_append_feed, linesOf_line (feed_not_mem_decode h), byteLines_line h, List.map_cons,
      decodeUtf8_append_feed, hnil, ih]

/-! ### Tag lines -/

theorem head?_dropEndWhile {p : Char → Bool} {c : Char} (h : p c = false) (s : List Char) :
    (dropEndWhile p (c :: s)).head? = some c := by
  rw [dropEndWhile, List.reverse_cons, List.dropWhile_append]
  split <;> simp [h]

theorem allBlank_of_trim_eq_nil {s : List Char} (h : trim s = []) : allBlank s = true := by
  induction s with
  | nil => rfl
  | cons c s ih =>
    rw [trim] at h
    cases hc : isBlank c with
    | true =>
      rw [List.dropWhile_cons_of_pos hc] at h
      exact List.all_cons.trans (by rw [hc]; exact ih h)
    | false =>
      rw [List.dropWhile_cons_of_neg (by simp [hc])] at h
      have hhead := head?_dropEndWhile hc s
      rw [h] at hhead
      cases hhead

theorem isTagLine_cons (c : Char) (s : List Char) :
    isTagLine (c :: s) = if isBlank c then isTagLine s else c = '[' := by
  unfold isTagLine trim
  by_cases hc : isBlank c = true
  · rw [List.dropWhile_cons_of_pos hc, if_pos hc]
  · rw [List.dropWhile_cons_of_neg hc, head?_dropEndWhile (by simpa using hc), if_neg hc]
    rfl

/-- Some line opens with a bracket; `fresh` says that so far there are only blanks in the first one. -/
def opensLine : (fresh : Bool) → List Char → Bool
  | _, [] => false
  | fresh, c :: s =>
    if c = '\n' then opensLine true s
    else if isBlank c then opensLine fresh s
    else fresh && c = '[' || opensLine false s

-- The two go together, since a line feed begins a fresh line, and the first line may go on with what follows.
theorem opensLine_lines (s : List Char) :
    opensLine true s = (linesOf s).any isTagLine ∧ opensLine false s = (linesOf s).tail.any isTagLine := by
  induction s with
  | nil => exact ⟨rfl, rfl⟩
  | cons c s ih =>
    by_cases hfeed : c = '\n'
    · subst hfeed
      have hblank : isTagLine ['\n'] = false := by decide
      simp [opensLine, linesOf, ih.1, hblank]
    · simp only [opensLine, if_neg hfeed, linesOf_cons hfeed]
      cases hs : linesOf s with
      | nil =>
        rw [hs] at ih
        by_cases hc : isBlank c = true <;> simp [toFirst, isTagLine_cons, hc, ih, show isTagLine [] = false from rfl]
      | cons line rest =>
        rw [hs] at ih
        by_cases hc : isBlank c = true <;> simp_all [toFirst, isTagLine_cons]

/-- Only blanks are in the line that a text ends in, if nothing else was there before. -/
def freshAfter : (fresh : Bool) → List Char → Bool
  | fresh, [] => fresh
  | fresh, c :: s => if c = '\n' then freshAfter true s else freshAfter (fresh && isBlank c) s

theorem opensLine_append (fresh : Bool) (s t : List Char) :
    opensLine fresh (s ++ t) = (opensLine fresh s || opensLine (freshAfter fresh s) t) := by
  induction s generalizing fresh with
  | nil => rfl
  | cons c s ih =>
    rw [List.cons_append, opensLine, opensLine, freshAfter]
    split
    · exact ih true
    · split
      · rename_i hc
        rw [ih, hc, Bool.and_true]
      · rename_i hc
        rw [Bool.not_eq_true] at hc
        rw [ih, hc, Bool.and_false, Bool.or_assoc]

theorem opensLine_blanks {b : List Char} (hb : allBlank b = true) (fresh : Bool) : opensLine fresh b = false := by
  induction b generalizing fresh with
  | nil => rfl
  | cons c b ih =>
    rw [allBlank, List.all_cons, Bool.and_eq_true] at hb
    rw [opensLine, ih hb.2, ih hb.2, if_pos hb.1, ite_self]

theorem opensLine_of_isTagLine {s : List Char} (h : isTagLine s = true) : opensLine true s = true := by
  induction s with
  | nil => cases h
  | cons c s ih =>
    rw [isTagLine_cons] at h
    rw [opensLine]
    by_cases hblank : isBlank c = true
    · rw [if_pos hblank] at h
      rw [if_pos hblank, ih h, ite_self]
    · rw [if_neg hblank, decide_eq_true_eq] at h
      subst h
      rfl

theorem not_blank_of_isTagLine {l : List Char} (h : isTagLine l = true) : allBlank l = false := by
  rw [Bool.eq_false_iff]
  intro hblank
  have hopen := opensLine_of_isTagLine h
  rw [opensLine_blanks hblank] at hopen
  cases hopen

/-- The first line opens with a bracket. -/
def Opens (s : List Char) : Prop := ∃ b t, s = b ++ '[' :: t ∧ ∀ c ∈ b, isBlank c = true ∧ c ≠ '\n'

theorem Opens.cons {c : Char} (hblank : isBlank c = true) (hfeed : c ≠ '\n') {s : List Char} (h : Opens s) :
    Opens (c :: s) := by
  obtain ⟨b, t, rfl, hb⟩ := h
  exact ⟨c :: b, t, rfl, List.forall_mem_cons.mpr ⟨⟨hblank, hfeed⟩, hb⟩⟩

theorem Opens.append {s : List Char} (h : Opens s) (t : List Char) : Opens (s ++ t) := by
  obtain ⟨b, u, rfl, hb⟩ := h
  exact ⟨b, u ++ t, by rw [List.append_assoc, List.cons_append], hb⟩

theorem Opens.isTagLine_head {s : List Char} (h : Opens s) {line : List Char} (hline : (linesOf s).head? = some line) :
    isTagLine line = true := by
  obtain ⟨b, t, rfl, hb⟩ := h
  induction b generalizing line with
  | nil =>
    rw [List.nil_append, linesOf_cons (by decide)] at hline
    cases hlines : linesOf t <;>
    · rw [hlines] at hline
      obtain rfl := Option.some.inj hline
      exact isTagLine_cons '[' _
  | cons c b ih =>
    rw [List.forall_mem_cons] at hb
    rw [List.cons_append, linesOf_cons hb.1.2] at hline
    cases hlines : linesOf (b ++ '[' :: t) with
    | nil => exact absurd hlines (linesOf_ne_nil (by simp))
    | cons first rest =>
      rw [hlines] at hline ih
      obtain rfl := Option.some.inj hline
      rw [isTagLine_cons, if_pos hb.1.1]
      exact ih hb.2 rfl

/-- Where some line opens with a bracket, the first such one is the first line or comes after a line feed. -/
theorem exists_opens {fresh : Bool} {s : List Char} (h : opensLine fresh s = true) :
    fresh = true ∧ Opens s ∨ ∃ x y, s = x ++ '\n' :: y ∧ opensLine fresh x = false ∧ Opens y := by
  induction s generalizing fresh with
  | nil => cases h
  | cons c s ih =>
    rw [opensLine] at h
    by_cases hfeed : c = '\n'
    · subst hfeed
      right
      rcases ih h with ⟨-, hs⟩ | ⟨x, y, rfl, hx, hy⟩
      · exact ⟨[], s, rfl, rfl, hs⟩
      · exact ⟨'\n' :: x, y, rfl, hx, hy⟩
    rw [if_neg hfeed] at h
    by_cases hblank : isBlank c = true
    · rw [if_pos hblank] at h
      rcases ih h with ⟨hfresh, hs⟩ | ⟨x, y, rfl, hx, hy⟩
      · exact Or.inl ⟨hfresh, hs.cons hblank hfeed⟩
      · exact Or.inr ⟨c :: x, y, rfl, by rw [opensLine, if_neg hfeed, if_pos hblank, hx], hy⟩
    rw [if_neg hblank] at h
    cases hbracket : fresh && c = '[' with
    | true =>
      rw [Bool.and_eq_true, decide_eq_true_eq] at hbracket
      obtain ⟨hfresh, rfl⟩ := hbracket
      exact Or.inl ⟨hfresh, [], s, rfl, fun _ h => nomatch h⟩
    | false =>
      rw [hbracket, Bool.false_or] at h
      rcases ih h with ⟨hfresh, -⟩ | ⟨x, y, rfl, hx, hy⟩
      · cases hfresh
      · exact Or.inr ⟨c :: x, y, rfl, by rw [opensLine, if_neg hfeed, if_neg hblank, hbracket, hx]; rfl, hy⟩

end Pgn
end ChessArchive
