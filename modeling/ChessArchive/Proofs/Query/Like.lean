import Mathlib.Data.List.TakeWhile
import ChessArchive.Proofs.Query.Statement

/-! What a search for a term finds. A pattern that is made of a term is met by the texts that contain the term, whatever
    characters the term has: a percent sign, an underscore or a backslash in it stands for itself. Letters of ASCII are
    found in either case. Beyond that only the replacement character and the two noncharacters are taken for each other. -/

namespace ChessArchive
namespace Like

/-- The replacement character and the two that LIKE takes for it. -/
def replacements : List Char := ['\ufffd', '\ufffe', '\uffff']

/-- Two characters that LIKE does not tell apart. -/
def Same (c d : Char) : Prop := c.toLower = d.toLower ∨ c ∈ replacements ∧ d ∈ replacements

instance (c d : Char) : Decidable (Same c d) := inferInstanceAs (Decidable (_ ∨ _ ∧ _))

/-- A text contains a term but for the case of letters. -/
def Contains (term text : String) : Prop :=
  ∃ before found rest, text.toList = before ++ (found ++ rest) ∧
    List.Forall₂ (fun c d => c.toLower = d.toLower) term.toList found

/-- A text contains a term, as far as LIKE can tell. -/
def Within (term text : String) : Prop :=
  ∃ before found rest, text.toList = before ++ (found ++ rest) ∧ List.Forall₂ Same term.toList found

/-- Each character of a term stands for one of the text that it is found in. -/
theorem exists_related {R : Char → Char → Prop} {term text : List Char}
    (h : ∃ before found rest, text = before ++ (found ++ rest) ∧ List.Forall₂ R term found) :
    ∀ c ∈ term, ∃ d ∈ text, R c d := by
  obtain ⟨before, found, rest, rfl, hfound⟩ := h
  intro c hc
  obtain ⟨d, hd, hrelated⟩ := exists_of_mem_right hfound.flip c hc
  exact ⟨d, List.mem_append_right _ (List.mem_append_left _ hd), hrelated⟩

/-! ### Characters -/

/-- Only letters of ASCII change their case. -/
theorem toLower_eq_iff {c x : Char} (h : 128 ≤ x.toNat) : c.toLower = x ↔ c = x := by
  unfold Char.toLower
  split
  · rename_i hletter
    have hle : c.toNat ≤ 90 := hletter.2
    constructor
    · intro hc
      have hval : (c.val + ('a'.val - 'A'.val)).toNat = x.toNat := congrArg (·.val.toNat) hc
      have hshift : ('a'.val - 'A'.val).toNat = 32 := rfl
      rw [UInt32.toNat_add, hshift] at hval
      have hnat : (c.toNat + 32) % 2 ^ 32 = x.toNat := hval
      omega
    · rintro rfl
      omega
  · exact Iff.rfl

theorem mem_replacements {c : Char} : c ∈ replacements ↔ compared c = '\ufffd' := by
  simp only [replacements, compared, List.mem_cons, List.not_mem_nil, or_false]
  split <;> simp_all

theorem compared_of_not_mem {c : Char} (h : c ∉ replacements) : compared c = c := by
  simp only [replacements, List.mem_cons, List.not_mem_nil, or_false, not_or] at h
  exact if_neg (not_or.mpr h.2)

/-- A replacement character is the same as no other. -/
theorem not_same {c d : Char} (hc : c ∈ replacements) (hd : d ∉ replacements) : c.toLower ≠ d.toLower := by
  have hlarge : 128 ≤ c.toNat := by
    simp only [replacements, List.mem_cons, List.not_mem_nil, or_false] at hc
    rcases hc with rfl | rfl | rfl <;> decide
  intro h
  have hself : c.toLower = c := (toLower_eq_iff hlarge).mpr rfl
  have hsame : d = c := (toLower_eq_iff hlarge).mp (h.symm.trans hself)
  exact hd (hsame ▸ hc)

theorem compared_toLower {c d : Char} : (compared c).toLower = (compared d).toLower ↔ Same c d := by
  have hfirst : '\ufffd' ∈ replacements := List.mem_cons_self
  by_cases hc : c ∈ replacements <;> by_cases hd : d ∈ replacements
  · rw [mem_replacements.mp hc, mem_replacements.mp hd]
    exact iff_of_true rfl (.inr ⟨hc, hd⟩)
  · rw [mem_replacements.mp hc, compared_of_not_mem hd]
    refine iff_of_false (not_same hfirst hd) ?_
    rintro (h | h)
    · exact not_same hc hd h
    · exact hd h.2
  · rw [compared_of_not_mem hc, mem_replacements.mp hd]
    refine iff_of_false (fun h => not_same hfirst hc h.symm) ?_
    rintro (h | h)
    · exact not_same hd hc h.symm
    · exact hc h.1
  · rw [compared_of_not_mem hc, compared_of_not_mem hd]
    exact ⟨.inl, Or.rec id fun h => absurd h.1 hc⟩

/-- Without the two noncharacters, LIKE tells all characters apart but for their case. -/
theorem same_iff {c d : Char} (hc : c ∉ ['\ufffe', '\uffff']) (hd : d ∉ ['\ufffe', '\uffff']) :
    Same c d ↔ c.toLower = d.toLower := by
  constructor
  · rintro (h | ⟨hc', hd'⟩)
    · exact h
    · rw [(List.mem_cons.mp hc').resolve_right hc, (List.mem_cons.mp hd').resolve_right hd]
  · exact .inl

theorem within_iff_contains {term text : String} (hterm : ∀ c ∈ term.toList, c ∉ ['\ufffe', '\uffff'])
    (htext : ∀ c ∈ text.toList, c ∉ ['\ufffe', '\uffff']) : Within term text ↔ Contains term text := by
  refine exists_congr fun before => exists_congr fun found => exists_congr fun rest => and_congr_right fun hsplit => ?_
  have hfound : ∀ d ∈ found, d ∉ ['\ufffe', '\uffff'] := by
    intro d hd
    refine htext d ?_
    rw [hsplit]
    exact List.mem_append_right _ (List.mem_append_left _ hd)
  rw [List.forall₂_iff_zip, List.forall₂_iff_zip]
  refine and_congr_right fun _ => forall_congr' fun c => forall_congr' fun d => imp_congr_right fun hzip => ?_
  obtain ⟨hc, hd⟩ := List.of_mem_zip hzip
  exact same_iff (hterm c hc) (hfound d hd)

/-! ### Patterns -/

theorem mem_suffixes {s t : List Char} : t ∈ suffixes s ↔ ∃ before, s = before ++ t := by
  induction s with
  | nil => simp [suffixes]
  | cons c s ih =>
    rw [suffixes, List.mem_cons, ih]
    constructor
    · rintro (rfl | ⟨before, rfl⟩)
      · exact ⟨[], rfl⟩
      · exact ⟨c :: before, rfl⟩
    · rintro ⟨_ | ⟨_, before⟩, h⟩
      · exact .inl h.symm
      · exact .inr ⟨before, (List.cons.inj h).2⟩

theorem accepts_anyText {ts : List Token} {s : List Char} :
    accepts (.anyText :: ts) s = true ↔ ∃ before rest, s = before ++ rest ∧ accepts ts rest = true := by
  rw [accepts, List.any_eq_true]
  simp only [mem_suffixes]
  constructor
  · rintro ⟨rest, ⟨before, hs⟩, h⟩
    exact ⟨before, rest, hs, h⟩
  · rintro ⟨before, rest, hs, h⟩
    exact ⟨rest, ⟨before, hs⟩, h⟩

theorem accepts_chars {cs s : List Char} {ts : List Token} :
    accepts (cs.map .char ++ ts) s = true ↔ ∃ found rest, s = found ++ rest ∧
      List.Forall₂ (fun c d => c.toLower = d.toLower) cs found ∧ accepts ts rest = true := by
  induction cs generalizing s with
  | nil =>
    constructor
    · exact fun h => ⟨[], s, rfl, .nil, h⟩
    · rintro ⟨_, rest, rfl, ⟨⟩, h⟩
      exact h
  | cons c cs ih =>
    cases s with
    | nil =>
      refine iff_of_false (by simp [accepts]) ?_
      rintro ⟨_, rest, hs, ⟨⟩, -⟩
      cases hs
    | cons d s =>
      rw [List.map_cons, List.cons_append, accepts, Bool.and_eq_true, beq_iff_eq, ih]
      constructor
      · rintro ⟨hd, found, rest, rfl, hfound, h⟩
        exact ⟨d :: found, rest, rfl, .cons hd hfound, h⟩
      · rintro ⟨_, rest, hs, hfound, h⟩
        obtain _ | ⟨hd, hfound⟩ := hfound
        obtain ⟨rfl, rfl⟩ := List.cons.inj hs
        exact ⟨hd, _, rest, rfl, hfound, h⟩

theorem counted_of_not_mem {s : List Char} (h : '\x00' ∉ s) : counted s = s.map compared := by
  rw [counted, List.takeWhile_eq_self_iff.mpr]
  intro c hc
  exact decide_eq_true fun heq => h (heq ▸ hc)

theorem map_compared_escape (s : List Char) : (escape s).map compared = escape (s.map compared) := by
  rw [escape, escape, List.map_flatMap, List.flatMap_map]
  refine List.flatMap_congr fun c _ => ?_
  by_cases hc : c ∈ ['\ufffe', '\uffff']
  · simp only [List.mem_cons, List.not_mem_nil, or_false] at hc
    rcases hc with rfl | rfl <;> decide
  · have hsame : compared c = c := if_neg (by simpa using hc)
    rw [hsame]
    split <;> simp [hsame, show compared '\\' = '\\' from rfl]

theorem not_mem_containing {term : String} (h : '\x00' ∉ term.toList) : '\x00' ∉ (containing term).toList := by
  have hescape : '\x00' ∉ escape term.toList := by
    rw [escape, List.mem_flatMap]
    rintro ⟨c, hc, hmem⟩
    split at hmem
    · obtain rfl : '\x00' = c := by simpa using hmem
      exact h hc
    · obtain rfl := List.mem_singleton.mp hmem
      exact h hc
  simp [containing, hescape]

theorem tokens_containing {term : String} (h : '\x00' ∉ term.toList) :
    tokens (counted (containing term).toList) = .anyText :: ((term.toList.map compared).map .char ++ [.anyText]) := by
  have hpattern : (containing term).toList.map compared = '%' :: (escape (term.toList.map compared) ++ ['%']) := by
    rw [containing, String.toList_ofList, List.map_append, List.map_cons, map_compared_escape]
    rfl
  have hfirst : ∀ s, tokens ('%' :: s) = .anyText :: tokens s := fun _ => rfl
  rw [counted_of_not_mem (not_mem_containing h), hpattern, hfirst, tokens_escape_append]
  rfl

/-- The pattern of a term is met by the texts that contain the term. -/
theorem holds_containing {term text : String} (hterm : '\x00' ∉ term.toList) (htext : '\x00' ∉ text.toList) :
    holds (containing term) text = true ↔ Within term text := by
  have hend : ∀ s, accepts [.anyText] s = true := fun s => accepts_anyText.mpr ⟨s, [], (List.append_nil s).symm, rfl⟩
  rw [holds, tokens_containing hterm, counted_of_not_mem htext, accepts_anyText]
  constructor
  · rintro ⟨before, rest, hsplit, h⟩
    obtain ⟨found, rest, rfl, hfound, -⟩ := accepts_chars.mp h
    obtain ⟨before, later, htext, rfl, hlater⟩ := List.map_eq_append_iff.mp hsplit
    obtain ⟨found, rest, rfl, rfl, rfl⟩ := List.map_eq_append_iff.mp hlater
    rw [List.forall₂_map_left_iff, List.forall₂_map_right_iff] at hfound
    exact ⟨before, found, rest, htext, hfound.imp fun _ _ => compared_toLower.mp⟩
  · rintro ⟨before, found, rest, htext, hfound⟩
    refine ⟨before.map compared, (found ++ rest).map compared, by rw [htext, List.map_append], ?_⟩
    refine accepts_chars.mpr ⟨found.map compared, rest.map compared, List.map_append, ?_, hend _⟩
    rw [List.forall₂_map_left_iff, List.forall₂_map_right_iff]
    exact hfound.imp fun _ _ => compared_toLower.mpr

end Like
end ChessArchive
