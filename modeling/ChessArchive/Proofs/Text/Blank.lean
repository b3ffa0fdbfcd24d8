import Mathlib.Data.List.TakeWhile
import ChessArchive.Text.Blank

/-! Trimming and splitting texts that are put together from words and blanks. -/

namespace ChessArchive
namespace Text

theorem dropWhile_of_none {p : Char → Bool} {s : List Char} (h : ∀ c ∈ s, p c = false) : s.dropWhile p = s := by
  cases s with
  | nil => rfl
  | cons c s => rw [List.dropWhile_cons, h c List.mem_cons_self, if_neg Bool.false_ne_true]

theorem dropEndWhile_of_none {p : Char → Bool} {s : List Char} (h : ∀ c ∈ s, p c = false) :
    dropEndWhile p s = s := by
  rw [dropEndWhile, dropWhile_of_none fun c hc => h c (List.mem_reverse.mp hc), List.reverse_reverse]

theorem dropEndWhile_append {p : Char → Bool} {s t : List Char} (hs : ∀ c ∈ s, p c = false)
    (ht : ∀ c ∈ t, p c = true) : dropEndWhile p (s ++ t) = s := by
  rw [dropEndWhile, List.reverse_append, List.dropWhile_append_of_pos fun c hc => ht c (List.mem_reverse.mp hc),
    dropWhile_of_none fun c hc => hs c (List.mem_reverse.mp hc), List.reverse_reverse]

/-- A word is what is left of it with blanks around. -/
theorem trim_around {before s after : List Char} (hbefore : allBlank before = true) (hafter : allBlank after = true)
    (hs : ∀ c ∈ s, isBlank c = false) : trim (before ++ s ++ after) = s := by
  rw [allBlank, List.all_eq_true] at hbefore hafter
  rw [trim, List.append_assoc, List.dropWhile_append_of_pos hbefore]
  cases s with
  | nil =>
    rw [List.nil_append, List.dropWhile_eq_nil_iff.mpr hafter]
    rfl
  | cons c s =>
    have hc : ¬ isBlank c = true := by simp [hs c List.mem_cons_self]
    rw [List.cons_append, List.dropWhile_cons_of_neg hc]
    exact dropEndWhile_append hs hafter

theorem firstField?_of_plain {s : List Char} (hne : s ≠ []) (h : ∀ c ∈ s, isBlank c = false) :
    firstField? s = some s := by
  have hfield : s.takeWhile (fun d => !isBlank d) = s := List.takeWhile_eq_self_iff.mpr fun c hc => by simp [h c hc]
  obtain ⟨c, r, rfl⟩ := List.exists_cons_of_ne_nil hne
  rw [firstField?, dropWhile_of_none h]
  exact congrArg some hfield

theorem forall_mem_intercalate {α : Type} {p : α → Prop} {separator : List α} {parts : List (List α)}
    (hseparator : ∀ c ∈ separator, p c) (hparts : ∀ part ∈ parts, ∀ c ∈ part, p c) :
    ∀ c ∈ separator.intercalate parts, p c := by
  induction parts with
  | nil => simp
  | cons part parts ih =>
    rw [List.forall_mem_cons] at hparts
    cases parts with
    | nil => simpa using hparts.1
    | cons next parts =>
      rw [List.intercalate_cons_cons, List.forall_mem_append, List.forall_mem_append]
      exact ⟨⟨hparts.1, hseparator⟩, ih hparts.2⟩

theorem mem_intercalate {α : Type} {separator : List α} {parts : List (List α)} {part : List α} (hpart : part ∈ parts)
    {c : α} (hc : c ∈ part) : c ∈ separator.intercalate parts := by
  induction parts with
  | nil => cases hpart
  | cons first parts ih =>
    cases parts with
    | nil =>
      obtain rfl := List.mem_singleton.mp hpart
      rwa [List.intercalate_singleton]
    | cons next parts =>
      rw [List.intercalate_cons_cons, List.mem_append]
      rcases List.mem_cons.mp hpart with rfl | hpart
      · exact Or.inl (List.mem_append_left separator hc)
      · exact Or.inr (ih hpart)

/-! ### Words -/

/-- A text without blanks that is not empty. -/
def IsWord (w : List Char) : Prop := w ≠ [] ∧ ∀ c ∈ w, isBlank c = false

instance : DecidablePred IsWord := fun w =>
  decidable_of_iff (w ≠ [] ∧ w.any isBlank = false) (and_congr_right fun _ => by simp)

theorem fields_blank {c : Char} (hc : isBlank c = true) (s : List Char) : fields (c :: s) = fields s := by
  rw [fields_cons, if_pos hc]

theorem fields_last {c : Char} {s : List Char} (hc : isBlank c = false) (hs : ∀ d ∈ s.head?, isBlank d = true) :
    fields (c :: s) = [c] :: fields s := by
  rw [fields_cons, if_neg (by simp [hc])]
  cases s with
  | nil => rfl
  | cons d s =>
    cases fields (d :: s) with
    | nil => rfl
    | cons f fs => exact if_pos (hs d rfl)

theorem fields_within {c d : Char} {s f : List Char} {fs : List (List Char)} (hc : isBlank c = false)
    (hd : isBlank d = false) (h : fields (d :: s) = f :: fs) : fields (c :: d :: s) = (c :: f) :: fs := by
  rw [fields_cons, if_neg (by simp [hc]), h]
  exact if_neg (by simp [hd])

theorem fields_append {w s : List Char} (hw : IsWord w) (hs : ∀ c ∈ s.head?, isBlank c = true) :
    fields (w ++ s) = w :: fields s := by
  obtain ⟨hne, hplain⟩ := hw
  induction w with
  | nil => exact absurd rfl hne
  | cons c w ih =>
    rw [List.forall_mem_cons] at hplain
    cases w with
    | nil => exact fields_last hplain.1 hs
    | cons d w => exact fields_within hplain.1 (hplain.2 d List.mem_cons_self) (ih (List.cons_ne_nil d w) hplain.2)

theorem exists_fields {c : Char} (hc : isBlank c = false) (s : List Char) : ∃ f fs, fields (c :: s) = f :: fs := by
  rw [fields_cons, if_neg (by simp [hc])]
  split
  · split <;> exact ⟨_, _, rfl⟩
  · exact ⟨_, _, rfl⟩

/-- A blank ends the words before it and begins new ones. -/
theorem fields_append_blank {c : Char} (hc : isBlank c = true) (s t : List Char) :
    fields (s ++ c :: t) = fields s ++ fields t := by
  induction s with
  | nil => exact fields_blank hc t
  | cons d s ih =>
    cases hd : isBlank d with
    | true => rw [List.cons_append, fields_blank hd, fields_blank hd, ih]
    | false =>
      cases s with
      | nil =>
        rw [List.cons_append, fields_last hd (by simpa using hc), ih, fields_last hd (by simp)]
        rfl
      | cons e s =>
        cases he : isBlank e with
        | true =>
          rw [List.cons_append, fields_last hd (by simpa using he), ih, fields_last hd (by simpa using he)]
          rfl
        | false =>
          obtain ⟨f, fs, hfields⟩ := exists_fields he s
          have hlonger : fields (e :: (s ++ c :: t)) = f :: (fs ++ fields t) := ih.trans (by rw [hfields]; rfl)
          rw [List.cons_append, List.cons_append, fields_within hd he hlonger, fields_within hd he hfields]
          rfl

/-- Splitting a text leaves out its blanks, and nothing else. -/
theorem flatten_fields (s : List Char) : (fields s).flatten = s.filter fun c => !isBlank c := by
  induction s with
  | nil => rfl
  | cons c s ih =>
    by_cases hblank : isBlank c = true
    · rw [fields_blank hblank, ih, List.filter_cons_of_neg (by simp [hblank])]
    · rw [List.filter_cons_of_pos (by simpa using hblank), ← ih, fields_cons, if_neg hblank]
      split
      · split <;> simp_all
      · rfl

/-- Words with blanks between them are read as these words. -/
theorem fields_intercalate {ws : List (List Char)} (h : ∀ w ∈ ws, IsWord w) : fields ([' '].intercalate ws) = ws := by
  induction ws with
  | nil => rfl
  | cons w ws ih =>
    rw [List.forall_mem_cons] at h
    cases ws with
    | nil =>
      have hone : fields (w ++ []) = w :: fields [] := fields_append h.1 nofun
      rw [List.append_nil] at hone
      rw [List.intercalate_singleton, hone]
      rfl
    | cons v ws =>
      have hblank : isBlank ' ' = true := by decide
      have hfirst : ∀ c ∈ (' ' :: [' '].intercalate (v :: ws)).head?, isBlank c = true := by
        rintro c ⟨⟩
        exact hblank
      rw [List.intercalate_cons_cons, List.append_assoc, List.singleton_append, fields_append h.1 hfirst,
        fields_blank hblank, ih h.2]

/-- What a text is split into are words. -/
theorem isWord_of_mem_fields {s w : List Char} (h : w ∈ fields s) : IsWord w := by
  induction s generalizing w with
  | nil => cases h
  | cons c s ih =>
    by_cases hblank : isBlank c = true
    · rw [fields_blank hblank] at h
      exact ih h
    · have hc : isBlank c = false := by simpa using hblank
      have hone : IsWord [c] := ⟨List.cons_ne_nil c [], List.forall_mem_singleton.mpr hc⟩
      rw [fields_cons, if_neg hblank] at h
      split at h
      · rename_i d r f fs hfields
        have hwords : ∀ v ∈ f :: fs, IsWord v := fun v hv => ih (hfields ▸ hv)
        rw [List.forall_mem_cons] at hwords
        split at h
        · rcases List.mem_cons.mp h with rfl | h
          · exact hone
          · exact ih (hfields ▸ h)
        · rcases List.mem_cons.mp h with rfl | h
          · exact ⟨List.cons_ne_nil c f, List.forall_mem_cons.mpr ⟨hc, hwords.1.2⟩⟩
          · exact hwords.2 w h
      · rcases List.mem_cons.mp h with rfl | h
        · exact hone
        · exact ih h

end Text
end ChessArchive
