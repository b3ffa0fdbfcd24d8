import ChessArchive.Pgn.Game

/-! Tag lines, written and read back. Whatever a value holds besides line feeds, it survives. -/

namespace ChessArchive

theorem Text.trim_of_ends {c d : Char} (hc : isBlank c = false) (hd : isBlank d = false) (s : List Char) :
    trim (c :: (s ++ [d])) = c :: (s ++ [d]) := by
  simp [trim, dropEndWhile, hc, hd]

namespace Pgn
open Text

/-! ### Quoting -/

/-- Puts a backslash before each backslash and each quote. -/
def quote (s : List Char) : List Char := s.flatMap fun c => if c = '\\' ∨ c = '"' then ['\\', c] else [c]

theorem replacePair_cons {a b c x : Char} {s : List Char} (h : ¬ (x = a ∧ s.head? = some b)) :
    replacePair a b c (x :: s) = x :: replacePair a b c s := by
  cases s with
  | nil => rfl
  | cons y s => rw [replacePair, if_neg (by simpa using h)]

/-- Reading the quotes of a quoted text leaves each backslash doubled. -/
theorem replacePair_quote (s : List Char) :
    replacePair '\\' '"' '"' (quote s) = s.flatMap fun c => if c = '\\' then ['\\', '\\'] else [c] := by
  induction s with
  | nil => rfl
  | cons c s ih =>
    have hhead : ¬ (quote s).head? = some '"' := by
      cases s with
      | nil => simp [quote]
      | cons d s =>
        by_cases hd : d = '\\' ∨ d = '"'
        · simp [quote, hd]
        · simp only [not_or] at hd
          simp [quote, hd]
    have hcons : quote (c :: s) = (if c = '\\' ∨ c = '"' then ['\\', c] else [c]) ++ quote s := List.flatMap_cons
    rw [hcons, List.flatMap_cons, ← ih]
    by_cases hquote : c = '"'
    · subst hquote
      rfl
    · by_cases hback : c = '\\'
      · subst hback
        rw [if_pos (Or.inl rfl), if_pos rfl]
        change replacePair _ _ _ ('\\' :: '\\' :: quote s) = _
        rw [replacePair_cons (by simp), replacePair_cons (by simp [hhead])]
        rfl
      · rw [if_neg (not_or.mpr ⟨hback, hquote⟩), if_neg hback]
        exact replacePair_cons (by simp [hback])

theorem unquote_quote (s : List Char) : unquote (quote s) = s := by
  rw [unquote, replacePair_quote]
  induction s with
  | nil => rfl
  | cons c s ih =>
    rw [List.flatMap_cons]
    by_cases hback : c = '\\'
    · subst hback
      exact congrArg ('\\' :: ·) ih
    · rw [if_neg hback, List.singleton_append, replacePair_cons (by simp [hback]), ih]

theorem feed_not_mem_quote {s : List Char} (h : '\n' ∉ s) : '\n' ∉ quote s := by
  simp only [quote, List.mem_flatMap, not_exists, not_and]
  intro c hc hmem
  split at hmem
  · rename_i hsign
    rcases List.mem_cons.mp hmem with heq | hmem
    · cases heq
    · obtain rfl := List.mem_singleton.mp hmem
      exact h hc
  · obtain rfl := List.mem_singleton.mp hmem
    exact h hc

/-! ### Lines -/

/-- A name that a tag can have. -/
def IsTagName (name : String) : Prop := name.toList ≠ [] ∧ name.toList.all isNameChar = true

instance (name : String) : Decidable (IsTagName name) :=
  inferInstanceAs (Decidable (name.toList ≠ [] ∧ name.toList.all isNameChar = true))

/-- A tag pair as a line. -/
def tagLine (name value : String) : List Char :=
  '[' :: (name.toList ++ ' ' :: '"' :: (quote value.toList ++ ['"'])) ++ [']']

theorem feed_not_mem_tagLine {name value : String} (hname : IsTagName name) (hvalue : '\n' ∉ value.toList) :
    '\n' ∉ tagLine name value := by
  have hfeed : '\n' ∉ name.toList := by
    intro hmem
    have hchar := List.all_eq_true.mp hname.2 _ hmem
    exact absurd hchar (by decide)
  simp [tagLine, hfeed, feed_not_mem_quote hvalue]

theorem code_of_isNameChar {c : Char} (h : isNameChar c = true) : 48 ≤ c.toNat ∧ c.toNat ≤ 122 := by
  rw [isNameChar, Bool.or_eq_true, beq_iff_eq] at h
  rcases h with halnum | rfl
  · rcases Bool.or_eq_true_iff.mp halnum with halpha | hdigit
    · rcases Bool.or_eq_true_iff.mp halpha with hupper | hlower
      · have hcode : 65 ≤ c.toNat ∧ c.toNat ≤ 90 := of_decide_eq_true hupper
        omega
      · obtain ⟨hlow, hhigh⟩ := Bool.and_eq_true_iff.mp hlower
        exact ⟨Nat.le_trans (by decide) (of_decide_eq_true hlow), of_decide_eq_true hhigh⟩
    · obtain ⟨hlow, hhigh⟩ := Bool.and_eq_true_iff.mp hdigit
      exact ⟨of_decide_eq_true hlow, Nat.le_trans (of_decide_eq_true hhigh) (by decide)⟩
  · decide

theorem isBlank_of_isNameChar {c : Char} (h : isNameChar c = true) : isBlank c = false := by
  rw [Bool.eq_false_iff]
  intro hblank
  simp only [isBlank, Bool.or_eq_true, Bool.and_eq_true, decide_eq_true_eq, beq_iff_eq] at hblank
  have hcode := code_of_isNameChar h
  omega

theorem between?_eq (first last : Char) (s : List Char) : between? first last (first :: (s ++ [last])) = some s := by
  simp [between?]

theorem splitAtBlank?_eq {s : List Char} (hs : ∀ c ∈ s, isBlank c = false) {b : Char} (hb : isBlank b = true)
    (t : List Char) : splitAtBlank? (s ++ b :: t) = some (s, t) := by
  induction s with
  | nil => rw [List.nil_append, splitAtBlank?, if_pos hb]
  | cons c s ih =>
    rw [List.forall_mem_cons] at hs
    rw [List.cons_append, splitAtBlank?, hs.1, if_neg Bool.false_ne_true, ih hs.2]
    rfl

theorem trim_tagLine (name value : String) : trim (tagLine name value) = tagLine name value :=
  trim_of_ends (by decide) (by decide) _

theorem readTag_tagLine {name : String} (hname : IsTagName name) (value : String) :
    readTag (tagLine name value) = some (name, value) := by
  have hblank : ∀ c ∈ name.toList, isBlank c = false := fun c hc =>
    isBlank_of_isNameChar (List.all_eq_true.mp hname.2 c hc)
  have hinner : trim (name.toList ++ ' ' :: '"' :: (quote value.toList ++ ['"'])) =
      name.toList ++ ' ' :: '"' :: (quote value.toList ++ ['"']) := by
    obtain ⟨c, rest, hcons⟩ := List.exists_cons_of_ne_nil hname.1
    rw [hcons] at hblank ⊢
    simpa using trim_of_ends (hblank c List.mem_cons_self) (show isBlank '"' = false by decide)
      (rest ++ ' ' :: '"' :: quote value.toList)
  have hvalue : trim ('"' :: (quote value.toList ++ ['"'])) = '"' :: (quote value.toList ++ ['"']) :=
    trim_of_ends (by decide) (by decide) _
  simp only [readTag, tagLine, List.cons_append, between?_eq, Option.bind_eq_bind, Option.bind_some, hinner,
    splitAtBlank?_eq hblank (show isBlank ' ' = true from by decide), hvalue, unquote_quote, String.ofList_toList]
  exact if_pos hname

/-! ### Headers -/

theorem insert_new {t : Tags} {name : String} (h : name ∉ t.entries.map (·.1)) (value : String) :
    t.insert name value = ⟨t.entries ++ [(name, value)]⟩ := by
  have hnone : t.get? name = none := by
    rw [Tags.get?, List.lookup_eq_none_iff]
    intro e he
    rw [bne_iff_ne]
    rintro rfl
    exact h (List.mem_map_of_mem he)
  simp [Tags.insert, hnone]

theorem readHeader_tagLine {name : String} (hname : IsTagName name) (t : Tags) (value : String)
    (rest : List (List Char)) : readHeader t (tagLine name value :: rest) = readHeader (t.insert name value) rest := by
  have hread := readTag_tagLine hname value
  have htrim := trim_tagLine name value
  obtain ⟨s, hs⟩ : ∃ s, tagLine name value = '[' :: s := ⟨_, rfl⟩
  rw [hs] at hread htrim ⊢
  rw [readHeader, htrim]
  simp only [if_true, hread]

/-- The tags of a header are those that it writes, in its order, if no name comes again. -/
theorem readHeader_tagLines {entries : List (String × String)} (hnames : ∀ e ∈ entries, IsTagName e.1) (t : Tags)
    (hnew : ((t.entries ++ entries).map (·.1)).Nodup) (rest : List (List Char)) :
    readHeader t (entries.map (fun e => tagLine e.1 e.2) ++ rest) = readHeader ⟨t.entries ++ entries⟩ rest := by
  induction entries generalizing t with
  | nil => rw [List.map_nil, List.nil_append, List.append_nil]
  | cons e entries ih =>
    rw [List.forall_mem_cons] at hnames
    have hfirst : e.1 ∉ t.entries.map (·.1) := by
      simp only [List.map_append, List.map_cons, List.nodup_append] at hnew
      exact fun hmem => hnew.2.2 _ hmem _ List.mem_cons_self rfl
    rw [List.map_cons, List.cons_append, readHeader_tagLine hnames.1, insert_new hfirst, ih hnames.2]
    · simp
    · simpa using hnew

end Pgn
end ChessArchive
