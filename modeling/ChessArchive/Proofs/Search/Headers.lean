import Mathlib.Tactic.MkIffOfInductiveProp
import ChessArchive.Proofs.Query.Like
import ChessArchive.Proofs.Search.Pages

/-! Searches by headers alone. The games that are found are those that meet every field of the filter that counts, and a
    game without a value meets no field that asks for it. -/

namespace ChessArchive

/-- A game meets every field of a filter that counts, given what it is for a text to contain a term. -/
@[mk_iff]
structure GameFilter.Met (within : String → String → Prop) (f : GameFilter) (m : Metadata) : Prop where
  white : ∀ t, nonBlank f.white = some t → within t m.white
  black : ∀ t, nonBlank f.black = some t → within t m.black
  opening : ∀ t, nonBlank f.opening = some t → ∃ o, m.opening = some o ∧ within t o
  player : ∀ t, nonBlank f.player = some t → within t m.white ∨ within t m.black
  eco : ∀ v, nonBlank f.eco = some v → m.eco = some v
  result : ∀ v, nonBlank f.result = some v → m.result = v
  dateFrom : ∀ v, nonBlank f.dateFrom = some v → ∃ d, m.date = some d ∧ v ≤ d
  dateTo : ∀ v, nonBlank f.dateTo = some v → ∃ d, m.date = some d ∧ d ≤ v
  minElo : ∀ n, f.minElo = some n → ∃ e, (m.whiteElo = some e ∨ m.blackElo = some e) ∧ (n : Int) ≤ e
  maxElo : ∀ n, f.maxElo = some n → ∃ w b, m.whiteElo = some w ∧ m.blackElo = some b ∧ w ≤ (n : Int) ∧ b ≤ (n : Int)

/-- The texts of a game that terms are looked for in have no NUL. -/
def Metadata.Plain (m : Metadata) : Prop :=
  '\x00' ∉ m.white.toList ∧ '\x00' ∉ m.black.toList ∧ ∀ o ∈ m.opening, '\x00' ∉ o.toList

instance (m : Metadata) : Decidable m.Plain := inferInstanceAs (Decidable (_ ∧ _ ∧ _))

/-- The terms of a filter have no NUL, and their patterns are not too long. -/
def GameFilter.Plain (f : GameFilter) : Prop :=
  ∀ c ∈ f.conditions, ∀ t ∈ c.term?, '\x00' ∉ t.toList ∧ (Like.containing t).utf8ByteSize ≤ Like.maxPatternSize

instance (f : GameFilter) : Decidable f.Plain := inferInstanceAs (Decidable (∀ c ∈ f.conditions, _))

namespace GameCondition
variable {m : Metadata}

theorem holds_eco {v : String} : (eco v).holds m = true ↔ m.eco = some v := decide_eq_true_iff

theorem holds_result {v : String} : (result v).holds m = true ↔ m.result = v := decide_eq_true_iff

theorem holds_dateFrom {v : String} : (dateFrom v).holds m = true ↔ ∃ d, m.date = some d ∧ v ≤ d := by
  cases hd : m.date <;> simp [holds, hd]

theorem holds_dateTo {v : String} : (dateTo v).holds m = true ↔ ∃ d, m.date = some d ∧ d ≤ v := by
  cases hd : m.date <;> simp [holds, hd]

theorem holds_minElo {n : Nat} :
    (minElo n).holds m = true ↔ ∃ e, (m.whiteElo = some e ∨ m.blackElo = some e) ∧ (n : Int) ≤ e := by
  simp only [holds, Bool.or_eq_true, Option.any_eq_true, decide_eq_true_eq, or_and_right, exists_or]

theorem holds_maxElo {n : Nat} : (maxElo n).holds m = true ↔
    ∃ w b, m.whiteElo = some w ∧ m.blackElo = some b ∧ w ≤ (n : Int) ∧ b ≤ (n : Int) := by
  simp only [holds, Bool.and_eq_true, Option.any_eq_true, decide_eq_true_eq]
  constructor
  · rintro ⟨⟨w, hw, hwn⟩, b, hb, hbn⟩
    exact ⟨w, b, hw, hb, hwn, hbn⟩
  · rintro ⟨w, b, hw, hb, hwn, hbn⟩
    exact ⟨⟨w, hw, hwn⟩, b, hb, hbn⟩

end GameCondition

namespace GameFilter
variable {f : GameFilter} {m : Metadata}

theorem all_toList_map {α : Type} (x : Option α) (F : α → GameCondition) :
    (x.map F).toList.all (·.holds m) = true ↔ ∀ a, x = some a → (F a).holds m = true := by
  cases x <;> simp

theorem passes_iff_fields : f.passes m = true ↔
    (∀ t, nonBlank f.white = some t → (GameCondition.white t).holds m = true) ∧
    (∀ t, nonBlank f.black = some t → (GameCondition.black t).holds m = true) ∧
    (∀ t, nonBlank f.opening = some t → (GameCondition.opening t).holds m = true) ∧
    (∀ t, nonBlank f.player = some t → (GameCondition.player t).holds m = true) ∧
    (∀ v, nonBlank f.eco = some v → (GameCondition.eco v).holds m = true) ∧
    (∀ v, nonBlank f.result = some v → (GameCondition.result v).holds m = true) ∧
    (∀ v, nonBlank f.dateFrom = some v → (GameCondition.dateFrom v).holds m = true) ∧
    (∀ v, nonBlank f.dateTo = some v → (GameCondition.dateTo v).holds m = true) ∧
    (∀ n, f.minElo = some n → (GameCondition.minElo n).holds m = true) ∧
    ∀ n, f.maxElo = some n → (GameCondition.maxElo n).holds m = true := by
  simp only [passes, conditions, List.all_append, Bool.and_eq_true, all_toList_map, and_assoc]

/-- A filter that is called empty is one that adds no condition. -/
theorem isEmpty_iff : f.isEmpty = true ↔ f.conditions = [] := by
  have hnone : ∀ {α : Type} (x : Option α) (F : α → GameCondition), (x.map F).toList = [] ↔ x.isNone = true := by
    intro α x F
    cases x <;> simp
  simp only [isEmpty, conditions, List.append_eq_nil_iff, hnone, List.all_cons, List.all_nil, Bool.and_eq_true]
  tauto

theorem Plain.isTooLong (h : f.Plain) : ∀ c ∈ f.conditions, c.isTooLong = false := by
  intro c hc
  cases ht : c.term? with
  | none => simp [GameCondition.isTooLong, ht]
  | some t => simpa [GameCondition.isTooLong, ht] using (h c hc t ht).2

/-- What a filter says in conditions is what it says field by field. -/
theorem passes_iff (hf : f.Plain) (hm : m.Plain) : f.passes m = true ↔ f.Met Like.Within m := by
  have hcontains : ∀ {c : GameCondition} {t text : String}, c ∈ f.conditions → c.term? = some t → '\x00' ∉ text.toList →
      (Like.holds (Like.containing t) text = true ↔ Like.Within t text) :=
    fun hc ht htext => Like.holds_containing (hf _ hc _ ht).1 htext
  have hwhite : ∀ t, nonBlank f.white = some t → ((GameCondition.white t).holds m = true ↔ Like.Within t m.white) :=
    fun t ht => hcontains (c := .white t) (by simp [conditions, ht]) rfl hm.1
  have hblack : ∀ t, nonBlank f.black = some t → ((GameCondition.black t).holds m = true ↔ Like.Within t m.black) :=
    fun t ht => hcontains (c := .black t) (by simp [conditions, ht]) rfl hm.2.1
  have hopening : ∀ t, nonBlank f.opening = some t →
      ((GameCondition.opening t).holds m = true ↔ ∃ o, m.opening = some o ∧ Like.Within t o) := by
    intro t ht
    have hmem : GameCondition.opening t ∈ f.conditions := by simp [conditions, ht]
    simp only [GameCondition.holds, Option.any_eq_true]
    exact exists_congr fun o => and_congr_right fun ho => hcontains hmem rfl (hm.2.2 o ho)
  have hplayer : ∀ t, nonBlank f.player = some t →
      ((GameCondition.player t).holds m = true ↔ Like.Within t m.white ∨ Like.Within t m.black) := by
    intro t ht
    have hmem : GameCondition.player t ∈ f.conditions := by simp [conditions, ht]
    rw [GameCondition.holds, Bool.or_eq_true, hcontains hmem rfl hm.1, hcontains hmem rfl hm.2.1]
  rw [passes_iff_fields, met_iff]
  refine and_congr (forall₂_congr hwhite) (and_congr (forall₂_congr hblack) (and_congr (forall₂_congr hopening)
    (and_congr (forall₂_congr hplayer) ?_)))
  simp only [GameCondition.holds_eco, GameCondition.holds_result, GameCondition.holds_dateFrom,
    GameCondition.holds_dateTo, GameCondition.holds_minElo, GameCondition.holds_maxElo]

end GameFilter

namespace Store
variable {s : Store}

theorem search_metadata (hids : (s.games.map (·.id)).Nodup) {f : GameFilter} (hf : f.Plain) (keys : FingerprintKeys)
    (pattern : String) (side : Option Color) {page size : Nat} (hpage : 0 < page) (hsize : 0 < size) :
    s.search keys ⟨.metadata, pattern, side, f, page, size⟩ =
      .ok (.ofPage (s.allMatches f none) page (min size maxPageSize)) := by
  let t : Store := { empty with games := s.games }
  have hsame : s.runPlan ⟨.metadata, pattern, side, f, page, size⟩ none =
      t.runPlan ⟨.metadata, pattern, side, f, page, size⟩ none := rfl
  have hruns : t.runs f none = true := by
    have hshort : f.conditions.any (·.isTooLong) = false := List.any_eq_false.mpr fun c hc => by simp [hf.isTooLong c hc]
    simp [runs, failsOnSomeGame, hshort]
  have hchecked : SearchRequest.checked keys ⟨.metadata, pattern, side, f, page, size⟩ = .ok none :=
    if_neg (not_or.mpr ⟨hpage.ne', hsize.ne'⟩)
  have howners : ∀ p ∈ t.positions, ∃ g ∈ t.games, g.id = p.game := List.forall_mem_nil _
  have hrun := runPlan_eq howners hids ⟨.metadata, pattern, side, f, page, size⟩ none
  rw [if_pos hruns] at hrun
  rw [search, hchecked]
  exact hsame.trans hrun

/-- A search by headers gives, newest first and a page at a time, exactly the games that meet the fields of the filter.
    Where a text or a term has one of the two noncharacters, it contains the term if it does so with the replacement
    character in their place. -/
theorem metadata_search_selects (hids : (s.games.map (·.id)).Nodup) (hgames : ∀ g ∈ s.games, g.metadata.Plain)
    {f : GameFilter} (hf : f.Plain) :
    (∃ found : List StoredGame, found.Pairwise (fun g k => k.id < g.id) ∧
      (∀ g, g ∈ found ↔ g ∈ s.games ∧ f.Met Like.Within g.metadata) ∧
      ∀ size, 0 < size → ∃ pages, Paged (found.map fun g => ⟨g, []⟩) (min size maxPageSize) pages ∧
        ∀ keys pattern side k, s.search keys ⟨.metadata, pattern, side, f, k + 1, size⟩ = .ok (pages k)) ∧
    (f.isEmpty = true ↔ f.conditions = []) ∧
    ∀ term text : String, (∀ c ∈ term.toList ++ text.toList, c ∉ ['\ufffe', '\uffff']) →
      (Like.Within term text ↔ Like.Contains term text) := by
  refine ⟨⟨s.newestFirst (s.finds f none), newestFirst_pairwise hids _, fun g => ?_, fun size hsize => ?_⟩,
    GameFilter.isEmpty_iff, fun term text hplain => ?_⟩
  · rw [(s.newestFirst_perm _).mem_iff, List.mem_filter]
    refine and_congr_right fun hg => ?_
    rw [← GameFilter.passes_iff hf (hgames g hg), finds, Option.all_none, Bool.true_and]
  · refine ⟨_, ofPage_paged _ (Nat.lt_min.mpr ⟨hsize, by decide⟩), fun keys pattern side k => ?_⟩
    exact search_metadata hids hf keys pattern side (Nat.succ_pos k) hsize
  · exact Like.within_iff_contains (fun c hc => hplain c (List.mem_append_left _ hc))
      fun c hc => hplain c (List.mem_append_right _ hc)

/-- A percent sign is looked for as it is. -/
theorem metadata_search_selects_percent : ∃ (found : List StoredGame) (pages : Nat → SearchResults),
    ⟨1, .ofTags ⟨[("White", "100%")]⟩, "e4", none⟩ ∈ found ∧ ⟨2, .ofTags ⟨[("White", "1000")]⟩, "e4", none⟩ ∉ found ∧
      Paged (found.map fun g => ⟨g, []⟩) 20 pages ∧ ∀ k,
        ({ empty with games := [⟨2, .ofTags ⟨[("White", "1000")]⟩, "e4", none⟩,
            ⟨1, .ofTags ⟨[("White", "100%")]⟩, "e4", none⟩] } : Store).search ⟨.replicate keyCount 0⟩
          ⟨.metadata, "", none, { GameFilter.empty with white := some " 0% " }, k + 1, 20⟩ = .ok (pages k) := by
  obtain ⟨⟨found, -, hfound, hpages⟩, -⟩ := metadata_search_selects
    (s := { empty with games := [⟨2, .ofTags ⟨[("White", "1000")]⟩, "e4", none⟩,
      ⟨1, .ofTags ⟨[("White", "100%")]⟩, "e4", none⟩] })
    (f := { GameFilter.empty with white := some " 0% " }) (by decide) (by decide +kernel) (by decide +kernel)
  obtain ⟨pages, hpaged, hsearch⟩ := hpages 20 (by decide)
  have hterm : GameFilter.nonBlank (some " 0% ") = some "0%" := by decide +kernel
  refine ⟨found, pages, (hfound _).mpr ⟨by simp, ?_⟩, fun hother => ?_, hpaged, hsearch _ "" none⟩
  · refine ⟨fun t ht => ?_, nofun, nofun, nofun, nofun, nofun, nofun, nofun, nofun, nofun⟩
    obtain rfl : "0%" = t := Option.some.inj (hterm.symm.trans ht)
    exact ⟨['1', '0'], ['0', '%'], [], by decide +kernel, .cons (.inl rfl) (.cons (.inl rfl) .nil)⟩
  · obtain ⟨d, hd, hsame⟩ := Like.exists_related (((hfound _).mp hother).2.white "0%" hterm) '%' (by decide)
    have hwhite : (Metadata.ofTags ⟨[("White", "1000")]⟩).white.toList = ['1', '0', '0', '0'] := by decide +kernel
    rw [hwhite] at hd
    simp only [List.mem_cons, List.not_mem_nil, or_false] at hd
    rcases hd with rfl | rfl | rfl | rfl <;> exact absurd hsame (by decide)

/-- A noncharacter finds a game whose player's name has the replacement character instead. -/
theorem metadata_search_replacement_character :
    (∃ results, ({ empty with games := [⟨1, .ofTags ⟨[("White", "\ufffd")]⟩, "e4", none⟩] } : Store).search
        ⟨.replicate keyCount 0⟩ ⟨.metadata, "", none, { GameFilter.empty with white := some "\ufffe" }, 1, 20⟩ =
          .ok results ∧ results.games.map (·.game.id) = [1]) ∧
      ¬ GameFilter.Met Like.Contains { GameFilter.empty with white := some "\ufffe" }
        (.ofTags ⟨[("White", "\ufffd")]⟩) := by
  constructor
  · exact exists_ok_of_all (by decide +kernel)
  · intro h
    obtain ⟨d, hd, hsame⟩ := Like.exists_related (h.white "\ufffe" (by decide +kernel)) '\ufffe' (by decide)
    have hwhite : (Metadata.ofTags ⟨[("White", "\ufffd")]⟩).white.toList = ['\ufffd'] := by decide +kernel
    rw [hwhite] at hd
    obtain rfl := List.mem_singleton.mp hd
    exact absurd hsame (by decide)

end Store
end ChessArchive
