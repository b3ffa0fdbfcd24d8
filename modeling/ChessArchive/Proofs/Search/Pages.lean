import ChessArchive.Proofs.Listing
import ChessArchive.Proofs.Reading
import ChessArchive.Proofs.Store.Insert
import ChessArchive.Search.Results

/-! The pages of a search. What is counted, the numbers on a page, and the records and positions that are read for it
    all come from one list of games, which depends neither on the page nor on its size. -/

namespace ChessArchive

theorem GameFilter.conditions_of_isEmpty {f : GameFilter} (h : f.isEmpty = true) : f.conditions = [] := by
  simp only [isEmpty, Bool.and_eq_true, List.all_cons, List.all_nil, Option.isNone_iff_eq_none] at h
  simp [conditions, h]

namespace Store

/-- The games that meet a condition, newest first. -/
def newestFirst (s : Store) (keep : StoredGame → Bool) : List StoredGame :=
  (s.games.filter keep).mergeSort fun g h => h.id ≤ g.id

/-- A game with the positions that a plan selects in it. -/
def matchOf (s : Store) (plan : Option Plan) (g : StoredGame) : GameMatch :=
  ⟨g, (((plan.map s.selected).getD []).filter (·.game = g.id)).map fun p => ⟨p.number, p.san⟩⟩

/-- A search finds a game. -/
def finds (s : Store) (filter : GameFilter) (plan : Option Plan) (g : StoredGame) : Bool :=
  plan.all (fun plan => (s.selected plan).any (·.game = g.id)) && filter.passes g.metadata

/-- All games that a search finds, with their positions. -/
def allMatches (s : Store) (filter : GameFilter) (plan : Option Plan) : List GameMatch :=
  (s.newestFirst (s.finds filter plan)).map (s.matchOf plan)

section
variable {s : Store}

/-! ### Newest first -/

theorem newestFirst_perm (s : Store) (keep : StoredGame → Bool) : (s.newestFirst keep).Perm (s.games.filter keep) :=
  List.mergeSort_perm _ _

theorem newestFirst_pairwise (hids : (s.games.map (·.id)).Nodup) (keep : StoredGame → Bool) :
    (s.newestFirst keep).Pairwise fun g k => k.id < g.id := by
  have hsorted : (s.newestFirst keep).Pairwise fun g k => k.id ≤ g.id :=
    pairwise_sorted (r := fun g k : StoredGame => k.id ≤ g.id) (fun _ _ _ hgk hkl => Int.le_trans hkl hgk)
      (fun _ _ => Int.le_total _ _) _
  have hnodup : ((s.newestFirst keep).map (·.id)).Nodup :=
    ((s.newestFirst_perm keep).map _).nodup_iff.mpr (hids.sublist (List.filter_sublist.map _))
  exact hsorted.imp₂ (fun _ _ hle hne => Int.lt_iff_le_and_ne.mpr ⟨hle, Ne.symm hne⟩) (List.pairwise_map.mp hnodup)

theorem newestIds_pairwise (ids : List Id) : (newestIds ids).Pairwise fun i j => j ≤ i :=
  pairwise_sorted (r := fun i j : Id => j ≤ i) (fun _ _ _ hij hjk => Int.le_trans hjk hij)
    (fun _ _ => Int.le_total _ _) ids

/-! ### What the statements give -/

theorem mem_selected {plan : Plan} {p : StoredPosition} :
    p ∈ s.selected plan ↔ p ∈ s.positions ∧ 0 < plan.ways s.rows p := by
  simp only [selected, List.mem_mergeSort, List.mem_flatMap, List.mem_replicate, Nat.pos_iff_ne_zero]
  constructor
  · rintro ⟨q, hq, hways, rfl⟩
    exact ⟨hq, hways⟩
  · exact fun ⟨hp, hways⟩ => ⟨p, hp, hways, rfl⟩

theorem mem_candidates {plan : Plan} {filter : GameFilter} (howners : ∀ p ∈ s.positions, ∃ g ∈ s.games, g.id = p.game)
    {id : Id} : id ∈ (s.candidates plan filter).map (·.game) ↔
      ∃ g ∈ s.games, g.id = id ∧ s.finds filter (some plan) g = true := by
  have hfinds : ∀ g : StoredGame, s.finds filter (some plan) g = true ↔
      (∃ p ∈ s.selected plan, p.game = g.id) ∧ filter.passes g.metadata = true := by
    intro g
    simp [finds]
  simp only [hfinds, List.mem_map]
  cases hempty : filter.isEmpty with
  | true =>
    have hpasses : ∀ m, filter.passes m = true := by simp [GameFilter.passes, GameFilter.conditions_of_isEmpty hempty]
    simp only [candidates, hempty, if_true, hpasses, and_true]
    constructor
    · rintro ⟨p, hp, rfl⟩
      obtain ⟨g, hg, hid⟩ := howners p (mem_selected.mp hp).1
      exact ⟨g, hg, hid, p, hp, hid.symm⟩
    · rintro ⟨g, -, rfl, p, hp, hgame⟩
      exact ⟨p, hp, hgame⟩
  | false =>
    simp only [candidates, hempty, Bool.false_eq_true, if_false, List.mem_filter, List.any_eq_true, Bool.and_eq_true,
      decide_eq_true_eq]
    constructor
    · rintro ⟨p, ⟨hp, g, hg, hid, hpasses⟩, rfl⟩
      exact ⟨g, hg, hid, ⟨p, hp, hid.symm⟩, hpasses⟩
    · rintro ⟨g, hg, rfl, ⟨p, hp, hgame⟩, hpasses⟩
      exact ⟨p, ⟨hp, g, hg, hgame.symm, hpasses⟩, hgame⟩

theorem foundIds_eq (howners : ∀ p ∈ s.positions, ∃ g ∈ s.games, g.id = p.game) (hids : (s.games.map (·.id)).Nodup)
    (filter : GameFilter) (plan : Option Plan) :
    s.foundIds filter plan = (s.newestFirst (s.finds filter plan)).map (·.id) := by
  have hdescending : ((s.newestFirst (s.finds filter plan)).map (·.id)).Pairwise fun i j => j ≤ i :=
    List.pairwise_map.mpr ((newestFirst_pairwise hids _).imp fun h => Int.le_of_lt h)
  have hperm : (s.foundIds filter plan).Perm ((s.newestFirst (s.finds filter plan)).map (·.id)) := by
    refine List.Perm.trans ?_ ((s.newestFirst_perm _).map _).symm
    cases plan with
    | none => exact List.mergeSort_perm _ _
    | some plan =>
      refine (List.mergeSort_perm _ _).trans ?_
      refine (List.perm_ext_iff_of_nodup (nodup_eraseDups _) (hids.sublist (List.filter_sublist.map _))).mpr ?_
      intro id
      rw [List.mem_eraseDups, mem_candidates howners, List.mem_map]
      exact exists_congr fun g => by rw [List.mem_filter, and_assoc, and_comm (a := g.id = id)]
  refine hperm.eq_of_pairwise (fun i j _ _ hji hij => Int.le_antisymm hij hji) ?_ hdescending
  cases plan <;> exact newestIds_pairwise _

theorem countFound_eq (howners : ∀ p ∈ s.positions, ∃ g ∈ s.games, g.id = p.game) (hids : (s.games.map (·.id)).Nodup)
    (filter : GameFilter) (plan : Option Plan) :
    s.countFound filter plan = (s.allMatches filter plan).length := by
  have hlength : s.countFound filter plan = (s.foundIds filter plan).length := by
    cases plan with
    | none => simp [countFound, foundIds, newestIds, List.countP_eq_length_filter]
    | some plan => simp [countFound, foundIds, newestIds]
  rw [hlength, foundIds_eq howners hids, allMatches, List.length_map, List.length_map]

theorem candidates_empty (s : Store) (plan : Plan) : s.candidates plan .empty = s.selected plan := by
  simp [candidates, GameFilter.isEmpty, GameFilter.empty, GameFilter.nonBlank]

/-- Positions that are sorted by their games are left as they are among those of one game. -/
theorem filter_byGame (ps : List StoredPosition) (game : Id) :
    (ps.mergeSort fun p q => q.game ≤ p.game).filter (·.game = game) = ps.filter (·.game = game) := by
  have hsame : (ps.filter (·.game = game)).Pairwise fun p q => decide (q.game ≤ p.game) = true := by
    refine List.pairwise_of_forall_mem_list fun p hp q hq => ?_
    have hp : p.game = game := by simpa using (List.mem_filter.mp hp).2
    have hq : q.game = game := by simpa using (List.mem_filter.mp hq).2
    simp [hp, hq]
  rw [filter_mergeSort (fun p q r => ?_) (fun p q => ?_), List.mergeSort_of_pairwise hsame]
  · simpa using fun hpq hqr => Int.le_trans hqr hpq
  · simpa using Int.le_total q.game p.game

/-- The positions that are read for several games are, game by game, those that the plan selects. -/
theorem positionsIn_game (plan : Plan) {ids : List Id} {id : Id} (hid : id ∈ ids) :
    (s.positionsIn plan ids).filter (·.game = id) = (s.selected plan).filter (·.game = id) := by
  rw [positionsIn, candidates_empty, filter_byGame, List.filter_filter]
  refine List.filter_congr fun p _ => ?_
  by_cases hp : p.game = id <;> simp [hp, hid]

theorem game?_eq (hids : (s.games.map (·.id)).Nodup) {g : StoredGame} (hg : g ∈ s.games) : s.game? g.id = some g := by
  obtain ⟨k, hk⟩ : ∃ k, s.game? g.id = some k :=
    Option.isSome_iff_exists.mp (List.find?_isSome.mpr ⟨g, hg, by simp⟩)
  have hid : k.id = g.id := by simpa using List.find?_some hk
  rw [hk, List.inj_on_of_nodup_map hids (List.mem_of_find?_eq_some hk) hg hid]

theorem matchesOf_eq (hids : (s.games.map (·.id)).Nodup) (plan : Option Plan) {games : List StoredGame}
    (hgames : ∀ g ∈ games, g ∈ s.games) : s.matchesOf plan (games.map (·.id)) = games.map (s.matchOf plan) := by
  rw [matchesOf, List.filterMap_map]
  conv_rhs => rw [← List.filterMap_eq_map]
  refine List.filterMap_congr fun g hg => ?_
  rw [Function.comp_apply, game?_eq hids (hgames g hg)]
  cases plan with
  | none => rfl
  | some plan =>
    simp only [Option.map_some, Option.getD_some]
    rw [positionsIn_game plan (List.mem_map_of_mem hg)]
    rfl

/-! ### Pages -/

end

end Store

/-- A page of a list of matches. Pages count from 1. -/
def SearchResults.ofPage (all : List GameMatch) (page size : Nat) : SearchResults :=
  let totalPages := (all.length + size - 1) / size
  { games := (all.drop ((page - 1) * size)).take size
    pagination := {
      page
      pageSize := size
      totalGames := all.length
      totalPages
      hasNext := decide (page < totalPages)
      hasPrev := decide (1 < page) } }

namespace Store
variable {s : Store}

/-- A plan can be run, and no game keeps the filter from being tried. -/
def runs (s : Store) (filter : GameFilter) (plan : Option Plan) : Bool :=
  plan.all (s.canRun · filter) && !s.failsOnSomeGame filter plan

theorem failsOnSomeGame_of_short {filter : GameFilter} (hterms : ∀ c ∈ filter.conditions, c.isTooLong = false)
    (plan : Option Plan) : s.failsOnSomeGame filter plan = false := by
  rw [failsOnSomeGame, List.any_eq_false.mpr fun c hc => by simp [hterms c hc], Bool.false_and]

theorem runPlan_eq (howners : ∀ p ∈ s.positions, ∃ g ∈ s.games, g.id = p.game) (hids : (s.games.map (·.id)).Nodup)
    (r : SearchRequest) (plan : Option Plan) :
    s.runPlan r plan =
      if s.runs r.filter plan then .ok (.ofPage (s.allMatches r.filter plan) r.page r.effectiveSize)
      else .error .database := by
  have hgames : s.matchesOf plan (r.window.cut (s.foundIds r.filter plan)) =
      ((s.allMatches r.filter plan).drop ((r.page - 1) * r.effectiveSize)).take r.effectiveSize := by
    rw [foundIds_eq howners hids, allMatches, Window.cut, SearchRequest.window, ← List.map_drop, ← List.map_take,
      ← List.map_drop, ← List.map_take, matchesOf_eq hids plan fun g hg => ?_]
    have hmem := (s.newestFirst_perm _).mem_iff.mp (List.mem_of_mem_drop (List.mem_of_mem_take hg))
    exact (List.mem_filter.mp hmem).1
  simp only [runPlan, hgames, countFound_eq howners hids, SearchResults.ofPage]
  rfl

/-- A search that succeeds gives a page of all that the plan of the request finds, and whether it succeeds does not
    depend on the page. -/
theorem search_ok_iff (howners : ∀ p ∈ s.positions, ∃ g ∈ s.games, g.id = p.game)
    (hids : (s.games.map (·.id)).Nodup) {keys : FingerprintKeys} {r : SearchRequest} {results : SearchResults} :
    s.search keys r = .ok results ↔ 0 < r.page ∧ 0 < r.pageSize ∧ ∃ plan, r.plan keys = .ok plan ∧
      s.runs r.filter plan = true ∧ results = .ofPage (s.allMatches r.filter plan) r.page r.effectiveSize := by
  simp only [search, bind_ok_iff, SearchRequest.checked, runPlan_eq howners hids, Nat.pos_iff_ne_zero]
  constructor
  · rintro ⟨plan, hplan, hrun⟩
    split at hplan
    · cases hplan
    · rename_i hpage
      rw [not_or] at hpage
      split at hrun
      · cases hrun
        exact ⟨hpage.1, hpage.2, plan, hplan, ‹_›, rfl⟩
      · cases hrun
  · rintro ⟨hpage, hsize, plan, hplan, hruns, rfl⟩
    exact ⟨plan, by rw [if_neg (not_or.mpr ⟨hpage, hsize⟩), hplan], by rw [if_pos hruns]⟩

/-- A search fails where it is not well-formed, or where its plan cannot be run. -/
theorem search_error_iff (howners : ∀ p ∈ s.positions, ∃ g ∈ s.games, g.id = p.game)
    (hids : (s.games.map (·.id)).Nodup) {keys : FingerprintKeys} {r : SearchRequest} {e : ArchiveError} :
    s.search keys r = .error e ↔ r.checked keys = .error e ∨
      ∃ plan, r.checked keys = .ok plan ∧ s.runs r.filter plan = false ∧ e = .database := by
  simp only [search, bind, Except.bind, runPlan_eq howners hids]
  cases r.checked keys with
  | error cause => simp
  | ok plan =>
    cases hruns : s.runs r.filter plan with
    | false => simp [hruns, eq_comm (a := e)]
    | true => simp [hruns]

end Store

/-! ### All pages -/

/-- A list is given out in pages of a size: page number `k + 1` is `pages k`. -/
structure Paged (all : List GameMatch) (size : Nat) (pages : Nat → SearchResults) : Prop where
  games : ∀ k, (pages k).games = (all.drop (k * size)).take size
  page : ∀ k, (pages k).pagination.page = k + 1 ∧ (pages k).pagination.pageSize = size
  totalGames : ∀ k, (pages k).pagination.totalGames = all.length
  totalPages : ∀ k, (pages k).pagination.totalPages = (all.length + size - 1) / size
  hasNext : ∀ k, (pages k).pagination.hasNext = true ↔ ∃ l, k < l ∧ (pages l).games ≠ []
  hasPrev : ∀ k, (pages k).pagination.hasPrev = true ↔ 1 < (pages k).pagination.page
  joined : ((List.range ((all.length + size - 1) / size)).flatMap fun k => (pages k).games) = all
  full : ∀ k, k + 1 < (all.length + size - 1) / size → (pages k).games.length = size
  beyond : ∀ k, (all.length + size - 1) / size ≤ k → (pages k).games = []

/-- A page is among the pages that there are if something is left for it. -/
theorem lt_pageCount {n size k : Nat} (hsize : 0 < size) : k < (n + size - 1) / size ↔ k * size < n := by
  rw [← Nat.succ_le_iff, Nat.le_div_iff_mul_le hsize, Nat.succ_mul]
  omega

theorem ofPage_paged (all : List GameMatch) {size : Nat} (hsize : 0 < size) :
    Paged all size fun k => .ofPage all (k + 1) size := by
  have hgames : ∀ k, (SearchResults.ofPage all (k + 1) size).games = (all.drop (k * size)).take size := fun _ => rfl
  have hempty : ∀ k, (all.drop (k * size)).take size = [] ↔ (all.length + size - 1) / size ≤ k := by
    intro k
    rw [List.take_eq_nil_iff, or_iff_right (Nat.ne_of_gt hsize), List.drop_eq_nil_iff, ← Nat.not_lt, ← Nat.not_lt,
      lt_pageCount hsize]
  refine ⟨hgames, fun _ => ⟨rfl, rfl⟩, fun _ => rfl, fun _ => rfl, fun k => ?_, fun k => ?_, ?_, fun k hk => ?_,
    fun k hk => ?_⟩
  · simp only [hgames, ne_eq, hempty, Nat.not_le]
    rw [SearchResults.ofPage, decide_eq_true_eq]
    constructor
    · exact fun hlt => ⟨k + 1, Nat.lt_succ_self k, hlt⟩
    · exact fun ⟨l, hkl, hl⟩ => Nat.lt_of_le_of_lt hkl hl
  · rw [SearchResults.ofPage, decide_eq_true_eq]
  · simp only [hgames]
    rw [flatMap_pages, List.take_of_length_le]
    have hlast := (lt_pageCount (n := all.length) hsize).not.mp (Nat.lt_irrefl _)
    exact Nat.not_lt.mp hlast
  · rw [lt_pageCount hsize, Nat.succ_mul] at hk
    rw [hgames, List.length_take, List.length_drop]
    omega
  · rw [hgames]
    exact (hempty k).mpr hk

/-- What fits on one page is on the first one. -/
theorem Paged.first {all : List GameMatch} {size : Nat} {pages : Nat → SearchResults} (h : Paged all size pages)
    (hfits : all.length ≤ size) : (pages 0).games = all := by
  rw [h.games, Nat.zero_mul, List.drop_zero, List.take_of_length_le hfits]

/-- The offset of a page is computed without an overflow, and it is an offset that a statement takes as it is. -/
theorem SearchRequest.window_offset (r : SearchRequest) {page size : UInt32} (hpage : 0 < page) :
    (({ r with page := page.toNat, pageSize := size.toNat }).window).offset ≤ Statement.maxOffset ∧
    ((page.toUInt64 - 1) * (min size 500).toUInt64).toNat =
      (({ r with page := page.toNat, pageSize := size.toNat }).window).offset := by
  have hmin : (min size 500).toNat = min size.toNat maxPageSize := by
    change (if size ≤ 500 then size else 500).toNat = _
    rw [apply_ite UInt32.toNat, Nat.min_def]
    rfl
  have hone : (1 : UInt64) ≤ page.toUInt64 := by
    rw [UInt64.le_iff_toNat_le]
    exact UInt32.lt_iff_toNat_lt.mp hpage
  have hlt := page.toNat_lt
  have hoffset : (page.toNat - 1) * min size.toNat maxPageSize ≤ 4294967295 * 500 :=
    Nat.mul_le_mul (by omega) (Nat.min_le_right _ _)
  constructor
  · simp only [window, effectiveSize, Statement.maxOffset]
    omega
  · rw [UInt64.toNat_mul, UInt64.toNat_sub_of_le _ _ hone, UInt32.toNat_toUInt64, UInt32.toNat_toUInt64, hmin]
    exact Nat.mod_eq_of_lt (Nat.lt_of_le_of_lt hoffset (by decide))

namespace Store
variable {s : Store}

theorem mem_allMatches {filter : GameFilter} {plan : Option Plan} {g : StoredGame} :
    (∃ m ∈ s.allMatches filter plan, m.game = g) ↔ g ∈ s.games ∧ filter.passes g.metadata = true ∧
      ∀ p, plan = some p → ∃ q ∈ s.positions, q.game = g.id ∧ 0 < p.ways s.rows q := by
  have hgame : (∃ m ∈ s.allMatches filter plan, m.game = g) ↔ g ∈ s.newestFirst (s.finds filter plan) := by
    simp [allMatches, matchOf]
  rw [hgame, (s.newestFirst_perm _).mem_iff, List.mem_filter, finds, Bool.and_eq_true, and_comm (a := _ = true)]
  refine and_congr_right fun _ => and_congr_right fun _ => ?_
  cases plan with
  | none => simp
  | some plan =>
    simp only [Option.all_some, List.any_eq_true, decide_eq_true_eq, mem_selected, Option.some.injEq, forall_eq',
      and_assoc]
    exact exists_congr fun q => and_congr_right fun _ => and_comm

/-- What a plan finds that can be run is given out in pages of every size. -/
theorem exists_pages (howners : ∀ p ∈ s.positions, ∃ g ∈ s.games, g.id = p.game) (hids : (s.games.map (·.id)).Nodup)
    {keys : FingerprintKeys} {r : SearchRequest} {plan : Option Plan} (hplan : r.plan keys = .ok plan)
    (hruns : s.runs r.filter plan = true) {size : Nat} (hsize : 0 < size) :
    ∃ pages, Paged (s.allMatches r.filter plan) (min size maxPageSize) pages ∧
      ∀ k, s.search keys { r with page := k + 1, pageSize := size } = .ok (pages k) := by
  refine ⟨_, ofPage_paged _ (Nat.lt_min.mpr ⟨hsize, by decide⟩), fun k => ?_⟩
  exact (search_ok_iff howners hids).mpr ⟨Nat.succ_pos k, hsize, plan, hplan, hruns, rfl⟩

/-- The pages of a search partition what it finds. If a search succeeds, there is one list of games, newest first, that
    is given out in pages of every size, and no page is missed for an overflow. -/
theorem search_pages (howners : ∀ p ∈ s.positions, ∃ g ∈ s.games, g.id = p.game) (hids : (s.games.map (·.id)).Nodup)
    {keys : FingerprintKeys} {r : SearchRequest} {results : SearchResults} (h : s.search keys r = .ok results) :
    (∃ plan all, r.plan keys = .ok plan ∧
      all.Pairwise (fun m k => k.game.id < m.game.id) ∧
      (∀ g, (∃ m ∈ all, m.game = g) ↔ g ∈ s.games ∧ r.filter.passes g.metadata = true ∧
        ∀ p, plan = some p → ∃ q ∈ s.positions, q.game = g.id ∧ 0 < p.ways s.rows q) ∧
      ∀ size, 0 < size → ∃ pages, Paged all (min size maxPageSize) pages ∧
        ∀ k, s.search keys { r with page := k + 1, pageSize := size } = .ok (pages k)) ∧
    ∀ page size : UInt32, 0 < page →
      (({ r with page := page.toNat, pageSize := size.toNat }).window).offset ≤ Statement.maxOffset ∧
      ((page.toUInt64 - 1) * (min size 500).toUInt64).toNat =
        (({ r with page := page.toNat, pageSize := size.toNat }).window).offset := by
  obtain ⟨-, -, plan, hplan, hruns, -⟩ := (search_ok_iff howners hids).mp h
  refine ⟨⟨plan, s.allMatches r.filter plan, hplan, ?_, fun g => mem_allMatches, fun size hsize => ?_⟩,
    fun page size hpage => ?_⟩
  · exact List.pairwise_map.mpr (newestFirst_pairwise hids _)
  · refine ⟨fun k => .ofPage (s.allMatches r.filter plan) (k + 1) (min size maxPageSize), ?_, fun k => ?_⟩
    · exact ofPage_paged _ (Nat.lt_min.mpr ⟨hsize, by decide⟩)
    · exact (search_ok_iff howners hids).mpr ⟨Nat.succ_pos k, hsize, plan, hplan, hruns, rfl⟩
  · exact r.window_offset hpage

/-- Three games on pages of two. -/
theorem search_pages_three_games :
    ∃ all pages, all.length = 3 ∧ Paged all 2 pages ∧ ∀ k,
      ({ empty with games := [⟨3, .ofTags ⟨[]⟩, "", none⟩, ⟨1, .ofTags ⟨[]⟩, "", none⟩,
          ⟨2, .ofTags ⟨[]⟩, "", none⟩] } : Store).search
        ⟨.replicate keyCount 0⟩ ⟨.metadata, "", none, .empty, k + 1, 2⟩ = .ok (pages k) := by
  obtain ⟨results, hresults, htotal⟩ : ∃ results,
      ({ empty with games := [⟨3, .ofTags ⟨[]⟩, "", none⟩, ⟨1, .ofTags ⟨[]⟩, "", none⟩,
          ⟨2, .ofTags ⟨[]⟩, "", none⟩] } : Store).search
        ⟨.replicate keyCount 0⟩ ⟨.metadata, "", none, .empty, 1, 2⟩ = .ok results ∧ results.pagination.totalGames = 3 :=
    exists_ok_of_all (by decide +kernel)
  obtain ⟨⟨-, all, -, -, -, hpages⟩, -⟩ := search_pages (by simp [empty]) (by decide) hresults
  obtain ⟨pages, hpaged, hsearch⟩ := hpages 2 (by decide)
  have hfirst : pages 0 = results := Except.ok.inj ((hsearch 0).symm.trans hresults)
  exact ⟨all, pages, by rw [← hpaged.totalGames 0, hfirst, htotal], hpaged, hsearch⟩

end Store
end ChessArchive
