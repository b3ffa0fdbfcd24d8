import Mathlib.Algebra.Order.BigOperators.Group.List
import Mathlib.Algebra.Order.Monoid.NatCast
import Mathlib.Algebra.Order.Ring.Nat
import Mathlib.Data.Fintype.Card
import ChessArchive.Proofs.Fingerprint
import ChessArchive.Proofs.Pattern.Grammar
import ChessArchive.Proofs.Query.NormalForm
import ChessArchive.Proofs.Query.Statement
import ChessArchive.Proofs.Query.Tables
import ChessArchive.Proofs.Store.Reached

/-! Which searches the engine refuses. Whatever is asked for, a statement binds far fewer values than it may. But each
    square that a pattern asks about is one more table to join, and a pattern for the whole board joins too many, as does
    one for all squares but one if the games are filtered. Every other well-formed request succeeds. -/

namespace ChessArchive

/-- The number of values that one statement may bind. -/
def maxBoundValues : Nat := 32766

namespace SearchRequest

/-- The text of a request is one that its mode takes. -/
def WellFormed (r : SearchRequest) : Prop :=
  match r.mode with
  | .exact => ∃ fen, Fen.parse r.pattern = .ok fen
  | .material => ∃ m, Material.ofText r.pattern = .ok m
  | .pattern => ∃ p, Pattern.compile r.pattern = .ok p
  | .metadata => True

/-- The positions, one table for each square that the pattern asks about, and the games if they are filtered: these are
    more tables than can be joined. -/
def Overjoins (r : SearchRequest) : Prop :=
  r.mode = .pattern ∧ ∃ p, Pattern.compile r.pattern = .ok p ∧
    maxJoinedTables < 1 + p.constraints.length + if r.filter.isEmpty then 0 else 1

end SearchRequest

/-! ### Conditions of a plan -/

theorem Pattern.length_constraints_le {text : String} {p : Pattern} (h : compile text = .ok p) :
    p.constraints.length ≤ 64 := by
  have hnodup := ((compile_grammar text).2 p h).2.1
  simpa using List.Nodup.length_le_card hnodup

namespace Plan

theorem conditions_ofPattern {text : String} {p : Pattern} (h : Pattern.compile text = .ok p) :
    (ofPattern p).conditions = p.constraints.map fun c => .lookup c.square c.allowed := by
  have hproper : ∀ c ∈ p.constraints.map fun c => Condition.lookup c.square c.allowed, c.IsProper := by
    intro c hc s heq
    obtain ⟨e, he, rfl⟩ := List.mem_map.mp hc
    have hsome := ((Pattern.compile_grammar text).2 p h).2.2.1 e he
    rw [(Condition.lookup.inj heq).2] at hsome
    exact absurd hsome (by decide)
  have hconjoin := PlanNode.conjoin_leaves hproper
  rw [List.map_map] at hconjoin
  rw [ofPattern, PlanNode.normalize, PlanNode.conditions]
  exact congrArg (·.getD []) hconjoin

theorem conditions_withSide (n : PlanNode) (c : Color) :
    (n.normalize.withSide c).conditions = if n.conditions = [] then [] else n.conditions ++ [.side c] := by
  have hsame : n.normalize.toNode.conditions = n.conditions :=
    congrArg conditions (toNode_normalize (PlanNode.isProper_of_mem n))
  have hside : PlanNode.conjoin [.leaf (.side c)] = some [.side c] := rfl
  rw [withSide, PlanNode.normalize, PlanNode.conditions]
  by_cases hnone : n.conditions = []
  · simp [PlanNode.conjoin, hsame, hnone]
  · rw [if_neg hnone, PlanNode.conjoin_cons.mpr ⟨hsame ▸ hnone, _, hside, rfl⟩, hsame, Option.getD_some]

theorem joinedTables_le {p : Plan} (h : p.lookups ≤ 1) (f : GameFilter) :
    Statement.joinedTables p f ≤ maxJoinedTables := by
  rw [joinedTables_eq, maxJoinedTables]
  split <;> omega

theorem joinedTables_of_isNothing {p : Plan} (h : p.isNothing = true) (f : GameFilter) :
    Statement.joinedTables p f ≤ maxJoinedTables := by
  have hlookups : p.lookups = 0 := by
    rw [lookups, List.isEmpty_iff.mp h]
    rfl
  exact joinedTables_le (hlookups.trans_le (Nat.zero_le 1)) f

theorem lookups_ofPattern {text : String} {p : Pattern} (h : Pattern.compile text = .ok p) :
    (ofPattern p).lookups = p.constraints.length := by
  rw [lookups, conditions_ofPattern h, List.countP_map]
  exact List.countP_eq_length.mpr fun _ _ => rfl

theorem lookups_withSide (n : PlanNode) (c : Color) : (n.normalize.withSide c).lookups = n.normalize.lookups := by
  rw [lookups, conditions_withSide, lookups, PlanNode.normalize]
  split
  · rename_i hnone
    rw [hnone]
  · simp [List.countP_append]

end Plan

/-! ### Requests -/

namespace SearchRequest
variable {r : SearchRequest}

/-- A well-formed request has a plan. There is a condition for each square at most and one for the side, and the plan
    joins too many tables exactly if the request does. -/
theorem WellFormed.exists_plan (h : r.WellFormed) (keys : FingerprintKeys) :
    ∃ plan, r.plan keys = .ok plan ∧ (∀ p, plan = some p → p.conditions.length ≤ 65) ∧
      (r.Overjoins ↔ ∃ p, plan = some p ∧ maxJoinedTables < Statement.joinedTables p r.filter) := by
  have hone : ∀ p : Plan, p.conditions.length = 1 → r.mode ≠ .pattern →
      (∀ q, some p = some q → q.conditions.length ≤ 65) ∧
        (r.Overjoins ↔ ∃ q, some p = some q ∧ maxJoinedTables < Statement.joinedTables q r.filter) := by
    intro p hlength hmode
    have hlookups : p.lookups ≤ 1 := hlength ▸ List.countP_le_length
    have hfits := Plan.joinedTables_le hlookups r.filter
    constructor
    · rintro q ⟨⟩
      omega
    · refine iff_of_false (fun hover => hmode hover.1) ?_
      rintro ⟨q, ⟨⟩, hover⟩
      omega
  cases hmode : r.mode with
  | exact =>
    obtain ⟨fen, hfen⟩ : ∃ fen, Fen.parse r.pattern = .ok fen := by simpa [WellFormed, hmode] using h
    obtain ⟨placed, -, hv⟩ := keys.ofFenText_ok hfen
    refine ⟨some (.ofFingerprint (xorOver keys.key (traits placed fen.side fen.castling))), ?_,
      hone _ rfl (by simp [hmode])⟩
    simp only [SearchRequest.plan, hmode, hv, Except.mapError, Except.map]
  | material =>
    obtain ⟨m, hm⟩ : ∃ m, Material.ofText r.pattern = .ok m := by simpa [WellFormed, hmode] using h
    refine ⟨some (.ofMaterial m), ?_, hone _ rfl (by simp [hmode])⟩
    simp only [SearchRequest.plan, hmode, hm, Except.mapError, Except.map]
  | metadata =>
    refine ⟨none, by simp only [SearchRequest.plan, hmode], nofun, iff_of_false (fun hover => ?_) nofun⟩
    simp [Overjoins, hmode] at hover
  | pattern =>
    obtain ⟨p, hp⟩ : ∃ p, Pattern.compile r.pattern = .ok p := by simpa [WellFormed, hmode] using h
    have hover : ∀ plan : Plan, plan.lookups = p.constraints.length →
        (r.Overjoins ↔ ∃ q, some plan = some q ∧ maxJoinedTables < Statement.joinedTables q r.filter) := by
      intro plan hlookups
      simp [Overjoins, hmode, hp, Plan.joinedTables_eq, hlookups]
    have hlength : (Plan.ofPattern p).conditions.length ≤ 64 := by
      rw [Plan.conditions_ofPattern hp, List.length_map]
      exact Pattern.length_constraints_le hp
    cases hside : r.side with
    | none =>
      refine ⟨some (.ofPattern p), ?_, ?_, hover _ (Plan.lookups_ofPattern hp)⟩
      · simp only [SearchRequest.plan, hmode, hp, hside, Except.mapError, Except.map]
      · rintro q ⟨⟩
        omega
    | some c =>
      refine ⟨some ((Plan.ofPattern p).withSide c), ?_, ?_, hover _ ?_⟩
      · simp only [SearchRequest.plan, hmode, hp, hside, Except.mapError, Except.map]
      · rintro q ⟨⟩
        rw [Plan.ofPattern, Plan.conditions_withSide]
        split
        · exact Nat.zero_le 65
        · rw [List.length_append]
          exact Nat.succ_le_succ hlength
      · exact (Plan.lookups_withSide _ c).trans (Plan.lookups_ofPattern hp)

end SearchRequest

/-! ### Values -/

theorem length_flatMap_le {α β : Type} {f : α → List β} {n : Nat} (h : ∀ a, (f a).length ≤ n) (xs : List α) :
    (xs.flatMap f).length ≤ xs.length * n := by
  rw [List.length_flatMap]
  refine (List.sum_le_card_nsmul _ n fun k hk => ?_).trans_eq (by simp)
  obtain ⟨a, -, rfl⟩ := List.mem_map.mp hk
  exact h a

theorem Condition.length_joinValues_le (c : Condition) : c.joinValues.length ≤ 13 := by
  cases c with
  | lookup s allowed =>
    have htwelve : allowed.toList.length ≤ 12 := List.length_filter_le allowed.contains Piece.all
    rw [joinValues, List.length_cons, List.length_map]
    omega
  | _ => exact Nat.zero_le 13

theorem Condition.length_comparisonValues_le (c : Condition) : c.comparisonValues.length ≤ 1 := by
  cases c <;> simp [comparisonValues]

theorem GameCondition.length_values_le (c : GameCondition) : c.values.length ≤ 2 := by
  cases c <;> simp [values]

theorem GameFilter.length_conditions_le (f : GameFilter) : f.conditions.length ≤ 10 := by
  have hone : ∀ {α β : Type} (x : Option α) (g : α → β), (x.map g).toList.length ≤ 1 := by
    intro α β x g
    cases x <;> simp
  simp only [conditions, List.length_append]
  have := hone (nonBlank f.white) GameCondition.white
  have := hone (nonBlank f.black) GameCondition.black
  have := hone (nonBlank f.opening) GameCondition.opening
  have := hone (nonBlank f.player) GameCondition.player
  have := hone (nonBlank f.eco) GameCondition.eco
  have := hone (nonBlank f.result) GameCondition.result
  have := hone (nonBlank f.dateFrom) GameCondition.dateFrom
  have := hone (nonBlank f.dateTo) GameCondition.dateTo
  have := hone f.minElo GameCondition.minElo
  have := hone f.maxElo GameCondition.maxElo
  omega

namespace Statement

theorem length_filterValues_le (f : GameFilter) : (f.conditions.flatMap GameCondition.values).length ≤ 20 :=
  (length_flatMap_le GameCondition.length_values_le _).trans (Nat.mul_le_mul_right 2 f.length_conditions_le)

theorem length_params_candidates_le {p : Plan} (h : p.conditions.length ≤ 65) (f : GameFilter) :
    (params ⟨candidates p f⟩).length ≤ 930 := by
  have hjoins := length_flatMap_le Condition.length_joinValues_le p.conditions
  have hcomparisons := length_flatMap_le Condition.length_comparisonValues_le p.conditions
  have hfilter := length_filterValues_le f
  rw [params_candidates]
  split
  · exact Nat.zero_le 930
  · simp only [List.length_append]
    omega

end Statement

namespace Store
variable {tables : FingerprintKeys → Prop} {s : Store}

/-- The numbers of the games on the page of a request. -/
def pageIds (s : Store) (r : SearchRequest) (plan : Option Plan) : List Id := r.window.cut (s.foundIds r.filter plan)

/-- The statements of a search: those that count the games and find the page, and that for the positions on the page. -/
def statements (s : Store) (r : SearchRequest) : Option Plan → List Statement
  | some p =>
    [(Statement.ofPlan p r.filter r.window).count, (Statement.ofPlan p r.filter r.window).games,
      Statement.positionsIn p (s.pageIds r (some p))]
  | none => [(Statement.ofFilter r.filter r.window).count, (Statement.ofFilter r.filter r.window).games]

theorem length_pageIds_le (s : Store) (r : SearchRequest) (plan : Option Plan) :
    (s.pageIds r plan).length ≤ maxPageSize := by
  rw [pageIds, Window.cut, List.length_take]
  exact (Nat.min_le_left _ _).trans (Nat.min_le_right _ _)

theorem length_params_le {r : SearchRequest} {plan : Option Plan} (h : ∀ p, plan = some p → p.conditions.length ≤ 65) :
    ∀ st ∈ s.statements r plan, st.params.length ≤ maxBoundValues := by
  have hwindow : r.window.values.length = 2 := rfl
  have hids := s.length_pageIds_le r plan
  simp only [maxPageSize] at hids
  simp only [maxBoundValues]
  cases plan with
  | none =>
    have hfilter := Statement.length_filterValues_le r.filter
    simp only [statements, List.forall_mem_cons, Statement.params_filteredCount, Statement.params_filtered,
      List.length_append]
    exact ⟨by omega, by omega, nofun⟩
  | some p =>
    have hcandidates := Statement.length_params_candidates_le (h p rfl)
    have hfiltered := hcandidates r.filter
    have hplain := hcandidates .empty
    have hcount : (Statement.ofPlan p r.filter r.window).count.params =
        Statement.params ⟨Statement.candidates p r.filter⟩ := rfl
    simp only [statements, List.forall_mem_cons, hcount, Statement.params_games, Statement.params_positionsIn,
      List.length_append, List.length_map]
    exact ⟨by omega, by omega, by omega, nofun⟩

/-! ### Searches -/

/-- Some statement of a search reads too many tables exactly if its plan joins too many. -/
theorem exceeds_iff {r : SearchRequest} {plan : Option Plan} :
    (∃ st ∈ s.statements r plan, maxJoinedTables < st.tables) ↔
      ∃ p, plan = some p ∧ maxJoinedTables < Statement.joinedTables p r.filter := by
  cases plan with
  | none =>
    obtain ⟨hgames, hcount⟩ := Statement.tables_filtered r.filter r.window
    simp [statements, hgames, hcount, maxJoinedTables]
  | some p =>
    -- The positions of the games on a page are read without the filter, so from no more tables.
    have hplain := p.joinedTables_empty_le r.filter
    simp only [statements, List.exists_mem_cons_iff, Statement.tables_count, Statement.tables_games,
      Statement.tables_positionsIn, List.not_mem_nil, false_and, exists_false, or_false, Option.some.injEq,
      exists_eq_left']
    cases hnothing : p.isNothing with
    | true =>
      have hfew := p.joinedTables_of_isNothing hnothing r.filter
      simp only [maxJoinedTables, if_true] at hfew ⊢
      omega
    | false =>
      simp only [Bool.false_eq_true, if_false]
      omega

theorem Sound.runs_iff (h : s.Sound tables) {f : GameFilter} (hterms : ∀ c ∈ f.conditions, c.isTooLong = false)
    (plan : Option Plan) : s.runs f plan = true ↔
      ¬ ∃ p, plan = some p ∧ maxJoinedTables < Statement.joinedTables p f := by
  have hindex : s.damage.indexGone = false := by rw [h.undamaged]; rfl
  rw [runs, failsOnSomeGame_of_short hterms]
  cases plan with
  | none => simp
  | some p =>
    cases hnothing : p.isNothing with
    | true => simp [canRun, hnothing, p.joinedTables_of_isNothing hnothing f]
    | false => simp [canRun, hindex, hnothing]

/-- A plan that joins few tables is run for every page, or it is refused for every page, and then the filter has a term
    that is too long. -/
theorem Sound.pages_or_refused (h : s.Sound tables) {keys : FingerprintKeys} {r : SearchRequest} {p : Plan}
    (hplan : r.plan keys = .ok (some p)) (hfew : Statement.joinedTables p r.filter ≤ maxJoinedTables)
    (hsize : 0 < r.pageSize) :
    ∃ pages, Paged (s.allMatches r.filter (some p)) r.effectiveSize pages ∧
      ((∀ k, s.search keys { r with page := k + 1 } = .ok (pages k)) ∨
        (∃ c ∈ r.filter.conditions, c.isTooLong = true) ∧
          ∀ k, s.search keys { r with page := k + 1 } = .error .database) := by
  cases hruns : s.runs r.filter (some p) with
  | true =>
    obtain ⟨pages, hpaged, hsearch⟩ := exists_pages h.owners h.gameIds hplan hruns hsize
    exact ⟨pages, hpaged, .inl hsearch⟩
  | false =>
    refine ⟨_, ofPage_paged _ (Nat.lt_min.mpr ⟨hsize, by decide⟩), .inr ⟨?_, fun k => ?_⟩⟩
    · by_contra hterms
      have hshort : ∀ c ∈ r.filter.conditions, c.isTooLong = false := by simpa using hterms
      have hmany := (h.runs_iff hshort (some p)).not.mp (by simp [hruns])
      obtain ⟨q, ⟨⟩, hover⟩ := not_not.mp hmany
      omega
    · refine (search_error_iff h.owners h.gameIds).mpr (.inr ⟨some p, ?_, hruns, rfl⟩)
      rw [SearchRequest.checked, if_neg (by simp; omega)]
      exact hplan

/-- In every store that operations lead to, a well-formed request is answered unless its pattern asks about more squares
    than tables can be joined. Then, and only then, it comes to an error of the database, one of its statements reading
    more tables than it may. No statement of any search binds more values than it may, nor does the fetching of the games
    on a page. -/
theorem search_succeeds_iff (h : Reached tables s) (keys : FingerprintKeys) {r : SearchRequest} (hpage : 0 < r.page)
    (hsize : 0 < r.pageSize) (hwell : r.WellFormed) (hterms : ∀ c ∈ r.filter.conditions, c.isTooLong = false) :
    ((∃ results, s.search keys r = .ok results) ↔ ¬ r.Overjoins) ∧
      (s.search keys r = .error .database ↔ r.Overjoins) ∧
      ∃ plan, r.plan keys = .ok plan ∧ (r.Overjoins ↔ ∃ st ∈ s.statements r plan, maxJoinedTables < st.tables) ∧
        (∀ st ∈ s.statements r plan, st.params.length ≤ maxBoundValues) ∧
        (s.pageIds r plan).length ≤ maxBoundValues := by
  have hs := h.sound
  obtain ⟨plan, hplan, hlength, hover⟩ := hwell.exists_plan keys
  have hchecked : r.checked keys = .ok plan := by
    rw [SearchRequest.checked, if_neg (by omega), hplan]
  have hsearch : s.search keys r = if s.runs r.filter plan then
      .ok (.ofPage (s.allMatches r.filter plan) r.page r.effectiveSize) else .error .database := by
    rw [search, hchecked, ← runPlan_eq hs.owners hs.gameIds]
    rfl
  have hruns : s.runs r.filter plan = true ↔ ¬ r.Overjoins := by
    rw [hs.runs_iff hterms, hover]
  refine ⟨?_, ?_, plan, hplan, hover.trans exceeds_iff.symm, length_params_le hlength,
    (s.length_pageIds_le r plan).trans (by decide)⟩
  · rw [hsearch, ← hruns]
    split <;> simp_all
  · rw [hsearch, ← not_iff_not, ← hruns]
    split <;> simp_all

/-- A pattern for the whole board is well-formed and comes to an error. -/
theorem search_succeeds_iff_whole_board : ∃ pattern,
    Pattern.compile "PPPPPPPP/PPPPPPPP/PPPPPPPP/PPPPPPPP/PPPPPPPP/PPPPPPPP/PPPPPPPP/PPPPPPPP" = .ok pattern ∧
      empty.search ⟨.replicate keyCount 0⟩
        ⟨.pattern, "PPPPPPPP/PPPPPPPP/PPPPPPPP/PPPPPPPP/PPPPPPPP/PPPPPPPP/PPPPPPPP/PPPPPPPP", none, .empty, 1, 20⟩ =
          .error .database := by
  obtain ⟨pattern, hpattern, hlength⟩ : ∃ pattern,
      Pattern.compile "PPPPPPPP/PPPPPPPP/PPPPPPPP/PPPPPPPP/PPPPPPPP/PPPPPPPP/PPPPPPPP/PPPPPPPP" = .ok pattern ∧
        pattern.constraints.length = 64 := exists_ok_of_all (by decide +kernel)
  refine ⟨pattern, hpattern, ?_⟩
  let r : SearchRequest :=
    ⟨.pattern, "PPPPPPPP/PPPPPPPP/PPPPPPPP/PPPPPPPP/PPPPPPPP/PPPPPPPP/PPPPPPPP/PPPPPPPP", none, .empty, 1, 20⟩
  have hreached : Reached (fun _ => True) empty := .empty
  have hwell : r.WellFormed := ⟨pattern, hpattern⟩
  have hover : r.Overjoins := ⟨rfl, pattern, hpattern, by rw [hlength]; decide⟩
  have hterms : ∀ c ∈ r.filter.conditions, c.isTooLong = false := by decide
  exact (search_succeeds_iff hreached _ Nat.one_pos (by decide) hwell hterms).2.1.mpr hover

end Store
end ChessArchive
