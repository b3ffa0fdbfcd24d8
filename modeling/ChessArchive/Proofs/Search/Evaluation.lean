import ChessArchive.Proofs.Search.Rows

/-! What the statements of a search give, put together, is what the search gives. DISTINCT and ORDER BY make one list of
    numbers out of the games of the rows, however often a game is among them. The positions of several games come in one
    list, and for each game they are in the order of play. -/

namespace ChessArchive
namespace Sql
open Store (newestIds newestIds_pairwise)

variable {s : Store}

/-! ### Order -/

/-- A column of numbers, largest first. -/
theorem map_sorted {rows : List Row} {column : Column} {ids : List Id}
    (h : rows.map (·.value column) = ids.map fun id => some (.int id)) :
    (rows.mergeSort (before [(column, .descending)])).map (·.value column) =
      (newestIds ids).map fun id => some (.int id) := by
  have hvalues := List.map_mergeSort (f := (·.value column)) (l := rows) (r := before [(column, .descending)])
    (s := fun x y => if x = y then true else Direction.descending.puts x y) fun _ _ _ _ => rfl
  have hids := List.map_mergeSort (f := fun id : Id => some (Param.int id)) (l := ids) (r := fun i j => decide (j ≤ i))
    (s := fun x y => if x = y then true else Direction.descending.puts x y) fun i _ j _ => by
      by_cases hij : i = j
      · simp [hij]
      · simp [hij, Direction.puts, nullsFirst, Param.le]
  rw [hvalues, h, newestIds, hids]

theorem filterMap_value {rows : List Row} {column : Column} {ids : List Id}
    (h : rows.map (·.value column) = ids.map fun id => some (.int id)) :
    rows.filterMap (·.value column) = ids.map .int := by
  have hvalues : rows.filterMap (·.value column) = (rows.map (·.value column)).filterMap id := by
    rw [List.filterMap_map]
    rfl
  rw [hvalues, h, List.filterMap_map, ← List.filterMap_eq_map]
  rfl

/-- Repeated numbers count once, before or after they are sorted. -/
theorem eraseDups_newestIds {ids others : List Id} (h : ∀ id, id ∈ ids ↔ id ∈ others) :
    (newestIds ids).eraseDups = newestIds others.eraseDups := by
  have hperm : (newestIds ids).eraseDups.Perm (newestIds others.eraseDups) := by
    refine .trans ((List.perm_ext_iff_of_nodup (nodup_eraseDups _) (nodup_eraseDups _)).mpr fun id => ?_)
      (List.mergeSort_perm _ _).symm
    rw [List.mem_eraseDups, List.mem_eraseDups, newestIds, List.mem_mergeSort, h]
  exact hperm.eq_of_pairwise (fun _ _ _ _ hji hij => Int.le_antisymm hij hji)
    ((newestIds_pairwise ids).sublist (eraseDups_sublist _)) (newestIds_pairwise _)

/-! ### Games -/

/-- The numbers in the rows of a plan are those of the candidates, if not as often. -/
theorem exists_ids {plan : Plan} {f : GameFilter} (h : s.runs f (some plan) = true) :
    ∃ (rows : List Row) (ids : List Id), (candidates plan f).rows s = .ok rows ∧
      rows.map (·.value (.position .game)) = ids.map (fun id => some (.int id)) ∧
      ∀ id, id ∈ ids ↔ id ∈ (s.candidates plan f).map (·.game) := by
  obtain ⟨rows, ps, hrows, hshows, hmem⟩ := rows_of_runs h
  refine ⟨rows, ps.map (·.game), hrows, ?_, fun id => ?_⟩
  · rw [hshows.map_value, List.map_map]
    rfl
  · simp only [List.mem_map, hmem]

/-- The rows of a search by headers hold the numbers of the games that pass. -/
theorem map_headers (f : GameFilter) :
    ((Row.empty.joined s .games).filter (isPassed f)).map (·.value (.game .id)) =
      ((s.games.filter fun g => f.passes g.metadata).map (·.id)).map fun id => some (.int id) := by
  rw [Row.joined, List.filter_map, List.map_map, List.map_map]
  rfl

theorem countOf_eval (f : GameFilter) (plan : Option Plan) :
    (countOf f plan).eval s = if s.runs f plan then .ok (s.countFound f plan) else .error .database := by
  cases plan with
  | none =>
    rw [countOf, Count.eval, rows_headers]
    cases hruns : s.runs f none with
    | false => rfl
    | true =>
      have hlength := congrArg List.length (map_headers (s := s) f)
      simp only [List.length_map] at hlength
      simp [Store.countFound, List.countP_eq_length_filter, hlength, bind, Except.bind, pure, Except.pure]
  | some plan =>
    rw [countOf, Count.eval]
    cases hruns : s.runs f (some plan) with
    | false =>
      rw [rows_of_not_runs hruns]
      rfl
    | true =>
      obtain ⟨rows, ids, hrows, hvalues, hids⟩ := exists_ids hruns
      have hlength : ids.eraseDups.length = ((s.candidates plan f).map (·.game)).eraseDups.length := by
        refine List.Perm.length_eq ((List.perm_ext_iff_of_nodup (nodup_eraseDups _) (nodup_eraseDups _)).mpr fun id => ?_)
        rw [List.mem_eraseDups, List.mem_eraseDups, hids]
      have hcount : (rows.filterMap (·.value (.position .game))).eraseDups.length = ids.eraseDups.length := by
        rw [filterMap_value hvalues, eraseDups_map fun _ _ => Param.int.inj, List.length_map]
      rw [hrows, Store.countFound, ← hlength, ← hcount]
      rfl

theorem gamesOf_eval (f : GameFilter) (w : Window) (plan : Option Plan) :
    (gamesOf f w plan).eval s =
      if s.runs f plan then .ok (((bound w).cut (s.foundIds f plan)).map fun id => [some (.int id)])
      else .error .database := by
  have hcut : ∀ ids : List Id, (bound w).cut (ids.map fun id => [some (Param.int id)]) =
      ((bound w).cut ids).map fun id => [some (.int id)] := by
    intro ids
    rw [Window.cut, Window.cut, List.map_take, List.map_drop]
  have hlist : ∀ {rows : List Row} {column : Column} {ids : List Id},
      rows.map (·.value column) = ids.map (fun id => some (.int id)) →
      (rows.mergeSort (before [(column, .descending)])).map (fun r => [r.value column]) =
        (newestIds ids).map fun id => [some (.int id)] := by
    intro rows column ids h
    have hsorted := congrArg (List.map ([·])) (map_sorted h)
    rwa [List.map_map, List.map_map] at hsorted
  cases plan with
  | none =>
    rw [gamesOf, Select.eval, rows_headers]
    cases hruns : s.runs f none with
    | false => rfl
    | true => exact congrArg Except.ok ((congrArg _ (hlist (map_headers f))).trans (hcut _))
  | some plan =>
    rw [gamesOf, Select.eval]
    cases hruns : s.runs f (some plan) with
    | false =>
      rw [rows_of_not_runs hruns]
      rfl
    | true =>
      obtain ⟨rows, ids, hrows, hvalues, hids⟩ := exists_ids hruns
      have hinjective : Function.Injective fun id : Id => [some (Param.int id)] := by
        intro i j hij
        simpa using hij
      have hlisted : ((rows.mergeSort (before [(.position .game, .descending)])).map fun r =>
          [r.value (.position .game)]).eraseDups = (s.foundIds f (some plan)).map fun id => [some (.int id)] := by
        rw [hlist hvalues, eraseDups_map hinjective, eraseDups_newestIds hids]
        rfl
      rw [hrows]
      exact congrArg Except.ok ((congrArg _ hlisted).trans (hcut _))

/-! ### Positions -/

/-- Newest game first, and in the order of play. -/
def inOrder (p q : StoredPosition) : Bool := q.game < p.game || p.game = q.game && p.number ≤ q.number

theorem inOrder_iff {p q : StoredPosition} :
    inOrder p q = true ↔ q.game < p.game ∨ p.game = q.game ∧ p.number ≤ q.number := by
  simp [inOrder]

theorem inOrder_trans (p q r : StoredPosition) (hpq : inOrder p q = true) (hqr : inOrder q r = true) :
    inOrder p r = true := by
  rw [inOrder_iff] at hpq hqr ⊢
  rcases hpq with hpq | ⟨hpq, hnumber⟩ <;> rcases hqr with hqr | ⟨hqr, hlater⟩
  · exact .inl (Int.lt_trans hqr hpq)
  · exact .inl (hqr ▸ hpq)
  · exact .inl (hpq ▸ hqr)
  · exact .inr ⟨hpq.trans hqr, hnumber.trans hlater⟩

theorem inOrder_total (p q : StoredPosition) : (inOrder p q || inOrder q p) = true := by
  rw [Bool.or_eq_true, inOrder_iff, inOrder_iff]
  rcases Int.lt_trichotomy p.game q.game with hlt | heq | hgt
  · exact .inr (.inl hlt)
  · exact (Nat.le_total p.number q.number).imp (fun hle => .inr ⟨heq, hle⟩) fun hle => .inr ⟨heq.symm, hle⟩
  · exact .inl (.inl hgt)

/-- In one game the order is the order of play. -/
theorem filter_inOrder (game : Id) (ps : List StoredPosition) :
    (ps.mergeSort inOrder).filter (·.game = game) =
      (ps.filter (·.game = game)).mergeSort fun p q => p.number ≤ q.number := by
  have hsame := List.map_mergeSort (f := id) (l := ps.filter (·.game = game)) (r := inOrder)
    (s := fun p q => decide (p.number ≤ q.number)) fun p hp q hq => by
      have hp : p.game = game := by simpa using (List.mem_filter.mp hp).2
      have hq : q.game = game := by simpa using (List.mem_filter.mp hq).2
      simp [inOrder, hp, hq]
  rw [List.map_id, List.map_id] at hsame
  rw [filter_mergeSort inOrder_trans inOrder_total, hsame]

/-- The positions sorted at once are those sorted first by number and then by game. -/
theorem sorted_inOrder (plan : Plan) (ids : List Id) :
    ((s.chosen plan).filter fun p => ids.contains p.game).mergeSort inOrder = s.positionsIn plan ids := by
  refine eq_of_groups (·.game) ?_ ?_ fun game => ?_
  · refine (List.pairwise_mergeSort inOrder_trans inOrder_total _).imp fun hpq => ?_
    exact (inOrder_iff.mp hpq).elim Int.le_of_lt fun hsame => Int.le_of_eq hsame.1.symm
  · exact pairwise_sorted (r := fun p q : StoredPosition => q.game ≤ p.game) (fun _ _ _ hpq hqr => Int.le_trans hqr hpq)
      (fun _ _ => Int.le_total _ _) _
  · rw [filter_inOrder, Store.positionsIn, Store.candidates_empty, Store.filter_byGame, Store.selected,
      Store.filter_byNumber, Store.filter_byNumber]
    rfl

theorem before_eq {r t : Row} {p q : StoredPosition} (hr : r.position = some p) (ht : t.position = some q) :
    before [(.position .game, .descending), (.position .number, .ascending)] r t = inOrder p q := by
  have hvalues : ∀ {u : Row} {o : StoredPosition}, u.position = some o →
      u.value (.position .game) = some (.int o.game) ∧ u.value (.position .number) = some (.int o.number) := by
    intro u o hu
    simp [Row.value, hu, PositionColumn.value]
  obtain ⟨hrgame, hrnumber⟩ := hvalues hr
  obtain ⟨htgame, htnumber⟩ := hvalues ht
  by_cases hgame : p.game = q.game
  · have hsame : (p.number : Int) = q.number → p.number ≤ q.number := by omega
    simpa [before, hrgame, hrnumber, htgame, htnumber, inOrder, hgame, Direction.puts, nullsFirst, Param.le] using hsame
  · have hlt : q.game ≤ p.game ↔ q.game < p.game :=
      ⟨fun hle => Int.lt_iff_le_and_ne.mpr ⟨hle, Ne.symm hgame⟩, Int.le_of_lt⟩
    simp [before, hrgame, htgame, inOrder, hgame, Direction.puts, nullsFirst, Param.le, hlt]

/-- Sorting the rows sorts their positions. -/
theorem Shows.sort {rows : List Row} {ps : List StoredPosition} (h : Shows rows ps) :
    Shows (rows.mergeSort (before [(.position .game, .descending), (.position .number, .ascending)]))
      (ps.mergeSort inOrder) := by
  have hrows := List.map_mergeSort (f := (·.position)) (l := rows)
    (r := before [(.position .game, .descending), (.position .number, .ascending)])
    (s := fun x y => x.any fun p => y.any fun q => inOrder p q) fun r hr t ht => by
      obtain ⟨p, hp⟩ := h.exists_position hr
      obtain ⟨q, hq⟩ := h.exists_position ht
      rw [before_eq hp hq, hp, hq, Option.any_some, Option.any_some]
  have hpositions := List.map_mergeSort (f := some) (l := ps) (r := inOrder)
    (s := fun x y => x.any fun p => y.any fun q => inOrder p q) fun _ _ _ _ => rfl
  rw [shows_iff, hrows, shows_iff.mp h, hpositions]

theorem positionsOf_eval {plan : Plan} (hrun : s.canRun plan .empty = true) (ids : List Id) :
    (positionsOf plan ids).eval s =
      .ok ((s.positionsIn plan ids).map fun p => [some (.int p.game), some (.int p.number), p.san.map .text]) := by
  obtain ⟨rows, hrows, hshows⟩ := rows_unfiltered hrun rfl
  have hmeets : ∀ r ∈ rows, meets r [.among (.position .game) (ids.map .int)] =
      .ok (r.position.any fun p => ids.contains p.game) := by
    intro r hr
    obtain ⟨p, hp⟩ := hshows.exists_position hr
    have heval : (Test.among (.position .game) (ids.map .int)).eval r = .ok (some (ids.contains p.game)) := by
      rw [Test.eval, Row.value, hp]
      simp [PositionColumn.value]
    rw [meets_cons heval Option.some_inj, meets, hp, Option.any_some]
    cases ids.contains p.game <;> rfl
  have hkept : (positionsOf plan ids).source.rows s = .ok (rows.filter fun r =>
      r.position.any fun p => ids.contains p.game) := (rows_append hrows _).trans (keep_ok _ hmeets)
  have hsorted := (hshows.filter fun p => ids.contains p.game).sort
  rw [sorted_inOrder] at hsorted
  have hcolumns := congrArg (List.map fun x : Option StoredPosition =>
    [PositionColumn.game, .number, .san].map fun c => x.bind (c.value ·)) (shows_iff.mp hsorted)
  rw [List.map_map, List.map_map] at hcolumns
  rw [Select.eval, hkept]
  exact congrArg Except.ok hcolumns

theorem filterMap_matchOf? (game : Id) (ps : List StoredPosition) :
    (ps.map fun p => [some (Param.int p.game), some (.int p.number), p.san.map .text]).filterMap (matchOf? game) =
      (ps.filter (·.game = game)).map fun p => ⟨p.number, p.san⟩ := by
  induction ps with
  | nil => rfl
  | cons p ps ih =>
    have hsan : (p.san.map Param.text).map Param.asText = p.san := by cases p.san <;> rfl
    rw [List.map_cons, List.filterMap_cons, ih, List.filter_cons]
    by_cases hp : p.game = game <;> simp [matchOf?, hp, hsan]

end Sql

namespace Store
variable {s : Store}

/-- What can be run with a filter can be run without. -/
theorem canRun_empty {plan : Plan} {f : GameFilter} (h : s.canRun plan f = true) : s.canRun plan .empty = true := by
  simp only [canRun, Bool.or_eq_true, Bool.and_eq_true, decide_eq_true_eq] at h ⊢
  exact h.imp_right fun hfits => ⟨(plan.joinedTables_empty_le f).trans hfits.1, hfits.2⟩

/-- The games of a page, with the positions that are listed for them. -/
theorem exists_listed {plan : Option Plan} {f : GameFilter} (h : plan.all (s.canRun · f) = true) (ids : List Id) :
    ∃ found, s.listed ids plan = .ok found ∧
      (ids.filterMap fun id => (s.game? id).map fun g => ⟨g, found.filterMap (Sql.matchOf? id)⟩) =
        s.matchesOf plan ids := by
  cases plan with
  | none => exact ⟨[], rfl, rfl⟩
  | some plan =>
    cases ids with
    | nil => exact ⟨[], rfl, rfl⟩
    | cons id ids =>
      refine ⟨_, Sql.positionsOf_eval (canRun_empty h) _, ?_⟩
      simp only [Sql.filterMap_matchOf?]
      rfl

/-- What a search computes is what its statements say, run one after the other. -/
theorem runPlan_eq_runStatements (s : Store) {r : SearchRequest} (h : r.window.offset ≤ Statement.maxOffset)
    (plan : Option Plan) : s.runPlan r plan = s.runStatements r plan := by
  have hbound : Sql.bound r.window = r.window := by
    rw [Sql.bound, Nat.min_eq_left h]
  have hids : ∀ ids : List Id, (ids.map fun id => [some (Param.int id)]).filterMap Sql.idOf? = ids := by
    intro ids
    rw [List.filterMap_map]
    exact List.filterMap_some
  have hrun : s.runPlan r plan = if s.runs r.filter plan then .ok {
      games := s.matchesOf plan (r.window.cut (s.foundIds r.filter plan))
      pagination := r.pagination (s.countFound r.filter plan) } else .error .database := rfl
  rw [hrun, runStatements, Sql.countOf_eval, Sql.gamesOf_eval, hbound]
  cases hruns : s.runs r.filter plan with
  | false => rfl
  | true =>
    have hcan : plan.all (s.canRun · r.filter) = true := (Bool.and_eq_true_iff.mp hruns).1
    obtain ⟨found, hfound, hmatches⟩ := exists_listed hcan (r.window.cut (s.foundIds r.filter plan))
    simp only [if_true, bind, Except.bind, hids, hfound, hmatches]
    rfl

/-- So a search runs the statements of its plan. The numbers of pages have 32 bits. -/
theorem search_eq_runStatements (s : Store) (keys : FingerprintKeys) {r : SearchRequest} (h : r.page < 2 ^ 32) :
    s.search keys r = r.checked keys >>= s.runStatements r := by
  have hoffset : r.window.offset ≤ Statement.maxOffset :=
    calc (r.page - 1) * r.effectiveSize
      _ ≤ 4294967295 * 500 := Nat.mul_le_mul (by omega) (Nat.min_le_right _ _)
      _ ≤ Statement.maxOffset := by decide
  rw [search]
  exact congrArg (r.checked keys >>= ·) (funext fun plan => s.runPlan_eq_runStatements hoffset plan)

end Store
end ChessArchive
