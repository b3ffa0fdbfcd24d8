import Mathlib.Algebra.BigOperators.Group.List.Basic
import Mathlib.Algebra.Order.Ring.Nat
import Mathlib.Data.List.Forall2
import ChessArchive.Proofs.Query.Tables
import ChessArchive.Proofs.Store.Sound
import ChessArchive.Search.Sql

/-! The rows that the statements of a search read. The joins of a plan give each position as often as there are ways to
    look its squares up, the comparisons keep or drop a position with all its rows, and a game is joined to each row of
    its positions. Where the rows cannot be had, the search is one that fails. -/

namespace ChessArchive
namespace Sql

/-! ### Keeping rows -/

theorem meets_cons {r : Row} {t : Test} {v : Option Bool} {b : Bool} (h : t.eval r = .ok v)
    (hv : v = some true ↔ b = true) (rest : List Test) :
    meets r (t :: rest) = if b then meets r rest else .ok false := by
  have hmeets : meets r (t :: rest) = if v = some true then meets r rest else .ok false := by
    rw [meets, h]
    rfl
  simp only [hmeets, hv]

theorem meets_append (r : Row) (tests others : List Test) :
    meets r (tests ++ others) = do if ← meets r tests then meets r others else return false := by
  induction tests with
  | nil => rfl
  | cons t tests ih =>
    rw [List.cons_append, meets, meets]
    cases t.eval r with
    | error e => rfl
    | ok v =>
      simp only [bind, Except.bind, pure, Except.pure] at ih ⊢
      split
      · exact ih
      · rfl

/-- A test that always holds stands for no test. -/
theorem meets_whereAll (r : Row) (tests : List Test) : meets r (whereAll tests) = meets r tests := by
  cases tests <;> rfl

/-- Rows are kept by what their tests say, or some row comes to a test that fails. -/
theorem keep_eq {tests : List Test} {rows : List Row} (fails passes : Row → Bool)
    (h : ∀ r ∈ rows, meets r tests = if fails r then .error .database else .ok (passes r)) :
    keep tests rows = if rows.any fails then .error .database else .ok (rows.filter passes) := by
  induction rows with
  | nil => rfl
  | cons r rows ih =>
    obtain ⟨hr, hrows⟩ := List.forall_mem_cons.mp h
    rw [keep, hr, ih hrows, List.any_cons, List.filter_cons]
    cases fails r <;> cases rows.any fails <;> cases passes r <;> rfl

theorem keep_ok {tests : List Test} {rows : List Row} (passes : Row → Bool)
    (h : ∀ r ∈ rows, meets r tests = .ok (passes r)) : keep tests rows = .ok (rows.filter passes) := by
  rw [keep_eq (fun _ => false) passes h]
  simp

/-- More tests are tried on the rows that the others have kept. -/
theorem keep_append {tests others : List Test} {rows kept : List Row} (h : keep tests rows = .ok kept) :
    keep (tests ++ others) rows = keep others kept := by
  induction rows generalizing kept with
  | nil =>
    cases h
    rfl
  | cons r rows ih =>
    rw [keep, bind_ok_iff] at h
    obtain ⟨met, hmet, hrest⟩ := h
    obtain ⟨later, hlater, hkept⟩ := bind_ok_iff.mp hrest
    rw [keep, meets_append, hmet, ih hlater]
    cases met with
    | true =>
      rw [← pure_ok_iff.mp hkept]
      rfl
    | false =>
      rw [← pure_ok_iff.mp hkept, if_neg Bool.false_ne_true]
      cases keep others later <;> rfl

/-- The records of a table that go with each row. -/
theorem keep_joined {α : Type} {tests : List Test} {rows : List Row} {records : List α} {add : Row → α → Row}
    (passes : Row → α → Bool) (h : ∀ r ∈ rows, ∀ a ∈ records, meets (add r a) tests = .ok (passes r a)) :
    keep tests (rows.flatMap fun r => records.map (add r)) =
      .ok (rows.flatMap fun r => (records.filter (passes r)).map (add r)) := by
  have hmet : ∀ r ∈ rows, ∀ a ∈ records, (meets (add r a) tests).toOption.getD false = passes r a := by
    intro r hr a ha
    rw [h r hr a ha]
    rfl
  rw [keep_ok fun r => (meets r tests).toOption.getD false]
  · rw [List.filter_flatMap]
    refine congrArg _ (List.flatMap_congr fun r hr => ?_)
    rw [List.filter_map]
    exact congrArg _ (List.filter_congr fun a ha => hmet r hr a ha)
  · intro joined hjoined
    obtain ⟨r, hr, hadded⟩ := List.mem_flatMap.mp hjoined
    obtain ⟨a, ha, rfl⟩ := List.mem_map.mp hadded
    rw [hmet r hr a ha, h r hr a ha]

/-! ### Rows and their positions -/

theorem forall₂_replicate_iff {α β : Type} {R : α → β → Prop} {xs : List α} {n : Nat} {y : β} :
    List.Forall₂ R xs (List.replicate n y) ↔ xs.length = n ∧ ∀ x ∈ xs, R x y := by
  induction xs generalizing n with
  | nil => cases n <;> simp [List.replicate_succ]
  | cons x xs ih => cases n <;> simp [List.replicate_succ, ih, and_left_comm]

/-- Rows show positions, in their order. -/
abbrev Shows : List Row → List StoredPosition → Prop := List.Forall₂ fun r p => r.position = some p

variable {s : Store}

theorem shows_positions (s : Store) : Shows (Row.empty.joined s .positions) s.positions := by
  rw [Shows, Row.joined, List.forall₂_map_left_iff, List.forall₂_same]
  exact fun _ _ => rfl

theorem shows_iff {rows : List Row} {ps : List StoredPosition} :
    Shows rows ps ↔ rows.map (·.position) = ps.map some := by
  rw [← List.forall₂_eq_eq_eq, List.forall₂_map_left_iff, List.forall₂_map_right_iff]

theorem Shows.mem_iff {rows : List Row} {ps : List StoredPosition} (h : Shows rows ps) {p : StoredPosition} :
    p ∈ ps ↔ ∃ r ∈ rows, r.position = some p := by
  rw [← List.mem_map_of_injective (Option.some_injective _), ← shows_iff.mp h, List.mem_map]

theorem Shows.exists_position {rows : List Row} {ps : List StoredPosition} (h : Shows rows ps) {r : Row}
    (hr : r ∈ rows) : ∃ p, r.position = some p := by
  have hmem : r.position ∈ ps.map some := shows_iff.mp h ▸ List.mem_map_of_mem hr
  obtain ⟨p, -, hp⟩ := List.mem_map.mp hmem
  exact ⟨p, hp.symm⟩

theorem Shows.map_value {rows : List Row} {ps : List StoredPosition} (h : Shows rows ps) (column : PositionColumn) :
    rows.map (·.value (.position column)) = ps.map (column.value ·) := by
  have hbind : rows.map (·.value (.position column)) = (rows.map (·.position)).map (·.bind (column.value ·)) := by
    rw [List.map_map]
    rfl
  rw [hbind, shows_iff.mp h, List.map_map]
  rfl

theorem Shows.filter {rows : List Row} {ps : List StoredPosition} (h : Shows rows ps) (passes : StoredPosition → Bool) :
    Shows (rows.filter fun r => r.position.any passes) (ps.filter passes) := by
  refine List.rel_filter (fun r p hp => ?_) h
  simp [hp]

/-! ### Conditions -/

/-- What a condition asks of a position itself. -/
def tested (p : StoredPosition) : Condition → Bool
  | .lookup _ _ => true
  | .fingerprint v => p.fingerprint = v
  | .material m => p.material = m
  | .side c => p.side = c

/-- In how many ways a condition is met through the index. -/
def joinWays (rows : List IndexRow) (p : StoredPosition) : Condition → Nat
  | .lookup s allowed => (Condition.lookup s allowed).ways rows p
  | _ => 1

theorem ways_eq (rows : List IndexRow) (p : StoredPosition) (c : Condition) :
    c.ways rows p = (if tested p c then 1 else 0) * joinWays rows p c := by
  cases c <;> simp [tested, joinWays, Condition.ways]

/-- A plan has the ways of its look-ups, as far as the position meets the other conditions. -/
theorem plan_ways {plan : Plan} (h : plan.isNothing = false) (rows : List IndexRow) (p : StoredPosition) :
    plan.ways rows p =
      if plan.conditions.all (tested p) then (plan.conditions.map (joinWays rows p)).prod else 0 := by
  have htested : ∀ cs : List Condition, (cs.map fun c => if tested p c then 1 else 0).prod =
      if cs.all (tested p) then 1 else 0 := by
    intro cs
    induction cs with
    | nil => rfl
    | cons c cs ih =>
      rw [List.map_cons, List.prod_cons, ih, List.all_cons]
      cases tested p c <;> simp
  -- The comparisons give a factor of 0 or 1 each, and the look-ups the rest.
  have hfactors : (plan.conditions.map (Condition.ways rows p)).prod =
      (plan.conditions.map fun c => if tested p c then 1 else 0).prod *
        (plan.conditions.map (joinWays rows p)).prod := by
    rw [← List.prod_map_mul]
    exact congrArg _ (List.map_congr_left fun c _ => ways_eq rows p c)
  rw [Plan.ways, h, if_neg (by simp), ← List.prod_eq_foldl, hfactors, htested]
  split <;> simp

/-! ### Joins -/

theorem contains_pieces (allowed : PieceSet) (p : Piece) :
    (allowed.toList.map fun q => Param.text (String.singleton q.symbol)).contains (.text (String.singleton p.symbol)) =
      allowed.contains p := by
  rw [Bool.eq_iff_iff, List.contains_iff_mem, List.mem_map, ← PieceSet.mem_toList]
  simp only [Param.piece_inj, exists_eq_right]

theorem meets_lookup {r : Row} {p : StoredPosition} (hp : r.position = some p) (sq : Square) (allowed : PieceSet)
    (k : Nat) (l : IndexRow) {j : Join} (hj : joinOf? (.lookup sq allowed, k) = some j) :
    meets { r with locations := (k, l) :: r.locations } j.on =
      .ok (l.square = sq && l.position = p.id && allowed.contains l.piece) := by
  have hlocation : ∀ c : LocationColumn,
      Row.value { r with locations := (k, l) :: r.locations } (.location k c) = c.value l := by
    intro c
    simp [Row.value]
  have hposition : ∀ c : PositionColumn,
      Row.value { r with locations := (k, l) :: r.locations } (.position c) = c.value p := by
    intro c
    simp [Row.value, hp]
  have hid : (Test.same (.location k .position) (.position .id)).eval { r with locations := (k, l) :: r.locations } =
      .ok (some (l.position = p.id)) := by
    simp [Test.eval, hlocation, hposition, LocationColumn.value, PositionColumn.value]
  have hsquare : (Test.compare .equal (.location k .square) (.int sq.val)).eval
      { r with locations := (k, l) :: r.locations } = .ok (some (l.square = sq)) := by
    rw [Test.eval, hlocation, LocationColumn.value, Option.map_some, Operator.holds,
      decide_eq_decide.mpr Param.square_inj]
  have hpiece : (Test.among (.location k .piece) (allowed.toList.map fun q => .text (String.singleton q.symbol))).eval
      { r with locations := (k, l) :: r.locations } = .ok (some (allowed.contains l.piece)) := by
    rw [Test.eval, hlocation, LocationColumn.value, Option.map_some, contains_pieces]
  cases hj
  rw [meets_cons hid Option.some_inj, meets_cons hsquare Option.some_inj, meets_cons hpiece Option.some_inj, meets]
  by_cases hl : l.position = p.id <;> by_cases hs : l.square = sq <;> cases allowed.contains l.piece <;> simp [hl, hs]

/-- Each join of a look-up multiplies the rows of a position by its ways. -/
theorem extend_lookup {rows : List Row} {ps : List StoredPosition} (h : Shows rows ps) (sq : Square) (allowed : PieceSet)
    (k : Nat) {j : Join} (hj : joinOf? (.lookup sq allowed, k) = some j) :
    ∃ joined, j.extend s rows = .ok joined ∧
      Shows joined (ps.flatMap fun p => List.replicate ((Condition.lookup sq allowed).ways s.rows p) p) := by
  have htable : j.table = .locations k := by
    cases hj
    rfl
  rw [Join.extend, htable]
  refine ⟨_, keep_joined (fun r l =>
    r.position.any fun p => l.square = sq && l.position = p.id && allowed.contains l.piece) fun r hr l _ => ?_, ?_⟩
  · obtain ⟨p, hp⟩ := h.exists_position hr
    rw [meets_lookup hp sq allowed k l hj, hp, Option.any_some]
  · refine List.rel_flatMap h fun r p hp => ?_
    simp only [hp, Option.any_some]
    refine forall₂_replicate_iff.mpr ⟨?_, ?_⟩
    · rw [List.length_map, Condition.ways, List.countP_eq_length_filter]
    · intro joined hjoined
      obtain ⟨l, -, rfl⟩ := List.mem_map.mp hjoined
      rfl

/-- All joins of a plan multiply them by the ways of all look-ups. -/
theorem extend_lookups (cs : List Condition) {rows : List Row} {ps : List StoredPosition} (h : Shows rows ps) (k : Nat) :
    ∃ joined, ((cs.zipIdx k).filterMap joinOf?).foldlM (Join.extend s) rows = .ok joined ∧
      Shows joined (ps.flatMap fun p => List.replicate (cs.map (joinWays s.rows p)).prod p) := by
  -- The rows grow with each join, so they are general in the induction, and so are the numbers of the conditions.
  induction cs generalizing rows ps k with
  | nil => exact ⟨rows, rfl, by simpa using h⟩
  | cons c cs ih =>
    rw [List.zipIdx_cons]
    cases hjoin : joinOf? (c, k) with
    | none =>
      have hone : ∀ p, joinWays s.rows p c = 1 := by
        cases c with
        | lookup => cases hjoin
        | _ => exact fun _ => rfl
      simp only [List.filterMap_cons_none hjoin, List.map_cons, List.prod_cons, hone, Nat.one_mul]
      exact ih h (k + 1)
    | some j =>
      cases c with
      | lookup sq allowed =>
        obtain ⟨joined, hkeep, hshows⟩ := extend_lookup h sq allowed k hjoin
        obtain ⟨all, hall, hallShows⟩ := ih hshows (k + 1)
        refine ⟨all, ?_, ?_⟩
        · rw [List.filterMap_cons_some hjoin, List.foldlM_cons, hkeep]
          exact hall
        · simp only [List.flatMap_assoc, List.flatMap_replicate, List.flatten_replicate_replicate] at hallShows
          simp only [List.map_cons, List.prod_cons]
          exact hallShows
      | _ => cases hjoin

/-! ### Comparisons -/

theorem meets_comparisons {r : Row} {p : StoredPosition} (hp : r.position = some p) (cs : List Condition) :
    meets r (cs.filterMap testOf?) = .ok (cs.all (tested p)) := by
  induction cs with
  | nil => rfl
  | cons c cs ih =>
    rw [List.all_cons]
    cases htest : testOf? c with
    | none =>
      have hone : tested p c = true := by
        cases c with
        | lookup => rfl
        | _ => cases htest
      rw [List.filterMap_cons_none htest, ih, hone, Bool.true_and]
    | some t =>
      have heval : t.eval r = .ok (some (tested p c)) := by
        cases c with
        | lookup => cases htest
        | fingerprint v =>
          cases htest
          simpa [Test.eval, Row.value, hp, PositionColumn.value, Operator.holds, tested] using Param.word_inj
        | material m =>
          cases htest
          simp [Test.eval, Row.value, hp, PositionColumn.value, Operator.holds, tested]
        | side c =>
          cases htest
          simpa [Test.eval, Row.value, hp, PositionColumn.value, Operator.holds, tested] using Param.color_inj
      rw [List.filterMap_cons_some htest, meets_cons heval Option.some_inj, ih]
      cases tested p c <;> rfl

/-! ### Filters -/

theorem eval_either {r : Row} {t u : Test} {v w : Option Bool} (ht : t.eval r = .ok v) (hu : u.eval r = .ok w) :
    ∃ x, (Test.either t u).eval r = .ok x ∧ (x = some true ↔ v = some true ∨ w = some true) := by
  rw [Test.eval, ht, hu]
  rcases v with _ | _ | _ <;> rcases w with _ | _ | _ <;> exact ⟨_, rfl, by simp⟩

theorem eval_both {r : Row} {t u : Test} {v w : Option Bool} (ht : t.eval r = .ok v) (hu : u.eval r = .ok w) :
    ∃ x, (Test.both t u).eval r = .ok x ∧ (x = some true ↔ v = some true ∧ w = some true) := by
  rw [Test.eval, ht, hu]
  rcases v with _ | _ | _ <;> rcases w with _ | _ | _ <;> exact ⟨_, rfl, by simp⟩

section
variable {r : Row} {g : StoredGame} (hg : r.game = some g)
include hg

theorem eval_like (column : GameColumn) (t : String) : (Test.like (.game column) (Like.containing t)).eval r =
    if Like.maxPatternSize < (Like.containing t).utf8ByteSize then .error .database
    else .ok ((column.value g).map fun x => Like.holds (Like.containing t) x.asText) := by
  rw [Test.eval, Row.value, hg, Option.bind_some]

theorem eval_compare (o : Operator) (column : GameColumn) (v : Param) :
    (Test.compare o (.game column) v).eval r = .ok ((column.value g).map (o.holds · v)) := by
  rw [Test.eval, Row.value, hg, Option.bind_some]

/-- A test fails where its term is too long. -/
theorem eval_gameTest_error {c : GameCondition} (h : c.isTooLong = true) : (gameTest c).eval r = .error .database := by
  cases c with
  | white t | black t | opening t => exact (eval_like hg _ t).trans (if_pos (of_decide_eq_true h))
  | player t =>
    have hwhite := (eval_like hg .white t).trans (if_pos (of_decide_eq_true h))
    rw [gameTest, Test.eval, hwhite]
    rfl
  | _ => cases h

/-- Else it says whether the game meets the condition. -/
theorem eval_gameTest_ok {c : GameCondition} (h : c.isTooLong = false) :
    ∃ v, (gameTest c).eval r = .ok v ∧ (v = some true ↔ c.holds g.metadata = true) := by
  have hlike : ∀ (column : GameColumn) (t : String), c.term? = some t →
      (Test.like (.game column) (Like.containing t)).eval r =
        .ok ((column.value g).map fun x => Like.holds (Like.containing t) x.asText) := by
    intro column t hterm
    rw [GameCondition.isTooLong, hterm] at h
    exact (eval_like hg column t).trans (if_neg (of_decide_eq_false h))
  cases c with
  | white t => exact ⟨_, hlike .white t rfl, by simp [GameCondition.holds, GameColumn.value, Param.asText]⟩
  | black t => exact ⟨_, hlike .black t rfl, by simp [GameCondition.holds, GameColumn.value, Param.asText]⟩
  | opening t =>
    refine ⟨_, hlike .opening t rfl, ?_⟩
    simp [GameCondition.holds, GameColumn.value, Param.asText, Option.any_eq_true]
  | player t =>
    obtain ⟨v, hv, hiff⟩ := eval_either (hlike .white t rfl) (hlike .black t rfl)
    refine ⟨v, hv, hiff.trans ?_⟩
    simp [GameCondition.holds, GameColumn.value, Param.asText]
  | eco v =>
    refine ⟨_, eval_compare hg .equal .eco (.text v), ?_⟩
    simp [GameCondition.holds, GameColumn.value, Operator.holds]
  | result v =>
    refine ⟨_, eval_compare hg .equal .result (.text v), ?_⟩
    simp [GameCondition.holds, GameColumn.value, Operator.holds]
  | dateFrom v =>
    refine ⟨_, eval_compare hg .atLeast .date (.text v), ?_⟩
    simp [GameCondition.holds, GameColumn.value, Operator.holds, Param.le, Option.any_eq_true]
  | dateTo v =>
    refine ⟨_, eval_compare hg .atMost .date (.text v), ?_⟩
    simp [GameCondition.holds, GameColumn.value, Operator.holds, Param.le, Option.any_eq_true]
  | minElo n =>
    obtain ⟨v, hv, hiff⟩ := eval_either (eval_compare hg .atLeast .whiteElo (.int n))
      (eval_compare hg .atLeast .blackElo (.int n))
    refine ⟨v, hv, hiff.trans ?_⟩
    simp [GameCondition.holds, GameColumn.value, Operator.holds, Param.le, Option.any_eq_true]
  | maxElo n =>
    obtain ⟨v, hv, hiff⟩ := eval_both (eval_compare hg .atMost .whiteElo (.int n))
      (eval_compare hg .atMost .blackElo (.int n))
    refine ⟨v, hv, hiff.trans ?_⟩
    simp [GameCondition.holds, GameColumn.value, Operator.holds, Param.le, Option.any_eq_true]

theorem meets_filter (cs : List GameCondition) : meets r (cs.map gameTest) =
    if GameFilter.comesToTooLong g.metadata cs then .error .database else .ok (cs.all (·.holds g.metadata)) := by
  induction cs with
  | nil => rfl
  | cons c cs ih =>
    rw [List.map_cons, GameFilter.comesToTooLong, List.all_cons]
    cases hlong : c.isTooLong with
    | true =>
      rw [meets, eval_gameTest_error hg hlong]
      rfl
    | false =>
      obtain ⟨v, hv, hiff⟩ := eval_gameTest_ok hg hlong
      rw [meets_cons hv hiff, ih]
      cases c.holds g.metadata <;> simp

end

/-- The games that a position is beside are those with its number. -/
theorem extend_games {rows : List Row} {ps : List StoredPosition} (h : Shows rows ps) :
    ∃ joined, joinGames.extend s rows = .ok joined ∧
      (∀ r ∈ joined, ∃ p g, r.position = some p ∧ r.game = some g) ∧
      ∀ p g, (∃ r ∈ joined, r.position = some p ∧ r.game = some g) ↔ p ∈ ps ∧ g ∈ s.games ∧ g.id = p.game := by
  have hmeets : ∀ r ∈ rows, ∀ g ∈ s.games, meets { r with game := some g } [.same (.game .id) (.position .game)] =
      .ok (r.position.any fun p => g.id = p.game) := by
    intro r hr g _
    obtain ⟨p, hp⟩ := h.exists_position hr
    have heval : (Test.same (.game .id) (.position .game)).eval { r with game := some g } =
        .ok (some (g.id = p.game)) := by
      simp [Test.eval, Row.value, hp, GameColumn.value, PositionColumn.value]
    rw [meets_cons heval Option.some_inj, meets, hp, Option.any_some]
    split <;> simp_all
  refine ⟨_, keep_joined _ hmeets, ?_, fun p g => ?_⟩
  · intro joined hjoined
    obtain ⟨r, hr, hadded⟩ := List.mem_flatMap.mp hjoined
    obtain ⟨g, -, rfl⟩ := List.mem_map.mp hadded
    obtain ⟨p, hp⟩ := h.exists_position hr
    exact ⟨p, g, hp, rfl⟩
  · rw [h.mem_iff]
    constructor
    · rintro ⟨joined, hjoined, hp, hg⟩
      obtain ⟨r, hr, hadded⟩ := List.mem_flatMap.mp hjoined
      obtain ⟨g', hg', rfl⟩ := List.mem_map.mp hadded
      obtain rfl : g' = g := Option.some_inj.mp hg
      obtain ⟨hmem, hid⟩ := List.mem_filter.mp hg'
      refine ⟨⟨r, hr, hp⟩, hmem, ?_⟩
      simpa [show r.position = some p from hp] using hid
    · rintro ⟨⟨r, hr, hp⟩, hg, hid⟩
      refine ⟨{ r with game := some g }, List.mem_flatMap.mpr ⟨r, hr, List.mem_map.mpr ⟨g, ?_, rfl⟩⟩, hp, rfl⟩
      exact List.mem_filter.mpr ⟨hg, by simp [hp, hid]⟩

/-! ### Sources -/

theorem joins_length (cs : List Condition) (k : Nat) :
    ((cs.zipIdx k).filterMap joinOf?).length = (Plan.mk cs).lookups := by
  induction cs generalizing k with
  | nil => rfl
  | cons c cs ih =>
    rw [List.zipIdx_cons, Plan.lookups, List.countP_cons]
    cases c with
    | lookup => exact congrArg (· + 1) (ih (k + 1))
    | _ => exact ih (k + 1)

theorem joins_any_isIndex (cs : List Condition) (k : Nat) :
    ((cs.zipIdx k).filterMap joinOf?).any (·.table.isIndex) = (Plan.mk cs).usesIndex := by
  induction cs generalizing k with
  | nil => rfl
  | cons c cs ih =>
    rw [List.zipIdx_cons, Plan.usesIndex, List.any_cons]
    cases c with
    | lookup => rfl
    | _ => exact ih (k + 1)

theorem isRefused_candidates (p : Plan) (f : GameFilter) : (candidates p f).isRefused s = !s.canRun p f := by
  cases hp : p.isNothing with
  | true => simp [candidates, hp, Source.isRefused, Source.tables, Store.canRun, maxJoinedTables, Table.isIndex]
  | false =>
    have hlookups : (p.conditions.zipIdx.filterMap joinOf?).length = p.lookups := joins_length _ 0
    have hlength : (candidates p f).tables.length = Statement.joinedTables p f := by
      simp only [candidates, hp, Bool.false_eq_true, if_false, Source.tables, List.length_cons, List.length_map,
        List.length_append, hlookups, Plan.joinedTables_eq]
      cases f.isEmpty <;> simp <;> omega
    have hindex : (candidates p f).tables.any Table.isIndex = p.usesIndex := by
      simp only [candidates, hp, Bool.false_eq_true, if_false, Source.tables, List.any_cons, List.any_map,
        List.any_append, Function.comp_def, joins_any_isIndex]
      cases f.isEmpty <;> simp [Table.isIndex, joinGames]
    have hmany : decide (maxJoinedTables < Statement.joinedTables p f) =
        !decide (Statement.joinedTables p f ≤ maxJoinedTables) := by
      rw [← decide_not, decide_eq_decide, Nat.not_le]
    rw [Source.isRefused, hlength, hindex, Store.canRun, hp, hmany, Bool.false_or, Bool.not_and, Bool.not_not]

theorem isRefused_of_canRun {p : Plan} {f : GameFilter} (h : s.canRun p f = true) :
    (candidates p f).isRefused s = false := by
  rw [isRefused_candidates, h]
  rfl

theorem rows_of_isRefused {q : Source} (h : q.isRefused s = true) : q.rows s = .error .database := by
  rw [Source.rows, if_pos h]
  rfl

theorem rows_of_joins {q : Source} (h : q.isRefused s = false) {joined : List Row}
    (hjoins : q.joins.foldlM (Join.extend s) (Row.empty.joined s q.table) = .ok joined) :
    q.rows s = keep q.tests joined := by
  rw [Source.rows, h, hjoins]
  rfl

theorem rows_append {q : Source} {rows : List Row} (h : q.rows s = .ok rows) (others : List Test) :
    Source.rows s { q with tests := q.tests ++ others } = keep others rows := by
  cases hrefused : q.isRefused s with
  | true =>
    rw [rows_of_isRefused hrefused] at h
    cases h
  | false =>
    rw [Source.rows, hrefused] at h
    obtain ⟨joined, hjoined, hkeep⟩ := bind_ok_iff.mp h
    rw [rows_of_joins (q := { q with tests := q.tests ++ others }) hrefused hjoined, keep_append hkeep]

end Sql

namespace Store

/-- The positions that a plan selects, by their place in the table. -/
def chosen (s : Store) (plan : Plan) : List StoredPosition :=
  s.positions.flatMap fun p => List.replicate (plan.ways s.rows p) p

theorem chosen_nothing {plan : Plan} (h : plan.isNothing = true) (s : Store) : s.chosen plan = [] := by
  simp [chosen, Plan.ways, h]

theorem mem_chosen {s : Store} {plan : Plan} {p : StoredPosition} : p ∈ s.selected plan ↔ p ∈ s.chosen plan :=
  List.mem_mergeSort

theorem selected_nothing {plan : Plan} (h : plan.isNothing = true) (s : Store) : s.selected plan = [] :=
  List.eq_nil_iff_forall_not_mem.mpr fun p hp => by simpa [chosen_nothing h] using mem_chosen.mp hp

end Store

namespace Sql
variable {s : Store}

/-- The rows that the joins give, and what they have to do with the plan. -/
theorem exists_joined {plan : Plan} (h : plan.isNothing = false) :
    ∃ joined ps, (plan.conditions.zipIdx.filterMap joinOf?).foldlM (Join.extend s) (Row.empty.joined s .positions) =
      .ok joined ∧ Shows joined ps ∧ ps.filter (fun p => plan.conditions.all (tested p)) = s.chosen plan := by
  obtain ⟨joined, hjoins, hshows⟩ := extend_lookups plan.conditions (shows_positions s) 0
  refine ⟨joined, _, hjoins, hshows, ?_⟩
  rw [List.filter_flatMap, Store.chosen]
  refine List.flatMap_congr fun p _ => ?_
  rw [plan_ways h]
  by_cases htested : plan.conditions.all (tested p) = true <;> simp [htested]

/-- The position of a row meets the comparisons of a plan. -/
def isTested (plan : Plan) (r : Row) : Bool := r.position.any fun p => plan.conditions.all (tested p)

theorem rows_nothing {plan : Plan} (h : plan.isNothing = true) (f : GameFilter) :
    (candidates plan f).rows s = .ok [] := by
  have hrefused : (candidates plan f).isRefused s = false := isRefused_of_canRun (by simp [Store.canRun, h])
  have hcandidates : candidates plan f = ⟨.positions, [], [.constant false]⟩ := by simp [candidates, h]
  rw [hcandidates] at hrefused ⊢
  rw [rows_of_joins hrefused rfl, keep_ok (fun _ => false) fun _ _ => rfl, List.filter_false]

/-- The rows of the statement without a filter show the positions as often as the plan has ways. -/
theorem rows_unfiltered {plan : Plan} {f : GameFilter} (hrun : s.canRun plan f = true) (hf : f.isEmpty = true) :
    ∃ rows, (candidates plan f).rows s = .ok rows ∧ Shows rows (s.chosen plan) := by
  cases hplan : plan.isNothing with
  | true => exact ⟨[], rows_nothing hplan f, Store.chosen_nothing hplan s ▸ .nil⟩
  | false =>
    have hrefused := isRefused_of_canRun hrun
    obtain ⟨joined, ps, hjoins, hshows, hps⟩ := exists_joined (s := s) hplan
    have hcandidates : candidates plan f = ⟨.positions, plan.conditions.zipIdx.filterMap joinOf?,
        whereAll (plan.conditions.filterMap testOf?)⟩ := by
      simp [candidates, hplan, hf]
    rw [hcandidates] at hrefused ⊢
    refine ⟨_, (rows_of_joins hrefused hjoins).trans (keep_ok (isTested plan) fun r hr => ?_), hps ▸ hshows.filter _⟩
    obtain ⟨p, hp⟩ := hshows.exists_position hr
    rw [meets_whereAll, meets_comparisons hp, isTested, hp, Option.any_some]

theorem comesToTooLong_any {m : Metadata} {cs : List GameCondition} (h : GameFilter.comesToTooLong m cs = true) :
    cs.any (·.isTooLong) = true := by
  induction cs with
  | nil => cases h
  | cons c cs ih =>
    rw [GameFilter.comesToTooLong, Bool.or_eq_true, Bool.and_eq_true] at h
    rw [List.any_cons, Bool.or_eq_true]
    exact h.imp_right fun hlater => ih hlater.2

/-- The filter cannot be tried on the game of a row. -/
def failsOn (f : GameFilter) (r : Row) : Bool :=
  r.game.any fun g => GameFilter.comesToTooLong g.metadata f.conditions

/-- The game of a row passes a filter. -/
def isPassed (f : GameFilter) (r : Row) : Bool := r.game.any fun g => f.passes g.metadata

/-- Each row has a position and its game. Where the comparisons are met, these are the positions that the plan
    selects. -/
structure Paired (s : Store) (plan : Plan) (joined : List Row) : Prop where
  both : ∀ r ∈ joined, ∃ p g, r.position = some p ∧ r.game = some g
  selected_iff : ∀ p g, (∃ r ∈ joined, r.position = some p ∧ r.game = some g ∧ isTested plan r = true) ↔
    p ∈ s.selected plan ∧ g ∈ s.games ∧ g.id = p.game

theorem exists_paired {plan : Plan} (h : plan.isNothing = false) :
    ∃ joined, (plan.conditions.zipIdx.filterMap joinOf? ++ [joinGames]).foldlM (Join.extend s)
      (Row.empty.joined s .positions) = .ok joined ∧ Paired s plan joined := by
  obtain ⟨looked, ps, hlookups, hshows, hps⟩ := exists_joined (s := s) h
  obtain ⟨joined, hgames, hboth, hmem⟩ := extend_games (s := s) hshows
  refine ⟨joined, ?_, hboth, fun p g => ?_⟩
  · rw [List.foldlM_append, hlookups]
    exact (bind_pure _).trans hgames
  · have hselected : p ∈ s.selected plan ↔ p ∈ ps ∧ plan.conditions.all (tested p) = true := by
      rw [Store.mem_chosen, ← hps, List.mem_filter]
    rw [hselected, and_right_comm, ← hmem]
    constructor
    · rintro ⟨r, hr, hp, hg, htested⟩
      exact ⟨⟨r, hr, hp, hg⟩, by simpa [isTested, hp] using htested⟩
    · rintro ⟨⟨r, hr, hp, hg⟩, htested⟩
      exact ⟨r, hr, hp, hg, by simpa [isTested, hp] using htested⟩

section
variable {plan : Plan} {joined : List Row} (h : Paired s plan joined) (f : GameFilter)
include h

theorem Paired.meets {r : Row} (hr : r ∈ joined) :
    meets r (whereAll (plan.conditions.filterMap testOf? ++ f.conditions.map gameTest)) =
      if isTested plan r && failsOn f r then .error .database else .ok (isTested plan r && isPassed f r) := by
  obtain ⟨p, g, hp, hg⟩ := h.both r hr
  rw [meets_whereAll, meets_append, meets_comparisons hp, meets_filter hg]
  simp only [isTested, failsOn, isPassed, hp, hg, Option.any_some]
  cases plan.conditions.all (tested p) <;> rfl

theorem Paired.any_failsOn :
    joined.any (fun r => isTested plan r && failsOn f r) = s.failsOnSomeGame f (some plan) := by
  rw [Bool.eq_iff_iff, List.any_eq_true, Store.failsOnSomeGame, Bool.and_eq_true, List.any_eq_true (l := s.games)]
  simp only [Option.all_some, Bool.and_eq_true, List.any_eq_true, decide_eq_true_eq]
  constructor
  · rintro ⟨r, hr, htested, hfail⟩
    obtain ⟨p, g, hp, hg⟩ := h.both r hr
    obtain ⟨hselected, hgame, hid⟩ := (h.selected_iff p g).mp ⟨r, hr, hp, hg, htested⟩
    have hlong : GameFilter.comesToTooLong g.metadata f.conditions = true := by simpa [failsOn, hg] using hfail
    exact ⟨List.any_eq_true.mp (comesToTooLong_any hlong), g, hgame, ⟨p, hselected, hid.symm⟩, hlong⟩
  · rintro ⟨-, g, hgame, ⟨p, hselected, hid⟩, hlong⟩
    obtain ⟨r, hr, -, hg, htested⟩ := (h.selected_iff p g).mpr ⟨hselected, hgame, hid.symm⟩
    exact ⟨r, hr, htested, by simpa [failsOn, hg] using hlong⟩

theorem Paired.mem_candidates (hf : f.isEmpty = false) (p : StoredPosition) :
    (∃ r ∈ joined.filter fun r => isTested plan r && isPassed f r, r.position = some p) ↔
      p ∈ s.candidates plan f := by
  rw [Store.candidates, hf, if_neg (by simp), List.mem_filter]
  simp only [List.mem_filter, List.any_eq_true, Bool.and_eq_true, decide_eq_true_eq]
  constructor
  · rintro ⟨r, ⟨hr, htested, hpassed⟩, hp⟩
    obtain ⟨p', g, hp', hg⟩ := h.both r hr
    obtain rfl : p' = p := Option.some_inj.mp (hp'.symm.trans hp)
    obtain ⟨hselected, hgame, hid⟩ := (h.selected_iff p' g).mp ⟨r, hr, hp, hg, htested⟩
    exact ⟨hselected, g, hgame, hid, by simpa [isPassed, hg] using hpassed⟩
  · rintro ⟨hselected, g, hgame, hid, hpassed⟩
    obtain ⟨r, hr, hp, hg, htested⟩ := (h.selected_iff p g).mpr ⟨hselected, hgame, hid⟩
    exact ⟨r, ⟨hr, htested, by simpa [isPassed, hg] using hpassed⟩, hp⟩

end

/-- The rows of the statement with a filter, unless a term of the filter is too long for a game that is joined. -/
theorem rows_filtered {plan : Plan} {f : GameFilter} (hrun : s.canRun plan f = true) (hplan : plan.isNothing = false)
    (hf : f.isEmpty = false) :
    ∃ joined, Paired s plan joined ∧ (candidates plan f).rows s =
      if s.failsOnSomeGame f (some plan) then .error .database
      else .ok (joined.filter fun r => isTested plan r && isPassed f r) := by
  have hrefused := isRefused_of_canRun hrun
  obtain ⟨joined, hjoins, hpaired⟩ := exists_paired (s := s) hplan
  have hcandidates : candidates plan f = ⟨.positions, plan.conditions.zipIdx.filterMap joinOf? ++ [joinGames],
      whereAll (plan.conditions.filterMap testOf? ++ f.conditions.map gameTest)⟩ := by
    simp [candidates, hplan, hf]
  rw [hcandidates] at hrefused ⊢
  rw [rows_of_joins hrefused hjoins, keep_eq _ _ fun r hr => hpaired.meets f hr, hpaired.any_failsOn f]
  exact ⟨joined, hpaired, rfl⟩

theorem shows_filterMap {rows : List Row} (h : ∀ r ∈ rows, ∃ p, r.position = some p) :
    Shows rows (rows.filterMap (·.position)) := by
  induction rows with
  | nil => exact .nil
  | cons r rows ih =>
    obtain ⟨⟨p, hp⟩, hrows⟩ := List.forall_mem_cons.mp h
    rw [List.filterMap_cons_some hp]
    exact .cons hp (ih hrows)

/-- The rows of either statement show the candidates. -/
theorem rows_of_runs {plan : Plan} {f : GameFilter} (h : s.runs f (some plan) = true) :
    ∃ rows ps, (candidates plan f).rows s = .ok rows ∧ Shows rows ps ∧ ∀ p, p ∈ ps ↔ p ∈ s.candidates plan f := by
  rw [Store.runs, Option.all_some, Bool.and_eq_true, Bool.not_eq_true'] at h
  obtain ⟨hrun, hfails⟩ := h
  cases hf : f.isEmpty with
  | true =>
    obtain ⟨rows, hrows, hshows⟩ := rows_unfiltered hrun hf
    refine ⟨rows, _, hrows, hshows, fun p => ?_⟩
    rw [Store.candidates, if_pos hf, Store.mem_chosen]
  | false =>
    cases hplan : plan.isNothing with
    | true =>
      refine ⟨[], [], rows_nothing hplan f, .nil, fun p => ?_⟩
      simp [Store.candidates, hf, Store.selected_nothing hplan]
    | false =>
      obtain ⟨joined, hpaired, hrows⟩ := rows_filtered hrun hplan hf
      rw [hfails, if_neg (by simp)] at hrows
      refine ⟨_, _, hrows, shows_filterMap fun r hr => ?_,
        fun p => List.mem_filterMap.trans (hpaired.mem_candidates f hf p)⟩
      obtain ⟨p, -, hp, -⟩ := hpaired.both r (List.mem_filter.mp hr).1
      exact ⟨p, hp⟩

/-- A search that fails has no rows. -/
theorem rows_of_not_runs {plan : Plan} {f : GameFilter} (h : s.runs f (some plan) = false) :
    (candidates plan f).rows s = .error .database := by
  rw [Store.runs, Option.all_some] at h
  cases hrun : s.canRun plan f with
  | false =>
    refine rows_of_isRefused ?_
    rw [isRefused_candidates, hrun]
    rfl
  | true =>
    have hfails : s.failsOnSomeGame f (some plan) = true := by simpa [hrun] using h
    have hf : f.isEmpty = false := by
      by_contra hempty
      simp [Store.failsOnSomeGame, GameFilter.conditions_of_isEmpty (by simpa using hempty)] at hfails
    have hplan : plan.isNothing = false := by
      by_contra hnothing
      simp [Store.failsOnSomeGame, Store.selected_nothing (by simpa using hnothing)] at hfails
    obtain ⟨joined, -, hrows⟩ := rows_filtered hrun hplan hf
    rw [hrows, if_pos hfails]

/-- The rows of a search by headers alone are the games that pass. -/
theorem rows_headers (f : GameFilter) :
    (filtered f).rows s =
      if s.runs f none then .ok ((Row.empty.joined s .games).filter (isPassed f)) else .error .database := by
  have hmeets : ∀ r ∈ Row.empty.joined s .games, meets r (whereAll (f.conditions.map gameTest)) =
      if failsOn f r then .error .database else .ok (isPassed f r) := by
    intro r hr
    obtain ⟨g, -, rfl⟩ := List.mem_map.mp hr
    rw [meets_whereAll, meets_filter rfl]
    rfl
  have hfails : (Row.empty.joined s .games).any (failsOn f) = s.failsOnSomeGame f none := by
    have hsome : s.games.any (fun g => GameFilter.comesToTooLong g.metadata f.conditions) = true →
        f.conditions.any (·.isTooLong) = true := by
      intro h
      obtain ⟨g, -, hlong⟩ := List.any_eq_true.mp h
      exact comesToTooLong_any hlong
    rw [Row.joined, List.any_map, Store.failsOnSomeGame]
    exact (Bool.and_eq_right_iff_imp.mpr hsome).symm
  rw [filtered, rows_of_joins rfl rfl, keep_eq _ _ hmeets, hfails, Store.runs, Option.all_none, Bool.true_and]
  cases s.failsOnSomeGame f none <;> rfl

end Sql
end ChessArchive
