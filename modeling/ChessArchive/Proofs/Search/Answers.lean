import ChessArchive.Proofs.Search.Selection
import ChessArchive.Proofs.Store.Reached

/-! What searches answer. The pages of a request, put together, list the games that pass the filter and have a position
    that is asked for, newest first, and under each game those positions, in the order of play. -/

namespace ChessArchive
open Placement

/-! ### Requests -/

/-- A position is one that a pattern asks for, with the side to move if one is given. -/
def StoredPosition.satisfies (p : StoredPosition) (pattern : Pattern) (side : Option Color) : Bool :=
  (decode p.board).toOption.any pattern.matchesBoard && side.all (p.side = ·)

theorem StoredPosition.satisfies_of_ok {p : StoredPosition} {occupied : Occupied} (h : decode p.board = .ok occupied)
    (pattern : Pattern) (side : Option Color) :
    p.satisfies pattern side = (pattern.matchesBoard occupied && side.all (p.side = ·)) := by
  simp [satisfies, h, Except.toOption]

theorem Plan.ofPattern_satisfies {p : StoredPosition} {occupied : Occupied} (h : decode p.board = .ok occupied)
    (pattern : Pattern) : (ofPattern pattern).holds p = pattern.matchesBoard occupied := by
  rw [Bool.eq_iff_iff, holds_iff, ofPattern_holds (Condition.not_holds_empty p)]
  simp [Pattern.matchesBoard, Pattern.isEmpty, Condition.holds, occupiedOf_ok h]

/-- The plan of a request for a pattern holds of the positions that the request asks for. -/
theorem SearchRequest.plan_pattern {r : SearchRequest} (hmode : r.mode = .pattern) {pattern : Pattern}
    (hp : Pattern.compile r.pattern = .ok pattern) (keys : FingerprintKeys) :
    ∃ plan, r.plan keys = .ok (some plan) ∧
      ∀ {p : StoredPosition} {occupied : Occupied}, decode p.board = .ok occupied →
        plan.holds p = p.satisfies pattern r.side := by
  cases hside : r.side with
  | none =>
    refine ⟨.ofPattern pattern, by simp [SearchRequest.plan, hmode, hp, hside, Except.mapError, Except.map], ?_⟩
    intro p occupied hocc
    rw [Plan.ofPattern_satisfies hocc, p.satisfies_of_ok hocc]
    simp
  | some c =>
    refine ⟨(Plan.ofPattern pattern).withSide c,
      by simp [SearchRequest.plan, hmode, hp, hside, Except.mapError, Except.map], ?_⟩
    intro p occupied hocc
    rw [p.satisfies_of_ok hocc, ← Plan.ofPattern_satisfies hocc, Bool.eq_iff_iff, Plan.holds_iff,
      Plan.withSide_holds (Condition.not_holds_empty p), ← Plan.holds_iff]
    simp [Condition.holds]

namespace Store
variable {tables : FingerprintKeys → Prop} {s : Store}

/-! ### Pages -/

/-- The pages of a request together are all that its plan finds. -/
theorem Sound.pages_ok (h : s.Sound tables) {keys : FingerprintKeys} {r : SearchRequest} {plan : Option Plan}
    (hplan : r.plan keys = .ok plan) {n : Nat} {pages : Nat → SearchResults}
    (hpages : ∀ k < n, s.search keys { r with page := k + 1 } = .ok (pages k)) (hn : 0 < n)
    (hall : (pages 0).pagination.totalPages ≤ n) :
    ((List.range n).flatMap fun k => (pages k).games) = s.allMatches r.filter plan ∧
      ∀ k < n, (pages k).pagination.totalGames = (s.allMatches r.filter plan).length := by
  have hpage : ∀ k < n, pages k = .ofPage (s.allMatches r.filter plan) (k + 1) r.effectiveSize := by
    intro k hk
    obtain ⟨-, -, plan', hplan', -, hresults⟩ := (search_ok_iff h.owners h.gameIds).mp (hpages k hk)
    obtain rfl : plan = plan' := Except.ok.inj (hplan.symm.trans hplan')
    exact hresults
  have hsize : 0 < r.effectiveSize := by
    obtain ⟨-, hpos, -⟩ := (search_ok_iff h.owners h.gameIds).mp (hpages 0 hn)
    exact Nat.lt_min.mpr ⟨hpos, by decide⟩
  refine ⟨?_, fun k hk => by rw [hpage k hk]; rfl⟩
  have hgames : ((List.range n).flatMap fun k => (pages k).games) =
      (List.range n).flatMap fun k => ((s.allMatches r.filter plan).drop (k * r.effectiveSize)).take r.effectiveSize := by
    refine List.flatMap_congr fun k hk => ?_
    rw [hpage k (List.mem_range.mp hk)]
    rfl
  have henough : (s.allMatches r.filter plan).length ≤ n * r.effectiveSize := by
    rw [hpage 0 hn] at hall
    have hceil : ((s.allMatches r.filter plan).length + r.effectiveSize - 1) / r.effectiveSize ≤ n := hall
    rw [Nat.div_le_iff_le_mul_add_pred hsize, Nat.mul_comm] at hceil
    omega
  rw [hgames, flatMap_pages, List.take_of_length_le henough]

/-! ### Answers -/

/-- A list of matches is the answer for the positions of a kind: the games that pass the filter and have such a
    position, newest first, with all such positions in the order of play. -/
structure Answers (s : Store) (filter : GameFilter) (keep : StoredPosition → Bool) (found : List GameMatch) :
    Prop where
  games : ∀ g, (∃ m ∈ found, m.game = g) ↔
    g ∈ s.games ∧ filter.passes g.metadata = true ∧ ∃ p ∈ s.positions, p.game = g.id ∧ keep p = true
  newest : found.Pairwise fun m k => k.game.id < m.game.id
  positions : ∀ m ∈ found, ∀ q, q ∈ m.positions ↔
    ∃ p ∈ s.positions, p.game = m.game.id ∧ keep p = true ∧ q = ⟨p.number, p.san⟩
  ascending : ∀ m ∈ found, m.positions.Pairwise fun q r => q.number < r.number

theorem Sound.answers (h : s.Sound tables) (filter : GameFilter) {plan : Plan} {keep : StoredPosition → Bool}
    (hkeep : ∀ p ∈ s.positions, plan.holds p = keep p) : s.Answers filter keep (s.allMatches filter (some plan)) := by
  have hof : ∀ {game : Id} {p : StoredPosition}, (p ∈ s.positionsOf game ∧ plan.holds p = true) ↔
      p ∈ s.positions ∧ p.game = game ∧ keep p = true := by
    intro game p
    rw [mem_positionsOf, and_assoc]
    exact and_congr_right fun hp => by rw [hkeep p hp]
  have hmem : ∀ g, (g ∈ s.newestFirst fun g => (s.positionsOf g.id).any plan.holds && filter.passes g.metadata) ↔
      g ∈ s.games ∧ filter.passes g.metadata = true ∧ ∃ p ∈ s.positions, p.game = g.id ∧ keep p = true := by
    intro g
    rw [(s.newestFirst_perm _).mem_iff, List.mem_filter, Bool.and_eq_true, List.any_eq_true]
    simp only [hof]
    tauto
  rw [h.allMatches]
  constructor
  case games =>
    intro g
    rw [← hmem]
    simp
  case newest => exact List.pairwise_map.mpr (newestFirst_pairwise h.gameIds _)
  case positions =>
    intro m hm q
    obtain ⟨g, hg, rfl⟩ := List.mem_map.mp hm
    simp only [List.mem_map, List.mem_filter, hof, and_assoc, eq_comm (a := q)]
  case ascending =>
    intro m hm
    obtain ⟨g, hg, rfl⟩ := List.mem_map.mp hm
    exact List.pairwise_map.mpr ((h.ascending ((hmem g).mp hg).1).filter _)

/-- In every store that operations lead to, searching for a pattern finds what looking at every board would find. The
    pages put together are the answer for the positions that the pattern asks for, every page tells the number of
    games on all of them, and a pattern without constraints finds nothing. -/
theorem pattern_search_answers (h : Reached tables s) {keys : FingerprintKeys} {r : SearchRequest}
    (hmode : r.mode = .pattern) {pattern : Pattern} (hp : Pattern.compile r.pattern = .ok pattern) {n : Nat}
    {pages : Nat → SearchResults} (hpages : ∀ k < n, s.search keys { r with page := k + 1 } = .ok (pages k))
    (hn : 0 < n) (hall : (pages 0).pagination.totalPages ≤ n) :
    s.Answers r.filter (·.satisfies pattern r.side) ((List.range n).flatMap fun k => (pages k).games) ∧
      (∀ k < n, (pages k).pagination.totalGames = ((List.range n).flatMap fun k => (pages k).games).length) ∧
      (pattern.constraints = [] → ((List.range n).flatMap fun k => (pages k).games) = []) := by
  have hs := h.sound
  obtain ⟨plan, hplan, hholds⟩ := SearchRequest.plan_pattern hmode hp keys
  obtain ⟨hfound, htotal⟩ := hs.pages_ok hplan hpages hn hall
  have hanswers : s.Answers r.filter (·.satisfies pattern r.side) (s.allMatches r.filter (some plan)) := by
    refine hs.answers r.filter fun p hp => ?_
    obtain ⟨occupied, hocc⟩ := hs.board hp
    exact hholds hocc
  rw [hfound]
  refine ⟨hanswers, htotal, fun hnone => List.eq_nil_iff_forall_not_mem.mpr fun m hm => ?_⟩
  obtain ⟨-, -, p, hp, -, hsat⟩ := (hanswers.games m.game).mp ⟨m, hm, rfl⟩
  obtain ⟨occupied, hocc⟩ := hs.board hp
  rw [p.satisfies_of_ok hocc] at hsat
  simp [Pattern.matchesBoard, Pattern.isEmpty, hnone] at hsat

theorem pattern_search_answers_one_game : ∃ g pattern results,
    DecodedGame.ofRaw ⟨.replicate keyCount 0⟩ ⟨⟨[]⟩, ["e4"], none⟩ = .ok g ∧
      Pattern.compile "8/8/8/8/4[P|N]3" = .ok pattern ∧
      (empty.insertAll [g]).2.search ⟨.replicate keyCount 0⟩
        ⟨.pattern, "8/8/8/8/4[P|N]3", some .black, .empty, 1, 10⟩ = .ok results ∧
      results.games.length = 1 ∧
      (empty.insertAll [g]).2.Answers .empty (·.satisfies pattern (some .black)) results.games := by
  obtain ⟨g, hg, hsearch⟩ : ∃ g, DecodedGame.ofRaw ⟨.replicate keyCount 0⟩ ⟨⟨[]⟩, ["e4"], none⟩ = .ok g ∧
      ((empty.insertAll [g]).2.search ⟨.replicate keyCount 0⟩
        ⟨.pattern, "8/8/8/8/4[P|N]3", some .black, .empty, 1, 10⟩).toOption.any (fun results =>
          decide (results.games.length = 1 ∧ results.pagination.totalPages = 1)) = true :=
    exists_ok_of_all (by decide +kernel)
  obtain ⟨results, hresults, hlength, htotal⟩ := exists_ok_of_all hsearch
  obtain ⟨pattern, hpattern, -⟩ : ∃ pattern, Pattern.compile "8/8/8/8/4[P|N]3" = .ok pattern ∧
      pattern.constraints.length = 1 := exists_ok_of_all (by decide +kernel)
  have hreached : Reached (fun _ => True) (empty.insertAll [g]).2 := .step .empty trivial (.of_accepted hg _)
  have hpages : ∀ k < 1, (empty.insertAll [g]).2.search ⟨.replicate keyCount 0⟩
      ⟨.pattern, "8/8/8/8/4[P|N]3", some .black, .empty, k + 1, 10⟩ = .ok ((fun _ => results) k) := by
    intro k hk
    obtain rfl := Nat.lt_one_iff.mp hk
    exact hresults
  obtain ⟨hanswers, -, -⟩ := pattern_search_answers hreached
    (r := ⟨.pattern, "8/8/8/8/4[P|N]3", some .black, .empty, 1, 10⟩) rfl hpattern hpages Nat.one_pos htotal.le
  refine ⟨g, pattern, results, hg, hpattern, hresults, hlength, ?_⟩
  simpa using hanswers

end Store
end ChessArchive
