import ChessArchive.Proofs.Query.Plan
import ChessArchive.Proofs.Search.Pages
import ChessArchive.Proofs.Store.Sound

/-! What a plan selects in a store whose index is in order. A look-up has one way to be met where the board has an
    allowed piece on its square, and none elsewhere, so each position is selected once or not at all, and asking the
    index comes to the same as looking at the boards. -/

namespace ChessArchive
open Placement

/-- A condition holds of a position, by what is on its board. -/
def Condition.holds (p : StoredPosition) : Condition → Bool
  | .lookup s allowed => (pieceOn (occupiedOf p.board) s).any allowed.contains
  | .fingerprint v => p.fingerprint = v
  | .material m => p.material = m
  | .side c => p.side = c

theorem Condition.not_holds_empty (p : StoredPosition) (s : Square) :
    ¬ (Condition.lookup s .empty).holds p = true := by
  cases hp : pieceOn (occupiedOf p.board) s <;> simp [holds, hp]

/-- A plan holds of a position, by what is on its board. -/
def Plan.holds (plan : Plan) (p : StoredPosition) : Bool := !plan.isNothing && plan.conditions.all (·.holds p)

theorem Plan.holds_iff {plan : Plan} {p : StoredPosition} :
    plan.holds p = true ↔ plan.Holds (·.holds p = true) := by
  simp [holds, Holds, isNothing]

namespace Store
variable {tables : FingerprintKeys → Prop} {s : Store} {p : StoredPosition}

/-! ### One position -/

theorem Indexed.lookup_ways (h : s.Indexed p) (q : Square) (allowed : PieceSet) :
    (Condition.lookup q allowed).ways s.rows p = if (Condition.lookup q allowed).holds p then 1 else 0 := by
  obtain ⟨occupied, hocc, -, hrows⟩ := h
  have hn := decode_nodup hocc
  have hcount : (Condition.lookup q allowed).ways s.rows p =
      occupied.countP fun e => e.1 = q && allowed.contains e.2 := by
    have hfilter : s.rows.countP (fun r => r.square = q && r.position = p.id && allowed.contains r.piece) =
        (s.rowsAt p.id).countP fun r => r.square = q && allowed.contains r.piece := by
      rw [rowsAt, List.countP_filter]
      apply List.countP_congr
      intro r _
      simp only [Bool.and_eq_true]
      tauto
    rw [Condition.ways, hfilter, hrows, rowsFor, List.countP_map]
    rfl
  rw [hcount, Condition.holds, occupiedOf_ok hocc, countP_square hn]

theorem Indexed.condition_ways (h : s.Indexed p) (c : Condition) : c.ways s.rows p = if c.holds p then 1 else 0 := by
  cases c with
  | lookup q allowed => exact h.lookup_ways q allowed
  | fingerprint v => simp [Condition.ways, Condition.holds]
  | material m => simp [Condition.ways, Condition.holds]
  | side c => simp [Condition.ways, Condition.holds]

/-- A position is selected once where the plan holds of it, and else not at all. -/
theorem Indexed.plan_ways (h : s.Indexed p) (plan : Plan) : plan.ways s.rows p = if plan.holds p then 1 else 0 := by
  have hprod : ∀ (cs : List Condition) (n : Nat), (cs.map (Condition.ways s.rows p)).foldl (· * ·) n =
      if cs.all (·.holds p) then n else 0 := by
    intro cs
    induction cs with
    | nil => simp
    | cons c cs ih =>
      intro n
      rw [List.map_cons, List.foldl_cons, ih, h.condition_ways, List.all_cons]
      cases c.holds p <;> simp
  rw [Plan.ways, Plan.holds, hprod]
  cases plan.isNothing <;> simp

/-! ### All positions -/

theorem Sound.selected (h : s.Sound tables) (plan : Plan) :
    s.selected plan = (s.positions.filter plan.holds).mergeSort fun p q => p.number ≤ q.number := by
  rw [Store.selected, flatMap_replicate fun p hp => (h.indexed p hp).plan_ways plan]

/-- The positions that are selected in a game are those that the plan holds of, in the order of play. -/
theorem Sound.selected_game (h : s.Sound tables) (plan : Plan) (game : Id) :
    (s.selected plan).filter (·.game = game) = (s.positionsOf game).filter plan.holds := by
  have hboth : (s.positions.filter plan.holds).filter (·.game = game) =
      (s.positions.filter (·.game = game)).filter plan.holds := by
    rw [List.filter_filter, List.filter_filter]
    exact List.filter_congr fun p _ => Bool.and_comm _ _
  rw [h.selected plan, positionsOf, filter_byNumber, filter_byNumber, hboth]

/-! ### Games -/

/-- What a search finds, said without the index. -/
theorem Sound.allMatches (h : s.Sound tables) (filter : GameFilter) (plan : Plan) :
    s.allMatches filter (some plan) =
      (s.newestFirst fun g => (s.positionsOf g.id).any plan.holds && filter.passes g.metadata).map fun g =>
        ⟨g, ((s.positionsOf g.id).filter plan.holds).map fun p => ⟨p.number, p.san⟩⟩ := by
  have hany : ∀ g : StoredGame, (s.selected plan).any (·.game = g.id) = (s.positionsOf g.id).any plan.holds := by
    intro g
    rw [Bool.eq_iff_iff, List.any_eq_true, List.any_eq_true]
    constructor
    · rintro ⟨p, hp, hgame⟩
      have hmem : p ∈ (s.selected plan).filter (·.game = g.id) := List.mem_filter.mpr ⟨hp, hgame⟩
      rw [h.selected_game] at hmem
      exact ⟨p, List.mem_filter.mp hmem⟩
    · rintro ⟨p, hp, hholds⟩
      have hmem : p ∈ (s.positionsOf g.id).filter plan.holds := List.mem_filter.mpr ⟨hp, hholds⟩
      rw [← h.selected_game] at hmem
      exact ⟨p, List.mem_filter.mp hmem⟩
  have hfinds : s.finds filter (some plan) = fun g =>
      (s.positionsOf g.id).any plan.holds && filter.passes g.metadata := by
    funext g
    rw [finds, Option.all_some, hany]
  have hmatch : s.matchOf (some plan) = fun g =>
      ⟨g, ((s.positionsOf g.id).filter plan.holds).map fun p => ⟨p.number, p.san⟩⟩ := by
    funext g
    rw [matchOf, Option.map_some, Option.getD_some, h.selected_game]
  rw [Store.allMatches, hfinds, hmatch]

/-- The positions of a game come by strictly ascending number. -/
theorem Recorded.ascending (h : s.Recorded tables) {g : StoredGame} (hg : g ∈ s.games) :
    (s.positionsOf g.id).Pairwise fun p q => p.number < q.number := by
  obtain ⟨n, hn⟩ := h.numbers g hg
  exact List.pairwise_map.mp (hn ▸ List.pairwise_lt_range)

end Store
end ChessArchive
