import Mathlib.Data.Finset.Card
import ChessArchive.Proofs.Store.Rebuild

/-! Repairing the index, whatever it holds. The games to be indexed anew are found by their positions, and each of them
    is indexed as a whole or keeps the rows that it has. -/

namespace ChessArchive
namespace Store
open Placement

/-- The game has a position without any row. -/
def Unindexed (s : Store) (game : Id) : Prop := ∃ p ∈ s.positions, p.game = game ∧ s.rowsAt p.id = []

instance (s : Store) (game : Id) : Decidable (s.Unindexed game) :=
  inferInstanceAs (Decidable (∃ p ∈ s.positions, p.game = game ∧ s.rowsAt p.id = []))

/-- The game has a position without any row, and all its boards can be read. -/
def Repairable (s : Store) (game : Id) : Prop := s.Unindexed game ∧ s.ReadableGame game

instance (s : Store) (game : Id) : Decidable (s.Repairable game) := inferInstanceAs (Decidable (_ ∧ _))

/-- What repairing the index makes of a store, and what it reports. -/
structure Repaired (s t : Store) (r : MaintenanceReport) : Prop where
  games : t.games = s.games
  positions : t.positions = s.positions
  keys : t.keys = s.keys
  restored : ∀ p ∈ s.positions, s.Repairable p.game → t.Indexed p
  other : ∀ id, (∀ p ∈ s.positions, p.id = id → ¬ s.Repairable p.game) → t.rowsAt id = s.rowsAt id
  failures : ∀ id, (r.failures.map (·.game)).count id = if s.Unindexed id ∧ ¬ s.ReadableGame id then 1 else 0
  gameCount : r.games = ((s.positions.map fun p => p.game).toFinset.filter s.Repairable).card
  positionCount : r.positions = s.positions.countP (s.Repairable ·.game)
  rowCount : r.rows = ((s.positions.filter (s.Repairable ·.game)).map fun p => (t.rowsAt p.id).length).sum

section
variable {s t : Store}

theorem rowsAt_eq_nil {id : Id} : s.rowsAt id = [] ↔ (s.rows.any fun r => r.position = id) = false := by
  rw [rowsAt, List.filter_eq_nil_iff, List.any_eq_false]

theorem mem_gamesMissingRows {id : Id} : id ∈ s.gamesMissingRows s.rows ↔ s.Unindexed id := by
  simp only [gamesMissingRows, mem_ascending, List.mem_map, List.mem_filter, Unindexed, rowsAt_eq_nil,
    Bool.not_eq_true', and_assoc, and_comm (a := _ = id)]

theorem gamesMissingRows_nodup (s : Store) : (s.gamesMissingRows s.rows).Nodup := nodup_ascending _

theorem fixMissingIndex_eq (hd : s.damage = .none) :
    s.fixMissingIndex = .ok (s.reindexGames (s.gamesMissingRows s.rows)) := by
  rw [fixMissingIndex, index_undamaged hd]
  rfl

theorem repairable_iff {id : Id} :
    (id ∈ s.gamesMissingRows s.rows ∧ s.ReadableGame id) ↔ s.Repairable id := by
  rw [mem_gamesMissingRows]
  rfl

theorem Reindexed.repaired {r : MaintenanceReport}
    (h : Reindexed s t fun id => id ∈ s.gamesMissingRows s.rows ∧ Readable (s.positionsOf id))
    (hr : Reports s (s.gamesMissingRows s.rows) r) : Repaired s t r := by
  have hids := s.gamesMissingRows_nodup
  have hpositions := hr.positions_eq hids
  have hcount := hr.rows_eq hids
  simp only [repairable_iff] at hpositions hcount
  replace h := h.congr (e := s.Repairable) fun id =>
    repairable_iff.symm.trans (and_congr_right' readable_positionsOf_iff.symm)
  refine ⟨h.games, h.positions, h.keys, fun p hmem hdoes => h.indexed hmem hdoes hdoes.2, h.other, fun id => ?_, ?_,
    hpositions, ?_⟩
  · rw [hr.count_failures hids]
    exact if_congr (and_congr_left' mem_gamesMissingRows) rfl rfl
  · have hnodup : (s.readableAmong (s.gamesMissingRows s.rows)).Nodup := hids.filter _
    rw [hr.games, ← List.toFinset_card_of_nodup hnodup]
    refine congrArg Finset.card (Finset.ext fun id => ?_)
    rw [List.mem_toFinset, mem_readableAmong, repairable_iff, Finset.mem_filter, List.mem_toFinset, List.mem_map]
    exact ⟨fun hdoes => ⟨hdoes.1.imp fun p hp => ⟨hp.1, hp.2.1⟩, hdoes⟩, fun hdoes => hdoes.2⟩
  · rw [hcount]
    refine congrArg List.sum (List.map_congr_left fun p hmem => ?_)
    obtain ⟨hmem, hdoes⟩ := List.mem_filter.mp hmem
    rw [h.touched p hmem (by simpa using hdoes), rowsFor, List.length_map]

/-- Where every board has a piece on it, no position is left without a row. -/
theorem Repaired.complete {r : MaintenanceReport} (h : Repaired s t r) (hp : (s.positions.map (·.id)).Nodup)
    (hboards : ∀ p ∈ s.positions, ∃ e occupied, decode p.board = .ok (e :: occupied)) :
    ∀ p ∈ s.positions, t.rowsAt p.id ≠ [] := by
  intro p hmem
  by_cases hgame : s.Unindexed p.game
  · have hread : s.ReadableGame p.game := fun q hq _ =>
      let ⟨e, occupied, hocc⟩ := hboards q hq
      ⟨e :: occupied, hocc⟩
    obtain ⟨occupied, hocc, -, hrows⟩ := h.restored p hmem ⟨hgame, hread⟩
    obtain ⟨e, others, hboard⟩ := hboards p hmem
    obtain rfl := Except.ok.inj (hocc.symm.trans hboard)
    rw [hrows, rowsFor, List.map_cons]
    exact List.cons_ne_nil _ _
  · rw [h.other p.id fun q hq hid => ?_]
    · exact fun hnone => hgame ⟨p, hmem, rfl, hnone⟩
    · rw [List.inj_on_of_nodup_map hp hq hmem hid]
      exact fun hdoes => hgame hdoes.1

theorem fixMissingIndex_nothing (hd : s.damage = .none) (hrows : ∀ p ∈ s.positions, s.rowsAt p.id ≠ []) :
    s.fixMissingIndex = .ok (.empty, s) := by
  have hnone : s.gamesMissingRows s.rows = [] := by
    rw [List.eq_nil_iff_forall_not_mem]
    intro id hid
    obtain ⟨p, hp, -, hnil⟩ := mem_gamesMissingRows.mp hid
    exact hrows p hp hnil
  rw [fixMissingIndex_eq hd, hnone]
  rfl

end

/-- Whatever the index holds, repairing it gives each position of a game that has a position without rows exactly the
    rows that its board asks for, if all boards of the game can be read; otherwise the game is reported as a failure.
    All other rows stay. If every board has a piece on it, no position is left without rows, and there is nothing more
    to repair. -/
theorem fixMissingIndex_repairs {s : Store} (hd : s.damage = .none) (hp : (s.positions.map (·.id)).Nodup) :
    ∃ r t, s.fixMissingIndex = .ok (r, t) ∧ Writing.fixMissingIndex ⟨s, []⟩ = .ok r ⟨t, []⟩ ∧ Repaired s t r ∧
      ((∀ p ∈ s.positions, ∃ e occupied, decode p.board = .ok (e :: occupied)) →
        (∀ p ∈ t.positions, t.rowsAt p.id ≠ []) ∧ t.fixMissingIndex = .ok (.empty, t)) := by
  have hre := reindexGames_reindexed hd hp (s.gamesMissingRows s.rows)
  have hrepaired := hre.repaired (reindexGames_reports hd (s.gamesMissingRows s.rows))
  refine ⟨_, _, fixMissingIndex_eq hd, Writing.fixMissingIndex_follows.done (fixMissingIndex_eq hd) [], hrepaired,
    fun hboards => ?_⟩
  have hrows := hrepaired.complete hp hboards
  rw [← hrepaired.positions] at hrows
  exact ⟨hrows, fixMissingIndex_nothing (hre.damage.trans hd) hrows⟩

/-- Of two games with a position without rows, the first has a board that cannot be read. -/
theorem fixMissingIndex_repairs_second_game :
    ∃ r t, fixMissingIndex
        { games := [⟨1, .ofTags ⟨[]⟩, "", none⟩, ⟨2, .ofTags ⟨[]⟩, "", none⟩]
          positions := [⟨1, 1, 0, none, "8/8/8/8/8/8/8/K6k", .white, .none, 0, ""⟩,
            ⟨2, 1, 1, none, "8/8", .black, .none, 0, ""⟩, ⟨3, 2, 0, none, "8/8/8/8/8/8/8/K6k", .white, .none, 0, ""⟩]
          rows := [⟨1, 9, ⟨.white, .king⟩⟩, ⟨7, 0, ⟨.white, .king⟩⟩]
          keys := []
          damage := .none } = .ok (r, t) ∧
      r.games = 1 ∧ r.positions = 1 ∧ (r.failures.map (·.game)).count 1 = 1 ∧
      t.rowsAt 1 = [⟨1, 9, ⟨.white, .king⟩⟩] ∧ t.rowsAt 7 = [⟨7, 0, ⟨.white, .king⟩⟩] := by
  obtain ⟨r, t, hr, -, hrepaired, -⟩ := fixMissingIndex_repairs
    (s := { games := [⟨1, .ofTags ⟨[]⟩, "", none⟩, ⟨2, .ofTags ⟨[]⟩, "", none⟩]
            positions := [⟨1, 1, 0, none, "8/8/8/8/8/8/8/K6k", .white, .none, 0, ""⟩,
              ⟨2, 1, 1, none, "8/8", .black, .none, 0, ""⟩, ⟨3, 2, 0, none, "8/8/8/8/8/8/8/K6k", .white, .none, 0, ""⟩]
            rows := [⟨1, 9, ⟨.white, .king⟩⟩, ⟨7, 0, ⟨.white, .king⟩⟩]
            keys := []
            damage := .none }) rfl (by decide)
  refine ⟨r, t, hr, hrepaired.gameCount.trans ?_, hrepaired.positionCount.trans ?_, (hrepaired.failures 1).trans ?_,
    (hrepaired.other 1 ?_).trans ?_, (hrepaired.other 7 ?_).trans ?_⟩
  all_goals decide +kernel

end Store
end ChessArchive
