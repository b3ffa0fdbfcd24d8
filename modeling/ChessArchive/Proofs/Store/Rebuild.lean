import Mathlib.Algebra.BigOperators.Group.List.Basic
import ChessArchive.Proofs.Store.Sound
import ChessArchive.Proofs.Store.Transaction

/-! Rebuilding the index, whatever it held before. Whether a game can be indexed depends on its boards alone, and so
    does the report. -/

namespace ChessArchive
namespace Store
open Placement

/-- Every board of a game can be read. -/
def ReadableGame (s : Store) (game : Id) : Prop :=
  ∀ p ∈ s.positions, p.game = game → ∃ occupied, decode p.board = .ok occupied

instance (s : Store) (game : Id) : Decidable (s.ReadableGame game) :=
  decidable_of_iff (∀ p ∈ s.positions, p.game = game → (decode p.board).toOption.isSome = true) <| by
    refine forall₃_congr fun p _ _ => ?_
    cases decode p.board <;> simp [Except.toOption]

theorem readable_positionsOf_iff {s : Store} {game : Id} : Readable (s.positionsOf game) ↔ s.ReadableGame game := by
  simp only [Readable, ReadableGame, mem_positionsOf, and_imp]

/-! ### Reports -/

/-- The games among the given ones whose boards can all be read. -/
def readableAmong (s : Store) (ids : List Id) : List Id := ids.filter (s.ReadableGame ·)

/-- A report on games that were to be indexed anew: those that can be read are counted with their positions and the
    rows that their boards ask for, and the others are the failures. -/
structure Reports (s : Store) (ids : List Id) (r : MaintenanceReport) : Prop where
  games : r.games = (s.readableAmong ids).length
  positions : r.positions = ((s.readableAmong ids).flatMap s.positionsOf).length
  rows : r.rows = (((s.readableAmong ids).flatMap s.positionsOf).map fun p => (occupiedOf p.board).length).sum
  failures : r.failures.map (·.game) = ids.filter (¬ s.ReadableGame ·)

section
variable {s t : Store} {ids : List Id}

theorem mem_readableAmong {id : Id} : id ∈ s.readableAmong ids ↔ id ∈ ids ∧ s.ReadableGame id := by
  simp [readableAmong]

theorem Reports.congr {r : MaintenanceReport} (h : Reports t ids r) (hp : t.positions = s.positions) :
    Reports s ids r := by
  have hread : t.ReadableGame = s.ReadableGame := by unfold ReadableGame; rw [hp]
  have hamong : t.readableAmong ids = s.readableAmong ids := by simp only [readableAmong, hread]
  have hof : t.positionsOf = s.positionsOf := funext (positionsOf_congr hp)
  obtain ⟨hgames, hpositions, hrows, hfailures⟩ := h
  rw [hamong] at hgames hpositions hrows
  rw [hof] at hpositions hrows
  simp only [hread] at hfailures
  exact ⟨hgames, hpositions, hrows, hfailures⟩

/-- Each game is counted or failed. -/
theorem Reports.total {r : MaintenanceReport} (h : Reports s ids r) : r.games + r.failures.length = ids.length := by
  have hall := (List.filter_append_perm (fun id => decide (s.ReadableGame id)) ids).length_eq
  rw [List.length_append] at hall
  have hfailures := congrArg List.length h.failures
  rw [List.length_map] at hfailures
  rw [h.games, hfailures, ← hall, readableAmong]
  simp only [decide_not]

theorem reindexGames_reports (hd : s.damage = .none) (ids : List Id) : Reports s ids (s.reindexGames ids).1 := by
  induction ids generalizing s with
  | nil => exact ⟨rfl, rfl, rfl, rfl⟩
  | cons game rest ih =>
    have hps : ∀ p ∈ s.positionsOf game, p ∈ s.positions := fun p hp => (mem_positionsOf.mp hp).1
    by_cases hr : s.ReadableGame game
    · obtain ⟨-, hpositions, -, hdamage⟩ := withRows_frame (s.positionsOf game) s
      have hrest := (ih (hdamage.trans hd)).congr hpositions
      have hmore : s.readableAmong (game :: rest) = game :: s.readableAmong rest := by simp [readableAmong, hr]
      simp only [reindexGames, reindexAll_ok hd hps (readable_positionsOf_iff.mpr hr)]
      constructor
      · rw [hmore, hrest.games, List.length_cons]
      · rw [hmore, List.flatMap_cons, List.length_append, ← hrest.positions]
        exact Nat.add_comm _ _
      · rw [hmore, List.flatMap_cons, List.map_append, List.sum_append, ← hrest.rows]
        exact Nat.add_comm _ _
      · rw [hrest.failures, List.filter_cons_of_neg (by simpa using hr)]
    · obtain ⟨cause, hfail⟩ := reindexAll_error hd hps (readable_positionsOf_iff.not.mpr hr)
      have hrest := ih hd
      have hsame : s.readableAmong (game :: rest) = s.readableAmong rest := by simp [readableAmong, hr]
      simp only [reindexGames, hfail]
      constructor
      · rw [hsame, hrest.games]
      · rw [hsame, hrest.positions]
      · rw [hsame, hrest.rows]
      · rw [List.map_cons, hrest.failures, List.filter_cons_of_pos (by simpa using hr)]

/-! ### Positions and rows by groups -/

theorem flatMap_positionsOf_perm (s : Store) (hn : ids.Nodup) :
    (ids.flatMap s.positionsOf).Perm (s.positions.filter (·.game ∈ ids)) := by
  refine List.Perm.trans ?_ (flatMap_filter_perm (·.game) s.positions hn)
  exact List.Perm.flatMap_left _ fun id _ => List.mergeSort_perm _ _

theorem ascending_perm (hn : ids.Nodup) : (ascending ids).Perm ids :=
  (List.perm_ext_iff_of_nodup (nodup_ascending ids) hn).mpr fun _ => mem_ascending

/-! ### Counting what was indexed anew -/

/-- The positions that are indexed anew are those of the games among the given ones that can be read. -/
theorem readable_positions_perm (hn : ids.Nodup) : ((s.readableAmong ids).flatMap s.positionsOf).Perm
    (s.positions.filter fun p => p.game ∈ ids ∧ s.ReadableGame p.game) := by
  refine (flatMap_positionsOf_perm s (hn.filter _)).trans (.of_eq ?_)
  exact List.filter_congr fun p _ => decide_eq_decide.mpr mem_readableAmong

namespace Reports
variable {r : MaintenanceReport}

theorem count_failures (hr : Reports s ids r) (hn : ids.Nodup) (id : Id) :
    (r.failures.map (·.game)).count id = if id ∈ ids ∧ ¬ s.ReadableGame id then 1 else 0 := by
  rw [hr.failures, (hn.filter _).count]
  refine if_congr ?_ rfl rfl
  rw [List.mem_filter, decide_eq_true_eq]

theorem positions_eq (hr : Reports s ids r) (hn : ids.Nodup) :
    r.positions = s.positions.countP fun p => p.game ∈ ids ∧ s.ReadableGame p.game := by
  rw [hr.positions, (readable_positions_perm hn).length_eq, List.countP_eq_length_filter]

theorem rows_eq (hr : Reports s ids r) (hn : ids.Nodup) :
    r.rows = ((s.positions.filter fun p => p.game ∈ ids ∧ s.ReadableGame p.game).map fun p =>
      (occupiedOf p.board).length).sum := by
  rw [hr.rows, ((readable_positions_perm hn).map _).sum_eq]

end Reports

/-- What a game gets whose boards can all be read is what they ask for. -/
theorem Reindexed.indexed {done : Id → Prop} (h : Reindexed s t done) {p : StoredPosition} (hp : p ∈ s.positions)
    (hdone : done p.game) (hread : s.ReadableGame p.game) : t.Indexed p := by
  obtain ⟨occupied, hocc⟩ := hread p hp rfl
  refine indexed_of_rowsAt hocc ?_
  rw [h.touched p hp hdone, occupiedOf_ok hocc]

/-! ### The rebuilt index -/

/-- A game of the store has this number, and all boards of its positions can be read. -/
def Indexable (s : Store) (game : Id) : Prop := (∃ g ∈ s.games, g.id = game) ∧ s.ReadableGame game

instance (s : Store) (game : Id) : Decidable (s.Indexable game) := inferInstanceAs (Decidable (_ ∧ _))

theorem indexable_iff {id : Id} : (id ∈ ascending (s.games.map (·.id)) ∧ s.ReadableGame id) ↔ s.Indexable id := by
  rw [mem_ascending, List.mem_map]
  rfl

/-- What rebuilding the index makes of a store, and what it reports. -/
structure Rebuilt (s t : Store) (r : MaintenanceReport) : Prop where
  games : t.games = s.games
  positions : t.positions = s.positions
  keys : t.keys = s.keys
  restored : ∀ p ∈ s.positions, s.Indexable p.game → t.Indexed p
  emptied : ∀ p ∈ s.positions, ¬ s.Indexable p.game → t.rowsAt p.id = []
  rows : ∀ row ∈ t.rows, ∃ p ∈ s.positions, p.id = row.position ∧ s.Indexable p.game
  failures : ∀ id, (r.failures.map (·.game)).count id =
    if (∃ g ∈ s.games, g.id = id) ∧ ¬ s.ReadableGame id then 1 else 0
  gameCount : r.games + r.failures.length = s.games.length
  positionCount : r.positions = s.positions.countP (s.Indexable ·.game)
  rowCount : r.rows = t.rows.length

theorem Reindexed.rebuilt {r : MaintenanceReport} (hg : (s.games.map (·.id)).Nodup)
    (hp : (s.positions.map (·.id)).Nodup)
    (h : Reindexed { s with rows := [] } t fun id => id ∈ ascending (s.games.map (·.id)) ∧ Readable (s.positionsOf id))
    (hr : Reports s (ascending (s.games.map (·.id))) r) : Rebuilt s t r := by
  have hids := nodup_ascending (s.games.map (·.id))
  have hpositions := hr.positions_eq hids
  have hcount := hr.rows_eq hids
  simp only [indexable_iff] at hpositions hcount
  replace h := h.congr (e := s.Indexable) fun id =>
    indexable_iff.symm.trans (and_congr_right' readable_positionsOf_iff.symm)
  have hother : ∀ id, (∀ p ∈ s.positions, p.id = id → ¬ s.Indexable p.game) → t.rowsAt id = [] := by
    intro id hid
    exact h.other id hid
  have hrows : ∀ row ∈ t.rows, ∃ p ∈ s.positions, p.id = row.position ∧ s.Indexable p.game := by
    intro row hrow
    by_contra hnone
    simp only [not_exists, not_and] at hnone
    have hat : row ∈ t.rowsAt row.position := List.mem_filter.mpr ⟨hrow, by simp⟩
    rw [hother row.position hnone] at hat
    cases hat
  refine ⟨h.games, h.positions, h.keys, fun p hmem hdoes => h.indexed hmem hdoes hdoes.2, fun p hmem hfails => ?_, hrows,
    fun id => ?_, ?_, hpositions, ?_⟩
  · refine hother p.id fun q hq hid => ?_
    rwa [List.inj_on_of_nodup_map hp hq hmem hid]
  · rw [hr.count_failures hids]
    exact if_congr (and_congr_left' (mem_ascending.trans List.mem_map)) rfl rfl
  · rw [hr.total, (ascending_perm hg).length_eq, List.length_map]
  · have hsublist : ((s.positions.filter (s.Indexable ·.game)).map (·.id)).Nodup :=
      hp.sublist (List.filter_sublist.map _)
    rw [hcount, rows_length hsublist fun row hrow => ?_]
    · refine congrArg List.sum (List.map_congr_left fun p hmem => ?_)
      obtain ⟨hmem, hdoes⟩ := List.mem_filter.mp hmem
      rw [h.touched p hmem (by simpa using hdoes), rowsFor, List.length_map]
    · obtain ⟨p, hmem, hid, hdoes⟩ := hrows row hrow
      exact ⟨p, List.mem_filter.mpr ⟨hmem, by simpa using hdoes⟩, hid⟩

theorem rebuildIndex_eq (hd : s.damage = .none) :
    s.rebuildIndex = .ok (({ s with rows := [] } : Store).reindexGames (ascending (s.games.map (·.id)))) := by
  rw [rebuildIndex, index_undamaged hd]
  rfl

end

/-- Whatever the index holds, rebuilding it gives each position of a game whose boards can all be read exactly the rows
    that its board asks for, and leaves no other rows; statement by statement it comes to the same. To rebuild it again
    changes nothing. -/
theorem rebuildIndex_restores {s : Store} (hd : s.damage = .none) (hg : (s.games.map (·.id)).Nodup)
    (hp : (s.positions.map (·.id)).Nodup) :
    ∃ r t, s.rebuildIndex = .ok (r, t) ∧ Writing.rebuildIndex ⟨s, []⟩ = .ok r ⟨t, []⟩ ∧ Rebuilt s t r ∧
      t.rebuildIndex = .ok (r, t) := by
  have hre := reindexGames_reindexed (s := { s with rows := [] }) hd hp (ascending (s.games.map (·.id)))
  have hreports := reindexGames_reports (s := { s with rows := [] }) hd (ascending (s.games.map (·.id)))
  refine ⟨_, _, rebuildIndex_eq hd, Writing.rebuildIndex_follows.done (rebuildIndex_eq hd) [],
    hre.rebuilt hg hp (hreports.congr rfl), ?_⟩
  -- The boards and the list of games are the same, and the rows that were there do not matter.
  generalize ht : (({ s with rows := [] } : Store).reindexGames (ascending (s.games.map (·.id)))).2 = t at hre
  have hsame : ({ t with rows := [] } : Store) = { s with rows := [] } := by
    rw [Store.mk.injEq]
    exact ⟨hre.games, hre.positions, rfl, hre.keys, hre.damage⟩
  rw [rebuildIndex_eq (hre.damage.trans hd), hsame, hre.games, ← ht]

/-- Of two games the first has a board that cannot be read, and the index is wrong about both. -/
theorem rebuildIndex_restores_second_game :
    ∃ r t, rebuildIndex
        { games := [⟨1, .ofTags ⟨[]⟩, "", none⟩, ⟨2, .ofTags ⟨[]⟩, "", none⟩]
          positions := [⟨1, 1, 0, none, "8/8/8/8/8/8/8/K6k", .white, .none, 0, ""⟩,
            ⟨2, 1, 1, none, "8/8", .black, .none, 0, ""⟩, ⟨3, 2, 0, none, "8/8/8/8/8/8/8/K6k", .white, .none, 0, ""⟩]
          rows := [⟨1, 0, ⟨.white, .king⟩⟩, ⟨7, 0, ⟨.white, .king⟩⟩]
          keys := []
          damage := .none } = .ok (r, t) ∧
      r.positions = 1 ∧ (r.failures.map (·.game)).count 1 = 1 ∧ t.rowsAt 1 = [] := by
  obtain ⟨r, t, hr, -, hrebuilt, -⟩ := rebuildIndex_restores
    (s := { games := [⟨1, .ofTags ⟨[]⟩, "", none⟩, ⟨2, .ofTags ⟨[]⟩, "", none⟩]
            positions := [⟨1, 1, 0, none, "8/8/8/8/8/8/8/K6k", .white, .none, 0, ""⟩,
              ⟨2, 1, 1, none, "8/8", .black, .none, 0, ""⟩, ⟨3, 2, 0, none, "8/8/8/8/8/8/8/K6k", .white, .none, 0, ""⟩]
            rows := [⟨1, 0, ⟨.white, .king⟩⟩, ⟨7, 0, ⟨.white, .king⟩⟩]
            keys := []
            damage := .none }) rfl (by decide) (by decide)
  refine ⟨r, t, hr, hrebuilt.positionCount.trans ?_, (hrebuilt.failures 1).trans ?_, ?_⟩
  · decide +kernel
  · decide +kernel
  · exact hrebuilt.emptied _ List.mem_cons_self (by decide +kernel)

end Store
end ChessArchive
