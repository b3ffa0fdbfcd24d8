import Mathlib.Algebra.GroupWithZero.Nat
import Mathlib.Data.List.Nodup
import ChessArchive.Proofs.Store.Insert
import ChessArchive.Store.Index

/-! What writing the index anew does, game by game. A game whose boards can all be read gets exactly the rows that
    its boards ask for; nothing else changes. -/

namespace ChessArchive

/-- The occupied squares of a board text, none if it cannot be read. -/
def Placement.occupiedOf (board : String) : Occupied := ((decode board).toOption).getD []

theorem Placement.occupiedOf_ok {board : String} {occupied : Occupied} (h : decode board = .ok occupied) :
    occupiedOf board = occupied := by
  simp [occupiedOf, h, Except.toOption]

namespace Store
open Placement

/-! ### One position -/

/-- The store with the rows of a position replaced by those that its board asks for. -/
def withRows (s : Store) (p : StoredPosition) : Store :=
  { s with rows := rowsFor p.id (occupiedOf p.board) ++ s.rows.filter (·.position ≠ p.id) }

theorem rowsAt_withRows (s : Store) (p : StoredPosition) (id : Id) :
    (s.withRows p).rowsAt id = if p.id = id then rowsFor p.id (occupiedOf p.board) else s.rowsAt id := by
  unfold rowsAt withRows
  rw [List.filter_append, filter_rowsFor, List.filter_filter]
  by_cases h : p.id = id
  · simp [h]
  · have hsame : s.rows.filter (fun r => decide (r.position = id) && decide (r.position ≠ p.id)) =
        s.rows.filter (·.position = id) := by
      apply List.filter_congr
      intro r _
      by_cases hr : r.position = id <;> simp [hr, Ne.symm h]
    rw [if_neg h, if_neg h, List.nil_append, hsame]

theorem index_undamaged {s : Store} (hd : s.damage = .none) : s.index = .ok s.rows := by
  simp [index, hd, Damage.none]

theorem reindexChecked_ok {s : Store} {p : StoredPosition} {occupied : Occupied} (hd : s.damage = .none)
    (hp : p ∈ s.positions) (hocc : decode p.board = .ok occupied) :
    s.reindexChecked p = .ok (occupied.length, s.withRows p) := by
  have hdrop : s.dropRows p.id = .ok { s with rows := s.rows.filter (·.position ≠ p.id) } := by
    rw [dropRows, index_undamaged hd]
    rfl
  have hadd := addRows_undamaged (s := { s with rows := s.rows.filter (·.position ≠ p.id) }) hd
    (List.mem_map_of_mem hp) occupied
  have hre : s.reindexPosition p.id p.board = .ok (occupied.length, s.withRows p) := by
    simp only [reindexPosition, hocc, Except.mapError, hdrop, bind, Except.bind, hadd, withRows, occupiedOf_ok hocc]
    rfl
  have hcount : (s.withRows p).rowCount p.id = .ok occupied.length := by
    have hat := rowsAt_withRows s p p.id
    simp only [rowsAt, if_true, occupiedOf_ok hocc] at hat
    have hindex : (s.withRows p).index = .ok (s.withRows p).rows := index_undamaged hd
    simp [rowCount, hindex, bind, Except.bind, pure, Except.pure, List.countP_eq_length_filter, hat, rowsFor]
  simp [reindexChecked, hre, hcount, bind, Except.bind, pure, Except.pure]

theorem reindexChecked_error {s : Store} {p : StoredPosition} {cause : FenError} (h : decode p.board = .error cause) :
    s.reindexChecked p = .error (.board cause) := by
  simp [reindexChecked, reindexPosition, h, Except.mapError, bind, Except.bind]

/-! ### The positions of a game -/

theorem withRows_frame (ps : List StoredPosition) (s : Store) :
    (ps.foldl withRows s).games = s.games ∧ (ps.foldl withRows s).positions = s.positions ∧
      (ps.foldl withRows s).keys = s.keys ∧ (ps.foldl withRows s).damage = s.damage := by
  induction ps generalizing s with
  | nil => simp
  | cons p ps ih => exact ih (s.withRows p)

theorem rowsAt_foldl_other {ps : List StoredPosition} {id : Id} (h : id ∉ ps.map (·.id)) (s : Store) :
    (ps.foldl withRows s).rowsAt id = s.rowsAt id := by
  induction ps generalizing s with
  | nil => rfl
  | cons p ps ih =>
    simp only [List.map_cons, List.mem_cons, not_or] at h
    rw [List.foldl_cons, ih h.2, rowsAt_withRows, if_neg (Ne.symm h.1)]

theorem rowsAt_foldl_mem {ps : List StoredPosition} (hn : (ps.map (·.id)).Nodup) {p : StoredPosition} (hp : p ∈ ps)
    (s : Store) : (ps.foldl withRows s).rowsAt p.id = rowsFor p.id (occupiedOf p.board) := by
  induction ps generalizing s with
  | nil => cases hp
  | cons q ps ih =>
    rw [List.map_cons, List.nodup_cons] at hn
    rw [List.foldl_cons]
    rcases List.mem_cons.mp hp with rfl | hp
    · rw [rowsAt_foldl_other hn.1, rowsAt_withRows, if_pos rfl]
    · exact ih hn.2 hp _

/-- Every board among the positions can be read. -/
def Readable (ps : List StoredPosition) : Prop := ∀ p ∈ ps, ∃ occupied, decode p.board = .ok occupied

theorem reindexAll_ok {s : Store} {ps : List StoredPosition} (hd : s.damage = .none) (hps : ∀ p ∈ ps, p ∈ s.positions)
    (hr : Readable ps) :
    s.reindexAll ps = .ok ((ps.map fun p => (occupiedOf p.board).length).sum, ps.foldl withRows s) := by
  induction ps generalizing s with
  | nil => rfl
  | cons p ps ih =>
    rw [List.forall_mem_cons] at hps
    obtain ⟨occupied, hocc⟩ := hr p List.mem_cons_self
    have hrest := ih (s := s.withRows p) hd hps.2 fun q hq => hr q (List.mem_cons_of_mem _ hq)
    simp [reindexAll, reindexChecked_ok hd hps.1 hocc, hrest, occupiedOf_ok hocc, bind, Except.bind, pure, Except.pure]

theorem reindexAll_error {s : Store} {ps : List StoredPosition} (hd : s.damage = .none)
    (hps : ∀ p ∈ ps, p ∈ s.positions) (hr : ¬ Readable ps) : ∃ cause, s.reindexAll ps = .error cause := by
  induction ps generalizing s with
  | nil => exact absurd (fun p hp => by cases hp) hr
  | cons p ps ih =>
    rw [List.forall_mem_cons] at hps
    cases hocc : decode p.board with
    | error cause =>
      exact ⟨.board cause, by simp [reindexAll, reindexChecked_error hocc, bind, Except.bind]⟩
    | ok occupied =>
      obtain ⟨cause, hrest⟩ := ih (s := s.withRows p) hd hps.2 fun hrest => hr fun q hq => by
        rcases List.mem_cons.mp hq with rfl | hq
        · exact ⟨occupied, hocc⟩
        · exact hrest q hq
      exact ⟨cause, by simp [reindexAll, reindexChecked_ok hd hps.1 hocc, hrest, bind, Except.bind]⟩

/-! ### Several games -/

theorem mem_positionsOf {s : Store} {game : Id} {p : StoredPosition} :
    p ∈ s.positionsOf game ↔ p ∈ s.positions ∧ p.game = game := by
  simp [positionsOf]

theorem positionsOf_congr {s t : Store} (h : t.positions = s.positions) (game : Id) :
    t.positionsOf game = s.positionsOf game := by
  rw [positionsOf, positionsOf, h]

theorem positionsOf_nodup {s : Store} (h : (s.positions.map (·.id)).Nodup) (game : Id) :
    ((s.positionsOf game).map (·.id)).Nodup := by
  have hperm := ((s.positions.filter (·.game = game)).mergeSort_perm fun p q => p.number ≤ q.number).map (·.id)
  exact hperm.nodup_iff.mpr (h.sublist (List.filter_sublist.map _))

/-- The games that are done have exactly the rows that their boards ask for, and nothing else has changed. -/
structure Reindexed (s t : Store) (done : Id → Prop) : Prop where
  games : t.games = s.games
  positions : t.positions = s.positions
  keys : t.keys = s.keys
  damage : t.damage = s.damage
  touched : ∀ p ∈ s.positions, done p.game → t.rowsAt p.id = rowsFor p.id (occupiedOf p.board)
  other : ∀ id, (∀ p ∈ s.positions, p.id = id → ¬ done p.game) → t.rowsAt id = s.rowsAt id

namespace Reindexed
variable {s t u : Store} {d e : Id → Prop}

theorem refl (h : ∀ id, ¬ d id) : Reindexed s s d :=
  ⟨rfl, rfl, rfl, rfl, fun _ _ hd => absurd hd (h _), fun _ _ => rfl⟩

theorem congr (h : Reindexed s t d) (hde : ∀ id, e id ↔ d id) : Reindexed s t e := by
  obtain rfl : e = d := funext fun id => propext (hde id)
  exact h

theorem trans (h : Reindexed s t d) (hn : (s.positions.map (·.id)).Nodup) (k : Reindexed t u e) :
    Reindexed s u fun id => d id ∨ e id where
  games := k.games.trans h.games
  positions := k.positions.trans h.positions
  keys := k.keys.trans h.keys
  damage := k.damage.trans h.damage
  touched p hp hdone := by
    by_cases he : e p.game
    · exact k.touched p (h.positions ▸ hp) he
    · rw [k.other p.id fun q hq hid => ?_, h.touched p hp (hdone.resolve_right he)]
      rw [h.positions] at hq
      rwa [List.inj_on_of_nodup_map hn hq hp hid]
  other id hid := by
    rw [k.other id fun q hq hqid he => hid q (h.positions ▸ hq) hqid (Or.inr he),
      h.other id fun q hq hqid hd => hid q hq hqid (Or.inl hd)]

end Reindexed

theorem withRows_reindexed {s : Store} (hn : (s.positions.map (·.id)).Nodup) (game : Id) :
    Reindexed s ((s.positionsOf game).foldl withRows s) (· = game) := by
  obtain ⟨hgames, hpositions, hkeys, hdamage⟩ := withRows_frame (s.positionsOf game) s
  refine ⟨hgames, hpositions, hkeys, hdamage, fun p hp hgame => ?_, fun id hid => ?_⟩
  · exact rowsAt_foldl_mem (positionsOf_nodup hn game) (mem_positionsOf.mpr ⟨hp, hgame⟩) s
  · refine rowsAt_foldl_other (fun hmem => ?_) s
    obtain ⟨p, hp, hpid⟩ := List.mem_map.mp hmem
    obtain ⟨hp, hgame⟩ := mem_positionsOf.mp hp
    exact hid p hp hpid hgame

/-- Of the games named, those whose boards can all be read are indexed anew. -/
theorem reindexGames_reindexed {s : Store} (hd : s.damage = .none) (hn : (s.positions.map (·.id)).Nodup)
    (ids : List Id) :
    Reindexed s (s.reindexGames ids).2 fun id => id ∈ ids ∧ Readable (s.positionsOf id) := by
  induction ids generalizing s with
  | nil => exact Reindexed.refl (by simp)
  | cons game rest ih =>
    have hps : ∀ p ∈ s.positionsOf game, p ∈ s.positions := fun p hp => (mem_positionsOf.mp hp).1
    by_cases hr : Readable (s.positionsOf game)
    · have hfirst := withRows_reindexed hn game
      have hrest := ih (hfirst.damage.trans hd) (hfirst.positions ▸ hn)
      simp only [reindexGames, reindexAll_ok hd hps hr]
      refine (hfirst.trans hn hrest).congr fun id => ?_
      rw [positionsOf_congr hfirst.positions, List.mem_cons]
      constructor
      · rintro ⟨rfl | hid, hread⟩
        · exact Or.inl rfl
        · exact Or.inr ⟨hid, hread⟩
      · rintro (rfl | ⟨hid, hread⟩)
        · exact ⟨Or.inl rfl, hr⟩
        · exact ⟨Or.inr hid, hread⟩
    · obtain ⟨cause, hfail⟩ := reindexAll_error hd hps hr
      simp only [reindexGames, hfail]
      refine (ih hd hn).congr fun id => ?_
      rw [List.mem_cons]
      constructor
      · rintro ⟨rfl | hid, hread⟩
        · exact absurd hread hr
        · exact ⟨hid, hread⟩
      · exact fun ⟨hid, hread⟩ => ⟨Or.inr hid, hread⟩

end Store
end ChessArchive
