import ChessArchive.Proofs.Listing
import ChessArchive.Proofs.Placement
import ChessArchive.Proofs.Store.Coverage
import ChessArchive.Proofs.Store.Reindex
import ChessArchive.Store.Keys

/-! The invariant of a store that only its own operations have written. Records refer to records that exist, the
    positions of a game are numbered without a gap, what a position holds is derived from its board, and the index
    holds one row for each piece of each board and no other. This file holds the invariant and how imports, deletions
    and maintenance keep it. -/

namespace ChessArchive

/-- All that a stored position holds is derived from its board, and only the start has no move that led to it. -/
structure StoredPosition.Derived (keys : FingerprintKeys) (p : StoredPosition) : Prop where
  material : ∃ m, Material.ofText p.board = .ok m ∧ p.material = m.signature
  fingerprint : keys.fingerprint p.board p.side p.castling = .ok p.fingerprint
  start : p.san = none ↔ p.number = 0

theorem StoredPosition.Derived.board {keys : FingerprintKeys} {p : StoredPosition} (h : p.Derived keys) :
    ∃ occupied, Placement.decode p.board = .ok occupied := by
  obtain ⟨m, hm, -⟩ := h.material
  obtain ⟨occupied, hocc, -⟩ := map_ok_iff.mp hm
  exact ⟨occupied, hocc⟩

theorem DecodedPosition.Consistent.derived {keys : FingerprintKeys} {p : DecodedPosition} (h : p.Consistent keys)
    (id game : Id) : (p.stored id game).Derived keys where
  material := ⟨_, map_ok_iff.mpr ⟨_, h.occupied, rfl⟩, h.material⟩
  fingerprint := h.fingerprint
  start := h.start

namespace Store
open Placement

/-- The records of games and positions are in order, whatever the index holds. Each position was fingerprinted with one
    of the key tables. -/
structure Recorded (tables : FingerprintKeys → Prop) (s : Store) : Prop where
  undamaged : s.damage = .none
  gameIds : (s.games.map (·.id)).Nodup
  positionIds : (s.positions.map (·.id)).Nodup
  owners : ∀ p ∈ s.positions, ∃ g ∈ s.games, g.id = p.game
  numbers : ∀ g ∈ s.games, ∃ n, (s.positionsOf g.id).map (·.number) = List.range (n + 1)
  derived : ∀ p ∈ s.positions, ∃ keys, tables keys ∧ p.Derived keys

/-- A position has one row for each piece on its board. -/
def Indexed (s : Store) (p : StoredPosition) : Prop :=
  ∃ occupied, decode p.board = .ok occupied ∧ occupied.Nodup ∧ s.rowsAt p.id = rowsFor p.id occupied

/-- The records are in order, and the index holds what the boards of the positions ask for. -/
structure Sound (tables : FingerprintKeys → Prop) (s : Store) : Prop extends Recorded tables s where
  indexed : ∀ p ∈ s.positions, s.Indexed p
  rows : ∀ r ∈ s.rows, ∃ p ∈ s.positions, p.id = r.position

section
variable {tables : FingerprintKeys → Prop} {keys : FingerprintKeys} {s t : Store}

theorem empty_sound : Sound tables empty := by
  constructor <;> (try constructor) <;> simp [empty]

theorem Recorded.board (h : s.Recorded tables) {p : StoredPosition} (hp : p ∈ s.positions) :
    ∃ occupied, decode p.board = .ok occupied := by
  obtain ⟨_, -, hderived⟩ := h.derived p hp
  exact hderived.board

theorem Sound.linked (h : s.Sound tables) : s.Linked := ⟨h.owners, h.rows⟩

theorem indexed_of_rowsAt {p : StoredPosition} {occupied : Occupied} (hocc : decode p.board = .ok occupied)
    (h : s.rowsAt p.id = rowsFor p.id occupied) : s.Indexed p :=
  ⟨occupied, hocc, List.Nodup.of_map _ (decode_nodup hocc), h⟩

/-! ### The numbers of a game -/

theorem sorted_byNumber (ps : List StoredPosition) :
    (ps.mergeSort fun p q => p.number ≤ q.number).Pairwise fun p q => p.number ≤ q.number :=
  pairwise_sorted (r := fun p q : StoredPosition => p.number ≤ q.number) (fun _ _ _ => Nat.le_trans)
    (fun _ _ => Nat.le_total _ _) ps

theorem filter_byNumber (keep : StoredPosition → Bool) (ps : List StoredPosition) :
    (ps.mergeSort fun p q => p.number ≤ q.number).filter keep =
      (ps.filter keep).mergeSort fun p q => p.number ≤ q.number := by
  refine filter_mergeSort (fun p q r => ?_) (fun p q => ?_) keep ps
  · simpa using Nat.le_trans
  · simpa using Nat.le_total p.number q.number

theorem positionsOf_numbers {game : Id} {n : Nat}
    (h : ((s.positions.filter (·.game = game)).map (·.number)).Perm (List.range n)) :
    (s.positionsOf game).map (·.number) = List.range n := by
  have hperm : ((s.positionsOf game).map (·.number)).Perm (List.range n) :=
    ((List.mergeSort_perm _ _).map _).trans h
  refine hperm.eq_of_pairwise (fun a b _ _ hab hba => Nat.le_antisymm hab hba)
    (List.pairwise_map.mpr (sorted_byNumber _)) ?_
  exact List.pairwise_le_range

/-! ### Imports -/

theorem Inserted.recorded (h : s.Recorded tables) (hl : s.Linked) {g : DecodedGame} {id : Id}
    {added : List (Id × DecodedPosition)} (ht : tables keys) (hg : g.Consistent keys) (hi : Inserted s t g id added) :
    t.Recorded tables where
  undamaged := hi.damage.trans h.undamaged
  gameIds := by
    rw [hi.games, List.map_cons, List.nodup_cons]
    refine ⟨fun hmem => ?_, h.gameIds⟩
    obtain ⟨k, hk, hkid⟩ := List.mem_map.mp hmem
    exact Int.ne_of_lt (hi.newest k hk) hkid
  positionIds := by
    rw [hi.positions, List.map_append, List.map_map, List.nodup_append]
    refine ⟨hi.ids, h.positionIds, fun i hi' j hj => ?_⟩
    obtain ⟨e, he, rfl⟩ := List.mem_map.mp hi'
    obtain ⟨p, hp, rfl⟩ := List.mem_map.mp hj
    exact Int.ne_of_gt (hi.fresh e he p hp)
  owners := (hi.linked hl).games
  numbers k hk := by
    rw [hi.games] at hk
    rcases List.mem_cons.mp hk with rfl | hk
    · obtain ⟨n, hn⟩ := hg.numbers
      have hnum : ((t.positions.filter (·.game = id)).map (·.number)).Perm (g.positions.map (·.number)) := by
        have hlisted := hi.listed.map (·.number)
        rw [hi.positions_of_game (hi.game_ne hl.games), List.map_map]
        rwa [List.map_map] at hlisted
      exact ⟨n, positionsOf_numbers (hn ▸ hnum)⟩
    · obtain ⟨n, hn⟩ := h.numbers k hk
      refine ⟨n, ?_⟩
      rwa [positionsOf, hi.positions_of_other (Int.ne_of_lt (hi.newest k hk))]
  derived p hp := by
    rcases hi.mem_positions.mp hp with ⟨e, he, rfl⟩ | hp
    · exact ⟨keys, ht, (hg.positions e.2 (hi.listed.mem_iff.mp (List.mem_map_of_mem he))).derived e.1 id⟩
    · exact h.derived p hp

theorem Inserted.sound (h : s.Sound tables) {g : DecodedGame} {id : Id} {added : List (Id × DecodedPosition)}
    (ht : tables keys) (hg : g.Consistent keys) (hi : Inserted s t g id added) : t.Sound tables where
  toRecorded := hi.recorded h.toRecorded h.linked ht hg
  indexed p hp := by
    rcases hi.mem_positions.mp hp with ⟨e, he, rfl⟩ | hp
    · have hocc := (hg.positions e.2 (hi.listed.mem_iff.mp (List.mem_map_of_mem he))).occupied
      exact indexed_of_rowsAt hocc (hi.rowsAt_new h.linked he)
    · obtain ⟨occupied, hocc, -, hrows⟩ := h.indexed p hp
      exact indexed_of_rowsAt hocc ((hi.rowsAt_old hp).trans hrows)
  rows := (hi.linked h.linked).positions

/-! ### Deletions -/

/-- The positions of other games are left. -/
theorem positionsOf_deleteGame (s : Store) {id game : Id} (hne : game ≠ id) :
    (s.deleteGame id).2.positionsOf game = s.positionsOf game := by
  have hsame : (s.positions.filter (·.game ≠ id)).filter (·.game = game) = s.positions.filter (·.game = game) := by
    rw [List.filter_filter]
    refine List.filter_congr fun p _ => ?_
    by_cases hp : p.game = game
    · simpa [hp] using hne
    · simp [hp]
  rw [positionsOf, positionsOf, ← hsame]
  rfl

/-- The rows of positions of other games are left. -/
theorem rowsAt_deleteGame (hids : (s.positions.map (·.id)).Nodup) {id : Id} {p : StoredPosition}
    (hp : p ∈ s.positions) (hne : p.game ≠ id) : (s.deleteGame id).2.rowsAt p.id = s.rowsAt p.id := by
  rw [rowsAt, rowsAt, deleteGame, List.filter_filter]
  refine List.filter_congr fun r _ => ?_
  by_cases hr : r.position = p.id
  · have hkept : p.id ∉ (s.positions.filter (·.game = id)).map (·.id) := by
      intro hmem
      obtain ⟨q, hq, hqid⟩ := List.mem_map.mp hmem
      obtain ⟨hq, hgame⟩ := List.mem_filter.mp hq
      obtain rfl := List.inj_on_of_nodup_map hids hq hp hqid
      exact hne (of_decide_eq_true hgame)
    simpa [hr] using hkept
  · simp [hr]

theorem deleteGame_sound (h : s.Sound tables) (id : Id) : (s.deleteGame id).2.Sound tables where
  undamaged := h.undamaged
  gameIds := h.gameIds.sublist (List.filter_sublist.map _)
  positionIds := h.positionIds.sublist (List.filter_sublist.map _)
  owners p hp := by
    obtain ⟨hp, hne⟩ := List.mem_filter.mp hp
    obtain ⟨g, hg, hgid⟩ := h.owners p hp
    exact ⟨g, List.mem_filter.mpr ⟨hg, by simpa [hgid] using hne⟩, hgid⟩
  numbers g hg := by
    obtain ⟨hg, hne⟩ := List.mem_filter.mp hg
    rw [positionsOf_deleteGame s (of_decide_eq_true hne)]
    exact h.numbers g hg
  derived p hp := h.derived p (List.mem_filter.mp hp).1
  indexed p hp := by
    obtain ⟨hp, hne⟩ := List.mem_filter.mp hp
    obtain ⟨occupied, hocc, -, hrows⟩ := h.indexed p hp
    exact indexed_of_rowsAt hocc ((rowsAt_deleteGame h.positionIds hp (of_decide_eq_true hne)).trans hrows)
  rows r hr := by
    obtain ⟨hr, hkept⟩ := List.mem_filter.mp hr
    obtain ⟨p, hp, hpid⟩ := h.rows r hr
    refine ⟨p, List.mem_filter.mpr ⟨hp, ?_⟩, hpid⟩
    by_contra hgame
    have hgone : r.position ∈ (s.positions.filter (·.game = id)).map (·.id) :=
      hpid ▸ List.mem_map_of_mem (List.mem_filter.mpr ⟨hp, by simpa using hgame⟩)
    rw [← List.contains_iff_mem] at hgone
    rw [hgone] at hkept
    exact absurd hkept (by decide)

/-! ### Maintenance -/

theorem Reindexed.recorded (h : s.Recorded tables) {done : Id → Prop} (hr : Reindexed s t done) :
    t.Recorded tables where
  undamaged := hr.damage.trans h.undamaged
  gameIds := hr.games ▸ h.gameIds
  positionIds := hr.positions ▸ h.positionIds
  owners := hr.games ▸ hr.positions ▸ h.owners
  numbers g hg := positionsOf_congr hr.positions g.id ▸ h.numbers g (hr.games ▸ hg)
  derived := hr.positions ▸ h.derived

/-- It is enough that the positions that are left out were in order. -/
theorem Reindexed.sound (h : s.Recorded tables) {done : Id → Prop} (hr : Reindexed s t done)
    (hindexed : ∀ p ∈ s.positions, ¬ done p.game → s.Indexed p)
    (hrows : ∀ r ∈ s.rows, ∃ p ∈ s.positions, p.id = r.position) : t.Sound tables where
  toRecorded := hr.recorded h
  indexed p hp := by
    rw [hr.positions] at hp
    obtain ⟨occupied, hocc⟩ := h.board hp
    refine indexed_of_rowsAt hocc ?_
    by_cases hdone : done p.game
    · rw [hr.touched p hp hdone, occupiedOf_ok hocc]
    · obtain ⟨occupied', hocc', -, hold⟩ := hindexed p hp hdone
      obtain rfl : occupied = occupied' := Except.ok.inj (hocc.symm.trans hocc')
      rw [hr.other p.id fun q hq hid => ?_, hold]
      rwa [List.inj_on_of_nodup_map h.positionIds hq hp hid]
  rows r hmem := by
    rw [hr.positions]
    by_contra hnone
    simp only [not_exists, not_and] at hnone
    have hat : r ∈ t.rowsAt r.position := List.mem_filter.mpr ⟨hmem, by simp⟩
    rw [hr.other r.position fun p hp hid => absurd hid (hnone p hp)] at hat
    obtain ⟨p, hp, hid⟩ := hrows r (List.mem_filter.mp hat).1
    exact hnone p hp hid

theorem mem_ascending {ids : List Id} {id : Id} : id ∈ ascending ids ↔ id ∈ ids := by
  simp [ascending]

theorem nodup_ascending (ids : List Id) : (ascending ids).Nodup :=
  (List.mergeSort_perm _ _).nodup_iff.mpr (nodup_eraseDups ids)

theorem readable_positionsOf (h : s.Recorded tables) (game : Id) : Readable (s.positionsOf game) := fun _ hp =>
  h.board (mem_positionsOf.mp hp).1

theorem rebuildIndex_sound (h : s.Recorded tables) {report : MaintenanceReport}
    (ht : s.rebuildIndex = .ok (report, t)) : t.Sound tables := by
  have hcleared : Recorded tables { s with rows := [] } :=
    ⟨h.undamaged, h.gameIds, h.positionIds, h.owners, h.numbers, h.derived⟩
  obtain ⟨_, -, ht⟩ := bind_ok_iff.mp ht
  obtain rfl := congrArg Prod.snd (pure_ok_iff.mp ht)
  refine (reindexGames_reindexed hcleared.undamaged hcleared.positionIds _).sound hcleared (fun p hp hdone => ?_) (by simp)
  obtain ⟨g, hg, hid⟩ := h.owners p hp
  refine absurd ⟨?_, readable_positionsOf hcleared p.game⟩ hdone
  exact mem_ascending.mpr (hid ▸ List.mem_map_of_mem hg)

theorem fixMissingIndex_sound (h : s.Sound tables) {report : MaintenanceReport}
    (ht : s.fixMissingIndex = .ok (report, t)) : t.Sound tables := by
  obtain ⟨rows, -, ht⟩ := bind_ok_iff.mp ht
  obtain rfl := congrArg Prod.snd (pure_ok_iff.mp ht)
  exact (reindexGames_reindexed h.undamaged h.positionIds _).sound h.toRecorded (fun p hp _ => h.indexed p hp) h.rows

/-! ### Key tables -/

theorem offerKeys_frame (s : Store) (k : FingerprintKeys) :
    (s.offerKeys k).games = s.games ∧ (s.offerKeys k).positions = s.positions ∧
      (s.offerKeys k).rows = s.rows ∧ (s.offerKeys k).damage = s.damage := by
  unfold offerKeys
  generalize k.toWords.zipIdx.map _ = offered
  induction offered generalizing s with
  | nil => simp
  | cons k offered ih =>
    rw [List.foldl_cons]
    obtain ⟨hgames, hpositions, hrows, hdamage⟩ := ih (s.offerKey k)
    rw [hgames, hpositions, hrows, hdamage]
    unfold offerKey
    split <;> simp

theorem openKeys_frame {fresh k : FingerprintKeys} (h : s.openKeys fresh = .ok (k, t)) :
    t.games = s.games ∧ t.positions = s.positions ∧ t.rows = s.rows ∧ t.damage = s.damage := by
  obtain ⟨stored, -, h⟩ := bind_ok_iff.mp h
  cases stored with
  | some k =>
    obtain rfl := congrArg Prod.snd (pure_ok_iff.mp h)
    simp
  | none =>
    obtain ⟨stored, -, h⟩ := bind_ok_iff.mp h
    cases stored with
    | some k =>
      obtain rfl := congrArg Prod.snd (pure_ok_iff.mp h)
      exact offerKeys_frame s fresh
    | none => cases h

theorem openKeys_sound (h : s.Sound tables) {fresh k : FingerprintKeys} (ht : s.openKeys fresh = .ok (k, t)) :
    t.Sound tables := by
  obtain ⟨hgames, hpositions, hrows, hdamage⟩ := openKeys_frame ht
  refine ⟨⟨hdamage.trans h.undamaged, hgames ▸ h.gameIds, hpositions ▸ h.positionIds, hgames ▸ hpositions ▸ h.owners,
    fun g hg => ?_, hpositions ▸ h.derived⟩, fun p hp => ?_, hpositions ▸ hrows ▸ h.rows⟩
  · exact positionsOf_congr hpositions g.id ▸ h.numbers g (hgames ▸ hg)
  · obtain ⟨occupied, hocc, hn, hat⟩ := h.indexed p (hpositions ▸ hp)
    exact ⟨occupied, hocc, hn, by rw [rowsAt, hrows]; exact hat⟩

/-! ### Coverage -/

/-- The index of a store in order covers every position exactly. -/
theorem Sound.coverage (h : s.Sound tables) : ∃ report, s.coverage = .ok report ∧ report.mismatches = [] := by
  have hindex : s.index = .ok s.rows := by simp [index, h.undamaged, Damage.none]
  refine ⟨_, bind_ok_iff.mpr ⟨s.rows, hindex, rfl⟩, List.eq_nil_iff_forall_not_mem.mpr fun m hm => ?_⟩
  obtain ⟨p, hp, -, htells⟩ := (mem_mismatches h.positionIds).mp hm
  obtain ⟨occupied, hocc, -, hrows⟩ := h.indexed p hp
  refine htells.differ (htells.expected.trans (Eq.trans ?_ htells.actual.symm))
  rw [hrows, rowsFor, List.length_map, occupiedOf_ok hocc]

end

end Store
end ChessArchive
