import Mathlib.Data.List.Nodup
import ChessArchive.Proofs.Decoded
import ChessArchive.Store.Batch

/-! What writing a game does. In an undamaged store whose records refer to records that exist, a game that
    decoding has accepted is not refused: it comes in front of what is there, under numbers that nothing has,
    and nothing else changes. -/

namespace ChessArchive

theorem lt_nextId {used : List Id} {id : Id} (h : id ∈ used) : id < nextId used := by
  unfold nextId
  split
  · rename_i hnone
    rw [List.max?_eq_none_iff] at hnone
    simp [hnone] at h
  · rename_i n hmax
    exact Int.lt_add_one_of_le ((List.max?_eq_some_iff.mp hmax).2 id h)

/-- The rows that a position with these occupied squares asks for. -/
def rowsFor (position : Id) (occupied : Occupied) : List IndexRow := occupied.map fun e => ⟨position, e.1, e.2⟩

theorem filter_rowsFor (i j : Id) (occupied : Occupied) :
    (rowsFor i occupied).filter (·.position = j) = if i = j then rowsFor i occupied else [] := by
  by_cases h : i = j <;> simp [rowsFor, List.filter_map, Function.comp_def, h]

theorem position_of_mem_rowsFor {i : Id} {occupied : Occupied} {r : IndexRow} (h : r ∈ rowsFor i occupied) :
    r.position = i := by
  obtain ⟨e, -, rfl⟩ := List.mem_map.mp h
  rfl

def DecodedGame.stored (g : DecodedGame) (id : Id) : StoredGame :=
  ⟨id, g.metadata, " ".intercalate g.moves, g.startFen⟩

def DecodedPosition.stored (p : DecodedPosition) (id game : Id) : StoredPosition :=
  ⟨id, game, p.number, p.san, p.board, p.side, p.castling, p.fingerprint, p.material⟩

namespace Store

/-- Positions belong to games, and rows to positions, that are there. -/
structure Linked (s : Store) : Prop where
  games : ∀ p ∈ s.positions, ∃ g ∈ s.games, g.id = p.game
  positions : ∀ r ∈ s.rows, ∃ p ∈ s.positions, p.id = r.position

theorem empty_linked : empty.Linked :=
  ⟨fun _ hp => absurd hp List.not_mem_nil, fun _ hr => absurd hr List.not_mem_nil⟩

/-- The rows of a position, in the order in which they are kept. -/
def rowsAt (s : Store) (position : Id) : List IndexRow := s.rows.filter (·.position = position)

/-! ### One position -/

/-- Adding rows changes the rows alone. If none is lost, what is added is what the position asks for. -/
theorem addRows_ok {s t : Store} {position : Id} {occupied : Occupied} (h : s.addRows position occupied = .ok t) :
    t = { s with rows := t.rows } ∧
      (s.damage.lostSquares = [] → t.rows = rowsFor position occupied ++ s.rows) := by
  cases occupied with
  | nil =>
    obtain rfl : s = t := by simpa [addRows] using h
    exact ⟨rfl, fun _ => rfl⟩
  | cons e occupied =>
    simp only [addRows] at h
    split at h
    · simp at *
    · split at h
      · cases h
      · split at h
        · cases h
          exact ⟨rfl, fun hkeep => by simp [hkeep, rowsFor]⟩
        · cases h

theorem addRows_undamaged {s : Store} {position : Id} (hd : s.damage = .none)
    (hp : position ∈ s.positions.map (·.id)) (occupied : Occupied) :
    s.addRows position occupied = .ok { s with rows := rowsFor position occupied ++ s.rows } := by
  cases occupied with
  | nil => rfl
  | cons e occupied =>
    have hany : s.positions.any (·.id = position) = true := by simpa using hp
    simp [addRows, hd, Damage.none, hany, rowsFor]

theorem addPosition_ok {s t : Store} {game : Id} {p : DecodedPosition} (h : s.addPosition game p = .ok t) :
    t = { s with
      positions := p.stored (nextId (s.positions.map (·.id))) game :: s.positions
      rows := t.rows } ∧
    (s.damage.lostSquares = [] → t.rows = rowsFor (nextId (s.positions.map (·.id))) p.occupied ++ s.rows) := by
  simp only [addPosition] at h
  split at h
  · cases h
  · exact addRows_ok (s := { s with positions := p.stored _ game :: s.positions }) h

theorem addRows_isOk {s : Store} {position : Id} (hp : position ∈ s.positions.map (·.id)) (occupied : Occupied) :
    (s.addRows position occupied).isOk = true ↔ (s.damage.indexGone = true → occupied.isEmpty = true) := by
  have hany : s.positions.any (·.id = position) = true := by simpa using hp
  simp only [addRows, hany, Bool.or_true, if_true]
  cases occupied.isEmpty <;> cases s.damage.indexGone <;> simp [Except.isOk, Except.toBool]

theorem addPosition_isOk {s : Store} (game : Id) (p : DecodedPosition) : (s.addPosition game p).isOk = true ↔
    (∀ q ∈ s.positions, q.game = game → q.number ≠ p.number) ∧
      (s.damage.indexGone = true → p.occupied.isEmpty = true) := by
  have hfree : (s.positions.any fun q => q.game = game && q.number = p.number) = false ↔
      ∀ q ∈ s.positions, q.game = game → q.number ≠ p.number := by simp
  rw [addPosition, ← hfree]
  cases hany : s.positions.any fun q => q.game = game && q.number = p.number with
  | true => simp [Except.isOk, Except.toBool]
  | false =>
    rw [if_neg Bool.false_ne_true, addRows_isOk List.mem_cons_self]
    simp

/-! ### All positions of a game -/

/-- Positions have been added to a game, under numbers that are larger than all that were there. -/
structure Placed (s t : Store) (game : Id) (ps : List DecodedPosition) (added : List (Id × DecodedPosition)) :
    Prop where
  positions : t.positions = added.map (fun e => e.2.stored e.1 game) ++ s.positions
  listed : (added.map (·.2)).Perm ps
  ids : (added.map (·.1)).Nodup
  fresh : ∀ e ∈ added, ∀ p ∈ s.positions, p.id < e.1
  keys : t.keys = s.keys
  damage : t.damage = s.damage

/-- Positions have been added to a game, with all their rows. -/
structure Added (s t : Store) (game : Id) (ps : List DecodedPosition) (added : List (Id × DecodedPosition)) : Prop
    extends Placed s t game ps added where
  rows : t.rows = added.flatMap (fun e => rowsFor e.1 e.2.occupied) ++ s.rows

theorem addPositions_ok {s t : Store} {game : Id} {ps : List DecodedPosition}
    (h : ps.foldlM (fun s p => s.addPosition game p) s = .ok t) :
    t.games = s.games ∧ ∃ added, Placed s t game ps added ∧ (s.damage.lostSquares = [] → Added s t game ps added) := by
  induction ps generalizing s with
  | nil =>
    obtain rfl := pure_ok_iff.mp h
    have hnone : Placed s s game [] [] := ⟨rfl, .refl _, by simp, by simp, rfl, rfl⟩
    exact ⟨rfl, [], hnone, fun _ => ⟨hnone, rfl⟩⟩
  | cons p ps ih =>
    rw [List.foldlM_cons] at h
    obtain ⟨u, hu, h⟩ := bind_ok_iff.mp h
    obtain ⟨hu, hrows⟩ := addPosition_ok hu
    obtain ⟨hgames, added, ha, hadded⟩ := ih h
    have hpositions : u.positions = p.stored (nextId (s.positions.map (·.id))) game :: s.positions := by rw [hu]
    have hdamage : u.damage = s.damage := by rw [hu]
    have hplaced : Placed s t game (p :: ps) (added ++ [(nextId (s.positions.map (·.id)), p)]) := by
      constructor
      case positions => simp [ha.positions, hpositions]
      case listed =>
        rw [List.map_append]
        exact (List.perm_append_singleton _ _).trans (ha.listed.cons _)
      case ids =>
        rw [List.map_append, List.nodup_append]
        refine ⟨ha.ids, by simp, fun i hi j hj => ?_⟩
        obtain ⟨e, he, rfl⟩ := List.mem_map.mp hi
        obtain rfl := List.mem_singleton.mp hj
        exact Int.ne_of_gt (ha.fresh e he _ (hpositions ▸ List.mem_cons_self))
      case fresh =>
        intro e he q hq
        rcases List.mem_append.mp he with he | he
        · exact ha.fresh e he q (hpositions ▸ List.mem_cons_of_mem _ hq)
        · obtain rfl := List.mem_singleton.mp he
          exact lt_nextId (List.mem_map_of_mem hq)
      case keys => exact ha.keys.trans (by rw [hu])
      case damage => exact ha.damage.trans hdamage
    refine ⟨hgames.trans (by rw [hu]), _, hplaced, fun hkeep => ⟨hplaced, ?_⟩⟩
    rw [(hadded (hdamage ▸ hkeep)).rows, hrows hkeep]
    simp

/-- Positions can be added to a game if their numbers are new to it and no two of them have the same one. -/
theorem addPositions_isOk {s : Store} (game : Id) (ps : List DecodedPosition) :
    (ps.foldlM (fun (s : Store) p => s.addPosition game p) s).isOk = true ↔
      (ps.map (·.number)).Nodup ∧ (∀ q ∈ s.positions, q.game = game → q.number ∉ ps.map (·.number)) ∧
        (s.damage.indexGone = true → ∀ p ∈ ps, p.occupied.isEmpty = true) := by
  induction ps generalizing s with
  | nil => simp [pure, Except.pure, Except.isOk, Except.toBool]
  | cons p ps ih =>
    have hfirst := addPosition_isOk (s := s) game p
    rw [List.foldlM_cons]
    cases hadd : s.addPosition game p with
    | error e =>
      rw [hadd] at hfirst
      refine ⟨nofun, fun ⟨_, hfree, hrows⟩ => ?_⟩
      have hok := hfirst.mpr ⟨fun q hq hgame hnumber => hfree q hq hgame (by simp [hnumber]),
        fun hgone => hrows hgone p List.mem_cons_self⟩
      cases hok
    | ok t =>
      rw [hadd] at hfirst
      obtain ⟨ht, -⟩ := addPosition_ok hadd
      have hdamage : t.damage = s.damage := by rw [ht]
      have hpositions : t.positions = p.stored (nextId (s.positions.map (·.id))) game :: s.positions := by rw [ht]
      change (ps.foldlM (fun (s : Store) p => s.addPosition game p) t).isOk = true ↔ _
      obtain ⟨hnew, hempty⟩ := hfirst.mp rfl
      rw [ih, hdamage, hpositions, List.map_cons, List.nodup_cons, List.forall_mem_cons]
      constructor
      · rintro ⟨hnodup, ⟨hp, hfree⟩, hrows⟩
        refine ⟨⟨hp rfl, hnodup⟩, fun q hq hgame => ?_,
          fun hgone => List.forall_mem_cons.mpr ⟨hempty hgone, hrows hgone⟩⟩
        rw [List.mem_cons, not_or]
        exact ⟨hnew q hq hgame, hfree q hq hgame⟩
      · rintro ⟨⟨hp, hnodup⟩, hfree, hrows⟩
        exact ⟨hnodup, ⟨fun _ => hp, fun q hq hgame hmem => hfree q hq hgame (List.mem_cons_of_mem _ hmem)⟩,
          fun hgone => (List.forall_mem_cons.mp (hrows hgone)).2⟩

/-! ### A game -/

/-- A game has been written, with its positions. -/
structure Entered (s t : Store) (g : DecodedGame) (id : Id) (added : List (Id × DecodedPosition)) : Prop
    extends Placed s t id g.positions added where
  games : t.games = g.stored id :: s.games
  newest : ∀ h ∈ s.games, h.id < id

/-- A game has been written, with its positions and their rows. -/
structure Inserted (s t : Store) (g : DecodedGame) (id : Id) (added : List (Id × DecodedPosition)) : Prop
    extends Entered s t g id added, Added s t id g.positions added

/-- A game that is not refused is written whole. -/
theorem insertGame_ok {s t : Store} {g : DecodedGame} {id : Id} (h : s.insertGame g = .ok (id, t)) :
    ∃ added, Entered s t g id added ∧ (s.damage.lostSquares = [] → Inserted s t g id added) := by
  obtain ⟨⟨i, u⟩, hadd, h⟩ := bind_ok_iff.mp h
  obtain ⟨v, hpositions, h⟩ := bind_ok_iff.mp h
  obtain ⟨rfl, rfl⟩ : i = id ∧ v = t := by simpa using pure_ok_iff.mp h
  unfold addGame at hadd
  split at hadd
  · cases hadd
  · cases hadd
    obtain ⟨hgames, added, hplaced, hadded⟩ := addPositions_ok
      (s := { s with games := g.stored (nextId (s.games.map (·.id))) :: s.games }) hpositions
    have hentered : Entered s v g (nextId (s.games.map (·.id))) added :=
      { hplaced with games := hgames, newest := fun h hh => lt_nextId (List.mem_map_of_mem hh) }
    exact ⟨added, hentered, fun hkeep => { hentered with rows := (hadded hkeep).rows }⟩

/-- A game that breaks no rule of the tables: its result is one of the four, no two of its positions have the same
    number, and there is an index unless it asks for no rows. -/
structure Admitted (d : Damage) (g : DecodedGame) : Prop where
  result : (GameResult.ofToken? g.metadata.result).isSome = true
  numbers : (g.positions.map (·.number)).Nodup
  rows : d.indexGone = true → ∀ p ∈ g.positions, p.occupied.isEmpty = true

instance (d : Damage) (g : DecodedGame) : Decidable (Admitted d g) :=
  decidable_of_iff ((GameResult.ofToken? g.metadata.result).isSome = true ∧ (g.positions.map (·.number)).Nodup ∧
      (d.indexGone = true → ∀ p ∈ g.positions, p.occupied.isEmpty = true))
    ⟨fun ⟨hresult, hnumbers, hrows⟩ => ⟨hresult, hnumbers, hrows⟩, fun h => ⟨h.result, h.numbers, h.rows⟩⟩

theorem isOk_bind_pure {α β : Type} (x : Except ArchiveError α) (f : α → β) :
    (x >>= fun a => pure (f a)).isOk = x.isOk := by
  cases x <;> rfl

/-- In a store whose positions belong to games that are there, a game is taken exactly if it breaks no rule. -/
theorem insertGame_isOk {s : Store} (hl : ∀ p ∈ s.positions, ∃ k ∈ s.games, k.id = p.game) (g : DecodedGame) :
    (s.insertGame g).isOk = true ↔ Admitted s.damage g := by
  rw [insertGame, addGame]
  cases hresult : GameResult.ofToken? g.metadata.result with
  | none =>
    refine ⟨nofun, fun h => ?_⟩
    have hsome := h.result
    rw [hresult] at hsome
    cases hsome
  | some r =>
    -- No position that is there can have the number of the new game.
    have hfree : ∀ q ∈ s.positions, q.game ≠ nextId (s.games.map (·.id)) := by
      intro q hq hgame
      obtain ⟨k, hk, hid⟩ := hl q hq
      exact Int.ne_of_lt (lt_nextId (List.mem_map_of_mem hk)) (hid.trans hgame)
    have hadd := addPositions_isOk (s := { s with games := g.stored (nextId (s.games.map (·.id))) :: s.games })
      (nextId (s.games.map (·.id))) g.positions
    change (_ >>= fun t => pure (nextId (s.games.map (·.id)), t) : Except ArchiveError (Id × Store)).isOk = true ↔ _
    rw [isOk_bind_pure]
    refine hadd.trans ⟨fun ⟨hnumbers, _, hrows⟩ => ⟨by rw [hresult]; rfl, hnumbers, hrows⟩, fun h => ?_⟩
    exact ⟨h.numbers, fun q hq hgame => absurd hgame (hfree q hq), h.rows⟩

theorem insertGame_undamaged {s : Store} {g : DecodedGame} (hl : s.Linked) (hd : s.damage = .none)
    (hres : (GameResult.ofToken? g.metadata.result).isSome) (hnum : (g.positions.map (·.number)).Nodup) :
    ∃ id t added, s.insertGame g = .ok (id, t) ∧ Inserted s t g id added := by
  have hok := (insertGame_isOk hl.games g).mpr ⟨hres, hnum, by simp [hd, Damage.none]⟩
  cases hinsert : s.insertGame g with
  | error e => simp [hinsert, Except.isOk, Except.toBool] at hok
  | ok x =>
    obtain ⟨added, -, hi⟩ := insertGame_ok hinsert
    exact ⟨x.1, x.2, added, rfl, hi (by rw [hd]; rfl)⟩

/-! ### What is there afterwards -/

namespace Placed
variable {s t : Store} {game : Id} {ps : List DecodedPosition} {added : List (Id × DecodedPosition)}

theorem positions_of_other (h : Placed s t game ps added) {other : Id} (hne : other ≠ game) :
    t.positions.filter (·.game = other) = s.positions.filter (·.game = other) := by
  have hnil : (added.map fun e => e.2.stored e.1 game).filter (·.game = other) = [] := by
    rw [List.filter_eq_nil_iff]
    intro p hp
    obtain ⟨e, -, rfl⟩ := List.mem_map.mp hp
    simp [DecodedPosition.stored, hne.symm]
  rw [h.positions, List.filter_append, hnil, List.nil_append]

theorem positions_of_game (h : Placed s t game ps added) (hfree : ∀ p ∈ s.positions, p.game ≠ game) :
    t.positions.filter (·.game = game) = added.map fun e => e.2.stored e.1 game := by
  have hnil : s.positions.filter (·.game = game) = [] := by simpa [List.filter_eq_nil_iff] using hfree
  have hall : (added.map fun e => e.2.stored e.1 game).filter (·.game = game) =
      added.map fun e => e.2.stored e.1 game := by
    rw [List.filter_eq_self]
    intro p hp
    obtain ⟨e, -, rfl⟩ := List.mem_map.mp hp
    simp [DecodedPosition.stored]
  rw [h.positions, List.filter_append, hnil, hall, List.append_nil]

theorem mem_positions (h : Placed s t game ps added) {p : StoredPosition} :
    p ∈ t.positions ↔ (∃ e ∈ added, p = e.2.stored e.1 game) ∨ p ∈ s.positions := by
  simp [h.positions, eq_comm]

end Placed

namespace Added
variable {s t : Store} {game : Id} {ps : List DecodedPosition} {added : List (Id × DecodedPosition)}

theorem rowsAt_old (h : Added s t game ps added) {p : StoredPosition} (hp : p ∈ s.positions) :
    t.rowsAt p.id = s.rowsAt p.id := by
  have hnil : (added.flatMap fun e => rowsFor e.1 e.2.occupied).filter (·.position = p.id) = [] := by
    rw [List.filter_eq_nil_iff]
    intro r hr hid
    obtain ⟨e, he, hr⟩ := List.mem_flatMap.mp hr
    have hid : r.position = p.id := by simpa using hid
    exact Int.ne_of_gt (h.fresh e he p hp) ((position_of_mem_rowsFor hr).symm.trans hid)
  rw [rowsAt, rowsAt, h.rows, List.filter_append, hnil, List.nil_append]

theorem rowsAt_new (h : Added s t game ps added) (hl : s.Linked) {e : Id × DecodedPosition} (he : e ∈ added) :
    t.rowsAt e.1 = rowsFor e.1 e.2.occupied := by
  have hnil : s.rows.filter (·.position = e.1) = [] := by
    rw [List.filter_eq_nil_iff]
    intro r hr hid
    obtain ⟨p, hp, hpid⟩ := hl.positions r hr
    have hid : r.position = e.1 := by simpa using hid
    exact Int.ne_of_lt (h.fresh e he p hp) (hpid.trans hid)
  rw [rowsAt, h.rows, List.filter_append, hnil, List.append_nil, List.filter_flatMap]
  simp only [filter_rowsFor]
  have hids := h.ids
  clear h hnil
  induction added with
  | nil => cases he
  | cons x added ih =>
    rw [List.map_cons, List.nodup_cons] at hids
    rw [List.flatMap_cons]
    rcases List.mem_cons.mp he with rfl | he
    · have hrest : (added.flatMap fun a => if a.1 = e.1 then rowsFor a.1 a.2.occupied else []) = [] := by
        rw [List.flatMap_eq_nil_iff]
        intro a ha
        have hne : a.1 ≠ e.1 := fun heq => hids.1 (heq ▸ List.mem_map_of_mem ha)
        simp [hne]
      simp [hrest]
    · have hne : x.1 ≠ e.1 := fun heq => hids.1 (heq ▸ List.mem_map_of_mem he)
      simp [hne, ih he hids.2]

end Added

section
variable {s t : Store} {g : DecodedGame} {id : Id} {added : List (Id × DecodedPosition)}

theorem Entered.game_ne (h : Entered s t g id added) (hl : ∀ p ∈ s.positions, ∃ k ∈ s.games, k.id = p.game) :
    ∀ p ∈ s.positions, p.game ≠ id := by
  intro p hp hid
  obtain ⟨k, hk, hkid⟩ := hl p hp
  exact Int.ne_of_lt (h.newest k hk) (hkid.trans hid)

theorem Entered.owners (h : Entered s t g id added) (hl : ∀ p ∈ s.positions, ∃ k ∈ s.games, k.id = p.game) :
    ∀ p ∈ t.positions, ∃ k ∈ t.games, k.id = p.game := by
  intro p hp
  rw [h.games]
  rcases h.mem_positions.mp hp with ⟨e, -, rfl⟩ | hp
  · exact ⟨_, List.mem_cons_self, rfl⟩
  · obtain ⟨k, hk, hkid⟩ := hl p hp
    exact ⟨k, List.mem_cons_of_mem _ hk, hkid⟩

theorem Inserted.linked (h : Inserted s t g id added) (hl : s.Linked) : t.Linked where
  games := h.owners hl.games
  positions r hr := by
    rw [h.rows] at hr
    rcases List.mem_append.mp hr with hr | hr
    · obtain ⟨e, he, hr⟩ := List.mem_flatMap.mp hr
      exact ⟨_, h.mem_positions.mpr (Or.inl ⟨e, he, rfl⟩), (position_of_mem_rowsFor hr).symm⟩
    · obtain ⟨p, hp, hpid⟩ := hl.positions r hr
      exact ⟨p, h.mem_positions.mpr (Or.inr hp), hpid⟩

end

end Store

theorem DecodedGame.Consistent.insertGame {keys : FingerprintKeys} {g : DecodedGame}
    (hg : g.Consistent keys) {s : Store} (hl : s.Linked) (hd : s.damage = .none) :
    ∃ id t added, s.insertGame g = .ok (id, t) ∧ s.Inserted t g id added := by
  obtain ⟨n, hn⟩ := hg.numbers
  exact Store.insertGame_undamaged hl hd hg.result (hn ▸ List.nodup_range)

namespace Store

/-! ### Several games -/

/-- Games are written one after the other, and none of them is refused. -/
inductive Takes : Store → List DecodedGame → Store → Prop where
  | nil {s : Store} : Takes s [] s
  | cons {s t u : Store} {g : DecodedGame} {gs : List DecodedGame} {id : Id} :
      s.insertGame g = .ok (id, t) → Takes t gs u → Takes s (g :: gs) u

theorem Takes.append {s t u : Store} {gs hs : List DecodedGame} (h : Takes s gs t) (k : Takes t hs u) :
    Takes s (gs ++ hs) u := by
  induction h with
  | nil => exact k
  | cons hg _ ih => exact .cons hg (ih k)

theorem insertAll_cons {s t : Store} {g : DecodedGame} {id : Id} (h : s.insertGame g = .ok (id, t))
    (gs : List DecodedGame) : s.insertAll (g :: gs) = (.ok id :: (t.insertAll gs).1, (t.insertAll gs).2) := by
  simp [insertAll, h]

theorem insertAll_refused {s : Store} {g : DecodedGame} {cause : ArchiveError} (h : s.insertGame g = .error cause)
    (gs : List DecodedGame) : s.insertAll (g :: gs) = (.error cause :: (s.insertAll gs).1, (s.insertAll gs).2) := by
  simp [insertAll, h]

theorem Takes.insertAll {s t : Store} {gs : List DecodedGame} (h : Takes s gs t) : (s.insertAll gs).2 = t := by
  induction h with
  | nil => rfl
  | cons hg _ ih => rw [insertAll_cons hg, ih]

/-- Of the games that are written one after the other some are taken, as if the others had not been there. -/
theorem insertAll_takes (s : Store) (gs : List DecodedGame) :
    ∃ kept refused, gs.Perm (kept ++ refused) ∧ (writtenIds (s.insertAll gs).1).length = kept.length ∧
      Takes s kept (s.insertAll gs).2 := by
  induction gs generalizing s with
  | nil => exact ⟨[], [], .refl _, rfl, .nil⟩
  | cons g gs ih =>
    cases hg : s.insertGame g with
    | ok x =>
      obtain ⟨kept, refused, hperm, hlen, htakes⟩ := ih x.2
      rw [insertAll_cons hg]
      exact ⟨g :: kept, refused, hperm.cons g, by simpa [writtenIds, Except.toOption] using hlen, .cons hg htakes⟩
    | error cause =>
      obtain ⟨kept, refused, hperm, hlen, htakes⟩ := ih s
      rw [insertAll_refused hg]
      exact ⟨kept, g :: refused, (hperm.cons g).trans List.perm_middle.symm,
        by simpa [writtenIds, Except.toOption] using hlen, htakes⟩

/-- Consistent games are all written, one after the other; what each of them keeps, all of them keep. -/
theorem insertAll_consistent {keys : FingerprintKeys} {P : Store → Prop}
    (step : ∀ {s t g id added}, P s → s.Linked → g.Consistent keys → Inserted s t g id added → P t)
    {gs : List DecodedGame} (hgs : ∀ g ∈ gs, g.Consistent keys) {s : Store} (hp : P s) (hl : s.Linked)
    (hd : s.damage = .none) :
    P (s.insertAll gs).2 ∧ (s.insertAll gs).2.Linked ∧ (s.insertAll gs).2.damage = .none ∧
      ∃ ids : List Id, (s.insertAll gs).1 = ids.map .ok ∧ ids.length = gs.length := by
  induction gs generalizing s with
  | nil => exact ⟨hp, hl, hd, [], rfl, rfl⟩
  | cons g gs ih =>
    rw [List.forall_mem_cons] at hgs
    obtain ⟨id, t, added, ht, hi⟩ := hgs.1.insertGame hl hd
    rw [insertAll_cons ht]
    obtain ⟨hp', hl', hd', ids, hids, hlen⟩ :=
      ih hgs.2 (step hp hl hgs.1 hi) (hi.linked hl) (hi.damage.trans hd)
    exact ⟨hp', hl', hd', id :: ids, by simp [hids], by simp [hlen]⟩

end Store
end ChessArchive
