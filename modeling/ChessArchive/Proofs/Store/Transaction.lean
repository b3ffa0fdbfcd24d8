import ChessArchive.Store.Transaction
import ChessArchive.Proofs.Reading

/-! Transactions statement by statement. A writing under a mark leaves nothing behind if it fails, however many of its
    statements had been carried out; so games, batches and the index are written whole or not at all. -/

namespace ChessArchive
namespace Writing
variable {α β : Type} {w : Writing α} {k : α → Writing β} {f g : Store → Except ArchiveError (α × Store)}
  {h : α → Store → Except ArchiveError (β × Store)}

/-! ### What statements come to -/

/-- The statements do to the store what `f` does, and leave the marks as they were. Where they fail, some of them may
    have been carried out. -/
structure Follows (w : Writing α) (f : Store → Except ArchiveError (α × Store)) : Prop where
  done : ∀ {s a t}, f s = .ok (a, t) → ∀ marks, w ⟨s, marks⟩ = .ok a ⟨t, marks⟩
  failed : ∀ {s e}, f s = .error e → ∀ marks, ∃ t, w ⟨s, marks⟩ = .error e ⟨t, marks⟩

/-- The same, but where they fail, nothing has been carried out. -/
structure Whole (w : Writing α) (f : Store → Except ArchiveError (α × Store)) : Prop where
  done : ∀ {s a t}, f s = .ok (a, t) → ∀ marks, w ⟨s, marks⟩ = .ok a ⟨t, marks⟩
  failed : ∀ {s e}, f s = .error e → ∀ marks, w ⟨s, marks⟩ = .error e ⟨s, marks⟩

theorem Follows.congr (hw : Follows w f) (hfg : ∀ s, g s = f s) : Follows w g := by
  obtain rfl : g = f := funext hfg
  exact hw

theorem pure_follows (a : α) : Follows (pure a) fun s => .ok (a, s) := by
  constructor
  · rintro s _ _ ⟨⟩ marks
    rfl
  · nofun

theorem throw_follows (e : ArchiveError) : Follows (throw e : Writing α) fun _ => .error e := by
  constructor
  · nofun
  · rintro s _ ⟨⟩ marks
    exact ⟨s, rfl⟩

theorem bind_run {a : α} {s t : Transaction} (hw : w s = .ok a t) : (w >>= k) s = k a t := by
  simp only [Bind.bind, EStateM.bind, hw]

theorem Follows.bind (hw : Follows w f) (hk : ∀ a, Follows (k a) (h a)) :
    Follows (w >>= k) fun s => f s >>= fun x => h x.1 x.2 := by
  constructor
  · intro s b u hb marks
    obtain ⟨⟨a, t⟩, hf, hb⟩ := bind_ok_iff.mp hb
    rw [bind_run (hw.done hf marks)]
    exact (hk a).done hb marks
  · intro s e he marks
    cases hf : f s with
    | error cause =>
      rw [hf] at he
      cases he
      obtain ⟨t, hrun⟩ := hw.failed hf marks
      exact ⟨t, by simp only [Bind.bind, EStateM.bind, hrun]⟩
    | ok x =>
      rw [hf] at he
      rw [bind_run (hw.done hf marks)]
      exact (hk x.1).failed he marks

theorem statement_follows (f : Store → Except ArchiveError (α × Store)) : Follows (statement f) f := by
  constructor
  · intro s a t hf marks
    rw [statement, hf]
  · intro s e hf marks
    exact ⟨s, by rw [statement, hf]⟩

theorem attempt_done {s : Store} {t : Transaction} {a : α} {marks : List Store} (hw : w ⟨s, marks⟩ = .ok a t) :
    attempt w ⟨s, marks⟩ = .ok (.ok a) t := by
  rw [attempt, hw]

theorem attempt_failed {s : Store} {t : Transaction} {e : ArchiveError} {marks : List Store}
    (hw : w ⟨s, marks⟩ = .error e t) : attempt w ⟨s, marks⟩ = .ok (.error e) t := by
  rw [attempt, hw]

/-- However far a writing came, under a mark it is done whole or not at all. -/
theorem marked_whole (hw : Follows w f) : Whole (marked w) f := by
  have hmark : ∀ s marks, mark ⟨s, marks⟩ = .ok () ⟨s, s :: marks⟩ := fun _ _ => rfl
  constructor
  · intro s a t hf marks
    rw [marked, bind_run (hmark s marks), bind_run (attempt_done (hw.done hf (s :: marks)))]
    rfl
  · intro s e hf marks
    obtain ⟨t, hrun⟩ := hw.failed hf (s :: marks)
    rw [marked, bind_run (hmark s marks), bind_run (attempt_failed hrun)]
    rfl

theorem attempt_follows (hw : Whole w f) : Follows (attempt w) fun s =>
    match f s with
    | .ok (a, t) => .ok (.ok a, t)
    | .error e => .ok (.error e, s) := by
  constructor
  · intro s r t hr marks
    cases hf : f s with
    | ok x =>
      rw [hf] at hr
      cases hr
      exact attempt_done (hw.done hf marks)
    | error e =>
      rw [hf] at hr
      cases hr
      exact attempt_failed (hw.failed hf marks)
  · intro s e he marks
    cases hf : f s <;> rw [hf] at he <;> cases he

theorem ite_follows {c : Prop} [Decidable c] {v : Writing α} (hw : Follows w f) (hv : Follows v g) :
    Follows (if c then w else v) fun s => if c then f s else g s := by
  by_cases hc : c
  · simpa only [if_pos hc] using hw
  · simpa only [if_neg hc] using hv

/-! ### Games -/

theorem writePosition_follows (id : Id) (p : DecodedPosition) :
    Follows (do
        let position ← statement (·.addRecord id p)
        change (·.addRows position p.occupied))
      fun s => (s.addPosition id p).map ((), ·) := by
  refine ((statement_follows (·.addRecord id p)).bind fun position => statement_follows _).congr fun s => ?_
  rw [Store.addPosition_eq]
  cases s.addRecord id p <;> rfl

theorem writePositions_follows (id : Id) (ps : List DecodedPosition) :
    Follows (ps.forM fun p => do
        let position ← statement (·.addRecord id p)
        change (·.addRows position p.occupied))
      fun s => (ps.foldlM (fun (s : Store) p => s.addPosition id p) s).map ((), ·) := by
  induction ps with
  | nil => exact pure_follows ()
  | cons p ps ih =>
    refine ((writePosition_follows id p).bind fun _ => ih).congr fun s => ?_
    rw [List.foldlM_cons]
    cases s.addPosition id p <;> rfl

theorem insertGame_whole (g : DecodedGame) : Whole (insertGame g) (·.insertGame g) := by
  refine marked_whole (((statement_follows (·.addGame g)).bind fun id =>
    (writePositions_follows id g.positions).bind fun _ => pure_follows id).congr fun s => ?_)
  rw [Store.insertGame]
  refine congrArg (s.addGame g >>= ·) (funext fun (id, s) => ?_)
  dsimp only
  cases g.positions.foldlM (fun (s : Store) p => s.addPosition id p) s <;> rfl

theorem insertAll_follows (games : List DecodedGame) : Follows (insertAll games) fun s => .ok (s.insertAll games) := by
  induction games with
  | nil => exact pure_follows []
  | cons g rest ih =>
    refine ((attempt_follows (insertGame_whole g)).bind fun r => ih.bind fun results =>
      pure_follows (r :: results)).congr fun s => ?_
    rw [Store.insertAll]
    cases s.insertGame g <;> rfl

theorem batch_whole (commits : Bool) (games : List DecodedGame) : Whole (batch commits games) fun s =>
    let (results, t) := s.insertAll games
    if commits then .ok ((results.countP (·.isOk), results.countP (!·.isOk)), t) else .error .database :=
  marked_whole ((insertAll_follows games).bind fun results =>
    ite_follows (pure_follows (results.countP (·.isOk), results.countP (!·.isOk))) (throw_follows .database))

theorem countP_isOk (results : List (Except ArchiveError Id)) :
    results.countP (·.isOk) = (Store.writtenIds results).length := by
  induction results with
  | nil => rfl
  | cons r results ih =>
    rw [List.countP_cons, ih, Store.writtenIds, Store.writtenIds, List.filterMap_cons]
    cases r <;> rfl

theorem length_insertAll (s : Store) (games : List DecodedGame) : (s.insertAll games).1.length = games.length := by
  induction games generalizing s with
  | nil => rfl
  | cons g rest ih =>
    rw [Store.insertAll]
    cases s.insertGame g <;> exact congrArg (· + 1) (ih _)

/-- A batch is written game by game, and each game whole or not at all; without a transaction that can be begun and
    committed, nothing is. -/
theorem writeBatch_eq (s : Store) (begins commits : Bool) (games : List DecodedGame) :
    writeBatch s begins commits games = s.writeBatch (begins && commits) games := by
  cases begins with
  | false => rfl
  | true =>
    have hbatch := batch_whole commits games
    rw [writeBatch, Bool.true_and, Store.writeBatch, if_pos rfl]
    cases commits with
    | false => rw [hbatch.failed rfl, if_neg Bool.false_ne_true]
    | true =>
      have hall : games.length = (s.insertAll games).1.countP (·.isOk) + (s.insertAll games).1.countP (!·.isOk) := by
        rw [← length_insertAll s, List.length_eq_countP_add_countP (·.isOk)]
        simp
      rw [hbatch.done rfl, if_pos rfl]
      simp only [← countP_isOk, hall, Nat.add_sub_cancel_left]

/-! ### The index -/

theorem reindexChecked_follows (p : StoredPosition) : Follows (reindexChecked p) (·.reindexChecked p) := by
  unfold reindexChecked
  cases hdecode : Placement.decode p.board with
  | error e =>
    refine (throw_follows _).congr fun s => ?_
    simp [Store.reindexChecked, Store.reindexPosition, hdecode, Except.mapError, bind, Except.bind]
  | ok occupied =>
    refine ((statement_follows _).bind fun _ => (statement_follows _).bind fun _ => (statement_follows _).bind
      fun actual => ite_follows (pure_follows occupied.length) (throw_follows _)).congr fun s => ?_
    rw [Store.reindexChecked, Store.reindexPosition, hdecode]
    simp only [Except.mapError, bind, Except.bind, pure, Except.pure]
    cases s.dropRows p.id with
    | error e => rfl
    | ok t =>
      dsimp only [Except.map]
      cases t.addRows p.id occupied with
      | error e => rfl
      | ok u =>
        dsimp only [Except.map]
        cases u.rowCount p.id <;> rfl

theorem reindexAll_follows (ps : List StoredPosition) : Follows (reindexAll ps) (·.reindexAll ps) := by
  induction ps with
  | nil => exact pure_follows 0
  | cons p ps ih =>
    exact (reindexChecked_follows p).bind fun here => ih.bind fun later => pure_follows (here + later)

theorem reindexGame_whole (game : Id) : Whole (reindexGame game) fun s =>
    (s.reindexAll (s.positionsOf game)).map fun x => (((s.positionsOf game).length, x.1), x.2) := by
  refine marked_whole (((statement_follows _).bind fun positions => (reindexAll_follows positions).bind fun rows =>
    pure_follows (positions.length, rows)).congr fun s => ?_)
  cases hall : s.reindexAll (s.positionsOf game) <;> simp [hall, bind, Except.bind, Except.map]

theorem reindexGames_follows (games : List Id) : Follows (reindexGames games) fun s => .ok (s.reindexGames games) := by
  induction games with
  | nil => exact pure_follows MaintenanceReport.empty
  | cons game rest ih =>
    refine ((attempt_follows (reindexGame_whole game)).bind fun outcome => ih.bind fun r =>
      pure_follows (reported game r outcome)).congr fun s => ?_
    rw [Store.reindexGames]
    cases s.reindexAll (s.positionsOf game) <;> rfl

/-- Rebuilding the index is done game by game, after all rows are gone. -/
theorem rebuildIndex_follows : Follows rebuildIndex (·.rebuildIndex) := by
  refine ((statement_follows _).bind fun _ => (statement_follows _).bind fun games =>
    reindexGames_follows games).congr fun s => ?_
  rw [Store.rebuildIndex]
  dsimp only
  cases s.index <;> rfl

/-- Repairing the index is done game by game, and each game whole or not at all. -/
theorem fixMissingIndex_follows : Follows fixMissingIndex (·.fixMissingIndex) := by
  refine ((statement_follows _).bind fun rows => (statement_follows _).bind fun games =>
    reindexGames_follows games).congr fun s => ?_
  rw [Store.fixMissingIndex]
  cases s.index <;> rfl

end Writing
end ChessArchive
