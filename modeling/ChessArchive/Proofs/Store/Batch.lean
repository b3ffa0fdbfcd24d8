import ChessArchive.Proofs.Store.Insert
import ChessArchive.Proofs.Store.Transaction

/-! What becomes of a batch of games if some of them are refused, or if its transaction fails. -/

namespace ChessArchive
namespace Store

/-- The games that were taken. -/
def kept (games : List DecodedGame) (results : List (Except ArchiveError Id)) : List DecodedGame :=
  ((games.zip results).filter (·.2.isOk)).map (·.1)

@[simp] theorem kept_nil (results : List (Except ArchiveError Id)) : kept [] results = [] := rfl

@[simp] theorem kept_ok (g : DecodedGame) (games : List DecodedGame) (id : Id)
    (results : List (Except ArchiveError Id)) : kept (g :: games) (.ok id :: results) = g :: kept games results := rfl

@[simp] theorem kept_error (g : DecodedGame) (games : List DecodedGame) (e : ArchiveError)
    (results : List (Except ArchiveError Id)) : kept (g :: games) (.error e :: results) = kept games results := rfl

/-- Games were written one after the other, as if those that were refused had not been there. What becomes of a game
    depends on those alone that were taken before it; and if the positions of the store belong to games that are there,
    on nothing but the game. -/
structure Isolated (s : Store) (games : List DecodedGame) (results : List (Except ArchiveError Id)) (t : Store) :
    Prop where
  length : results.length = games.length
  outcome : ∀ i g, games[i]? = some g →
    results[i]? = some (((s.insertAll (kept (games.take i) results)).2.insertGame g).map (·.1))
  alone : s.insertAll (kept games results) = ((writtenIds results).map .ok, t)
  admitted : (∀ p ∈ s.positions, ∃ k ∈ s.games, k.id = p.game) →
    results.map (·.isOk) = games.map (decide <| Admitted s.damage ·)

theorem insertAll_isolated (s : Store) (games : List DecodedGame) :
    Isolated s games (s.insertAll games).1 (s.insertAll games).2 := by
  induction games generalizing s with
  | nil => exact ⟨rfl, fun i g h => by simp at h, rfl, fun _ => rfl⟩
  | cons g rest ih =>
    cases hg : s.insertGame g with
    | ok x =>
      obtain ⟨id, u⟩ := x
      obtain ⟨added, hentered, -⟩ := insertGame_ok hg
      have hrest := ih u
      rw [insertAll_cons hg]
      refine ⟨congrArg (· + 1) hrest.length, fun i h hi => ?_, ?_, fun hl => ?_⟩
      · cases i with
        | zero =>
          obtain rfl : g = h := by simpa using hi
          simp [insertAll, hg, Except.map]
        | succ i =>
          rw [List.take_succ_cons, kept_ok, insertAll_cons hg]
          exact hrest.outcome i h hi
      · rw [kept_ok, insertAll_cons hg, hrest.alone]
        rfl
      · have hok := insertGame_isOk hl g
        rw [hg] at hok
        rw [List.map_cons, List.map_cons, hrest.admitted (hentered.owners hl), hentered.damage,
          decide_eq_true (hok.mp rfl)]
        rfl
    | error cause =>
      have hrest := ih s
      rw [insertAll_refused hg]
      refine ⟨congrArg (· + 1) hrest.length, fun i h hi => ?_, hrest.alone, fun hl => ?_⟩
      · cases i with
        | zero =>
          obtain rfl : g = h := by simpa using hi
          simp [insertAll, hg, Except.map]
        | succ i => exact hrest.outcome i h hi
      · have hok := insertGame_isOk hl g
        rw [hg] at hok
        rw [List.map_cons, List.map_cons, hrest.admitted hl, decide_eq_false fun h => Bool.false_ne_true (hok.mpr h)]
        rfl

theorem length_kept {games : List DecodedGame} {results : List (Except ArchiveError Id)}
    (h : results.length = games.length) : (kept games results).length = results.countP (·.isOk) := by
  induction games generalizing results with
  | nil =>
    obtain rfl := List.length_eq_zero_iff.mp h
    rfl
  | cons g games ih =>
    obtain ⟨r, rest, rfl⟩ := List.exists_cons_of_length_eq_add_one h
    have hrest := ih (Nat.succ.inj h)
    cases r with
    | ok id => rw [kept_ok, List.length_cons, hrest, List.countP_cons_of_pos rfl]
    | error e => rw [kept_error, hrest, List.countP_cons_of_neg (by simp [Except.isOk, Except.toBool])]

end Store

/-- A batch whose transaction is committed leaves the store as if those of its games alone had been written that are not
    refused, with the same numbers; each game is written or rolled back. Without a transaction that can be begun and
    committed the store is as it was. -/
theorem Writing.writeBatch_isolated (s : Store) (games : List DecodedGame) :
    (∃ results written refused t, writeBatch s true true games = (.committed written refused, t) ∧
      s.Isolated games results t ∧ written = (Store.kept games results).length ∧ written + refused = games.length) ∧
    (∀ begins commits, (begins && commits) = false → writeBatch s begins commits games = (.failed games.length, s)) ∧
    ∀ begins commits, writeBatch s begins commits games = s.writeBatch (begins && commits) games := by
  have hisolated := s.insertAll_isolated games
  have hwritten := (countP_isOk _).symm.trans (Store.length_kept hisolated.length).symm
  have hle : (Store.kept games (s.insertAll games).1).length ≤ games.length := by
    rw [Store.length_kept hisolated.length, ← hisolated.length]
    exact List.countP_le_length
  refine ⟨⟨_, _, games.length - (Store.writtenIds (s.insertAll games).1).length, _, ?_, hisolated, hwritten, ?_⟩,
    fun begins commits hnot => ?_, fun begins commits => writeBatch_eq s begins commits games⟩
  · rw [writeBatch_eq]
    rfl
  · rw [hwritten]
    exact Nat.add_sub_cancel' hle
  · rw [writeBatch_eq, hnot]
    rfl

/-- Of three games one has a number twice, and another a result that is none of the four. -/
theorem Writing.writeBatch_isolated_third_game : ∃ written refused t,
    writeBatch .empty true true
      [⟨.ofTags ⟨[]⟩, [], none, [⟨0, none, "", .white, .none, 0, "", []⟩, ⟨0, none, "", .white, .none, 0, "", []⟩]⟩,
        ⟨{ Metadata.ofTags ⟨[]⟩ with result := "2-0" }, [], none, []⟩, ⟨.ofTags ⟨[]⟩, [], none, []⟩] =
          (.committed written refused, t) ∧ written = 1 ∧ refused = 2 := by
  obtain ⟨⟨results, written, refused, t, hrun, hisolated, hwritten, htotal⟩, -⟩ := writeBatch_isolated .empty
    [⟨.ofTags ⟨[]⟩, [], none, [⟨0, none, "", .white, .none, 0, "", []⟩, ⟨0, none, "", .white, .none, 0, "", []⟩]⟩,
      ⟨{ Metadata.ofTags ⟨[]⟩ with result := "2-0" }, [], none, []⟩, ⟨.ofTags ⟨[]⟩, [], none, []⟩]
  have hresults : results.map (·.isOk) = [false, false, true] :=
    (hisolated.admitted Store.empty_linked.games).trans (by decide +kernel)
  have hone : written = [false, false, true].countP id := by
    rw [hwritten, Store.length_kept hisolated.length, ← hresults, List.countP_map]
    rfl
  refine ⟨written, refused, t, hrun, hone, ?_⟩
  rw [hone] at htotal
  exact Nat.add_left_cancel htotal

end ChessArchive
