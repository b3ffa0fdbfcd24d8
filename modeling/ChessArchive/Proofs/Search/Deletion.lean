import ChessArchive.Proofs.Search.Selection
import ChessArchive.Proofs.Store.Reached

/-! Searches after a deletion. The game is gone from everything that a search finds, and what is found otherwise stays, in
    the order that it had; only a search that failed for the sake of the game may succeed without it. -/

namespace ChessArchive
namespace Store

/-- A store is another one without a game, its positions and their rows. -/
structure Without (s t : Store) (id : Id) : Prop where
  games : t.games = s.games.filter (·.id ≠ id)
  positions : t.positions = s.positions.filter (·.game ≠ id)
  rows : t.rows = s.rows.filter fun r => !s.positions.any fun p => p.game = id && p.id = r.position
  keys : t.keys = s.keys
  damage : t.damage = s.damage

theorem deleteGame_without (s : Store) (id : Id) : s.Without (s.deleteGame id).2 id where
  games := rfl
  positions := rfl
  rows := by
    refine List.filter_congr fun r _ => congrArg not ?_
    rw [Bool.eq_iff_iff, List.contains_iff_mem, List.mem_map, List.any_eq_true]
    simp only [List.mem_filter, Bool.and_eq_true, decide_eq_true_eq, and_assoc]
  keys := rfl
  damage := rfl

/-- What has been deleted is not there to be deleted again. -/
theorem deleteGame_again (s : Store) (id : Id) :
    (s.deleteGame id).2.deleteGame id = (false, (s.deleteGame id).2) := by
  simp [deleteGame, List.filter_filter]

section
variable {tables : FingerprintKeys → Prop} {s : Store} {id : Id}

/-! ### What is found -/

theorem newestFirst_deleteGame (hids : (s.games.map (·.id)).Nodup) {keep keep' : StoredGame → Bool}
    (hsame : ∀ g, g.id ≠ id → keep' g = keep g) :
    (s.deleteGame id).2.newestFirst keep' = (s.newestFirst keep).filter (·.id ≠ id) := by
  have hgames : ((s.deleteGame id).2.games.filter keep') = (s.games.filter keep).filter (·.id ≠ id) := by
    rw [(s.deleteGame_without id).games, List.filter_filter, List.filter_filter]
    refine List.filter_congr fun g _ => ?_
    by_cases hg : g.id = id
    · simp [hg]
    · simp [hg, hsame g hg]
  have hperm : ((s.deleteGame id).2.newestFirst keep').Perm ((s.newestFirst keep).filter (·.id ≠ id)) := by
    refine (newestFirst_perm _ _).trans ?_
    rw [hgames]
    exact ((s.newestFirst_perm keep).filter _).symm
  have hids' : ((s.deleteGame id).2.games.map (·.id)).Nodup := hids.sublist (List.filter_sublist.map _)
  refine hperm.eq_of_pairwise (fun g k _ _ hgk hkg => absurd hkg (Int.lt_asymm hgk)) (newestFirst_pairwise hids' _) ?_
  exact (newestFirst_pairwise hids keep).filter _

theorem Sound.selected_deleteGame (h : s.Sound tables) (plan : Plan) {game : Id} (hne : game ≠ id) :
    ((s.deleteGame id).2.selected plan).filter (·.game = game) = (s.selected plan).filter (·.game = game) := by
  rw [(deleteGame_sound h id).selected_game, h.selected_game, positionsOf_deleteGame s hne]

theorem Sound.any_selected_deleteGame (h : s.Sound tables) (plan : Plan) {game : Id} (hne : game ≠ id) :
    ((s.deleteGame id).2.selected plan).any (·.game = game) = (s.selected plan).any (·.game = game) := by
  have hany : ∀ ps : List StoredPosition, ps.any (·.game = game) = (ps.filter (·.game = game)).any fun _ => true := by
    intro ps
    rw [List.any_filter]
    simp only [Bool.and_true]
  rw [hany, hany, h.selected_deleteGame plan hne]

theorem Sound.finds_deleteGame (h : s.Sound tables) (filter : GameFilter) (plan : Option Plan) {g : StoredGame}
    (hne : g.id ≠ id) : (s.deleteGame id).2.finds filter plan g = s.finds filter plan g := by
  cases plan with
  | none => rfl
  | some plan => rw [finds, finds, Option.all_some, Option.all_some, h.any_selected_deleteGame plan hne]

theorem Sound.matchOf_deleteGame (h : s.Sound tables) (plan : Option Plan) {g : StoredGame} (hne : g.id ≠ id) :
    (s.deleteGame id).2.matchOf plan g = s.matchOf plan g := by
  cases plan with
  | none => rfl
  | some plan =>
    rw [matchOf, matchOf, Option.map_some, Option.map_some, Option.getD_some, Option.getD_some,
      h.selected_deleteGame plan hne]

/-- After a deletion everything is found that was found before, except the game. -/
theorem Sound.allMatches_deleteGame (h : s.Sound tables) (filter : GameFilter) (plan : Option Plan) :
    (s.deleteGame id).2.allMatches filter plan = (s.allMatches filter plan).filter (·.game.id ≠ id) := by
  rw [Store.allMatches, Store.allMatches,
    newestFirst_deleteGame h.gameIds fun g hne => h.finds_deleteGame filter plan hne, List.filter_map]
  refine List.map_congr_left fun g hg => h.matchOf_deleteGame plan ?_
  exact of_decide_eq_true (List.mem_filter.mp hg).2

/-! ### What can be run -/

/-- A filter that cannot be tried on some game that is left could not be tried before. -/
theorem Sound.failsOnSomeGame_deleteGame (h : s.Sound tables) {filter : GameFilter} {plan : Option Plan}
    (hfails : (s.deleteGame id).2.failsOnSomeGame filter plan = true) : s.failsOnSomeGame filter plan = true := by
  rw [failsOnSomeGame, Bool.and_eq_true] at hfails ⊢
  obtain ⟨hlong, hfails⟩ := hfails
  obtain ⟨g, hg, hfails⟩ := List.any_eq_true.mp hfails
  obtain ⟨hg, hne⟩ := List.mem_filter.mp hg
  refine ⟨hlong, List.any_eq_true.mpr ⟨g, hg, ?_⟩⟩
  cases plan with
  | none => exact hfails
  | some plan => rwa [Option.all_some, h.any_selected_deleteGame plan (of_decide_eq_true hne)] at hfails

theorem Sound.runs_deleteGame (h : s.Sound tables) {filter : GameFilter} {plan : Option Plan}
    (hruns : s.runs filter plan = true) : (s.deleteGame id).2.runs filter plan = true := by
  rw [runs, Bool.and_eq_true, Bool.not_eq_true'] at hruns ⊢
  refine ⟨hruns.1, Bool.eq_false_iff.mpr fun hfails => ?_⟩
  exact absurd (h.failsOnSomeGame_deleteGame hfails) (Bool.eq_false_iff.mp hruns.2)

theorem runs_deleteGame_of_short {filter : GameFilter} (hterms : ∀ c ∈ filter.conditions, c.isTooLong = false)
    (plan : Option Plan) : (s.deleteGame id).2.runs filter plan = s.runs filter plan := by
  rw [runs, runs, failsOnSomeGame_of_short hterms, failsOnSomeGame_of_short hterms]
  rfl

/-! ### Searches -/

/-- A search that fails after a deletion failed before it. -/
theorem Sound.search_deleteGame_error (h : s.Sound tables) {keys : FingerprintKeys} {r : SearchRequest}
    {e : ArchiveError} (herror : (s.deleteGame id).2.search keys r = .error e) : s.search keys r = .error e := by
  have ht := deleteGame_sound h id
  rw [search_error_iff h.owners h.gameIds]
  rcases (search_error_iff ht.owners ht.gameIds).mp herror with hchecked | ⟨plan, hchecked, hstopped, rfl⟩
  · exact Or.inl hchecked
  · refine Or.inr ⟨plan, hchecked, Bool.eq_false_iff.mpr fun hruns => ?_, rfl⟩
    exact Bool.eq_false_iff.mp hstopped (h.runs_deleteGame hruns)

/-- If no term is too long to be looked for, a search fails after a deletion as it did before. -/
theorem Sound.search_error_deleteGame (h : s.Sound tables) {keys : FingerprintKeys} {r : SearchRequest}
    (hterms : ∀ c ∈ r.filter.conditions, c.isTooLong = false) {e : ArchiveError}
    (herror : s.search keys r = .error e) : (s.deleteGame id).2.search keys r = .error e := by
  have ht := deleteGame_sound h id
  rw [search_error_iff ht.owners ht.gameIds]
  rcases (search_error_iff h.owners h.gameIds).mp herror with hchecked | ⟨plan, hchecked, hstopped, rfl⟩
  · exact Or.inl hchecked
  · exact Or.inr ⟨plan, hchecked, (runs_deleteGame_of_short hterms plan).trans hstopped, rfl⟩

/-- What the pages of a search list together is the same after a deletion, but for the game. -/
theorem Sound.search_deleteGame (h : s.Sound tables) (id : Id) {keys : FingerprintKeys} {r : SearchRequest}
    {results : SearchResults} (hsearch : s.search keys r = .ok results) :
    ∃ all, ∀ size, 0 < size → ∃ before after, Paged all (min size maxPageSize) before ∧
      Paged (all.filter (·.game.id ≠ id)) (min size maxPageSize) after ∧
      ∀ k, s.search keys { r with page := k + 1, pageSize := size } = .ok (before k) ∧
        (s.deleteGame id).2.search keys { r with page := k + 1, pageSize := size } = .ok (after k) := by
  have ht := deleteGame_sound h id
  obtain ⟨-, -, plan, hplan, hruns, -⟩ := (search_ok_iff h.owners h.gameIds).mp hsearch
  refine ⟨s.allMatches r.filter plan, fun size hsize => ?_⟩
  obtain ⟨before, hbefore, hgiven⟩ := exists_pages h.owners h.gameIds hplan hruns hsize
  obtain ⟨after, hafter, hleft⟩ := exists_pages ht.owners ht.gameIds hplan (h.runs_deleteGame hruns) hsize
  rw [h.allMatches_deleteGame] at hafter
  exact ⟨before, after, hbefore, hafter, fun k => ⟨hgiven k, hleft k⟩⟩

/-- In every store that operations lead to, a deletion says whether the game was there, and takes the game, its positions
    and their rows, and nothing else; done again it does nothing. Whatever is searched for, all pages together list after
    the deletion what they listed before, without the game. No search fails that did not fail before, and one that failed
    goes on failing unless a term of its filter is too long, which shows only where there is a game to try it on. -/
theorem deletion_answers (h : Reached tables s) (id : Id) :
    ∃ t, s.deleteGame id = (decide (∃ g ∈ s.games, g.id = id), t) ∧ s.Without t id ∧ t.deleteGame id = (false, t) ∧
      ∀ (keys : FingerprintKeys) (r : SearchRequest),
        (∀ results, s.search keys r = .ok results → ∃ all, ∀ size, 0 < size → ∃ before after,
          Paged all (min size maxPageSize) before ∧ Paged (all.filter (·.game.id ≠ id)) (min size maxPageSize) after ∧
          ∀ k, s.search keys { r with page := k + 1, pageSize := size } = .ok (before k) ∧
            t.search keys { r with page := k + 1, pageSize := size } = .ok (after k)) ∧
        (∀ e, t.search keys r = .error e → s.search keys r = .error e) ∧
        ((∀ c ∈ r.filter.conditions, c.isTooLong = false) →
          ∀ e, s.search keys r = .error e → t.search keys r = .error e) := by
  have hs := h.sound
  refine ⟨(s.deleteGame id).2, ?_, s.deleteGame_without id, s.deleteGame_again id, fun keys r =>
    ⟨fun results hresults => hs.search_deleteGame id hresults, fun e he => hs.search_deleteGame_error he,
      fun hterms e he => hs.search_error_deleteGame hterms he⟩⟩
  rw [deleteGame, Prod.mk.injEq, Bool.eq_iff_iff]
  simp

end

/-- Two games that start from different boards, of which the first is deleted. -/
theorem deletion_answers_two_games : ∃ g k t found left kept,
    DecodedGame.ofRaw ⟨.replicate keyCount 0⟩ ⟨⟨[]⟩, [], none⟩ = .ok g ∧
      DecodedGame.ofRaw ⟨.replicate keyCount 0⟩ ⟨⟨[]⟩, [], some "4k3/8/8/8/8/8/8/4K3 w - - 0 1"⟩ = .ok k ∧
      ((empty.insertAll [g]).2.insertAll [k]).2.deleteGame 1 = (true, t) ∧ t.deleteGame 1 = (false, t) ∧
      ((empty.insertAll [g]).2.insertAll [k]).2.search ⟨.replicate keyCount 0⟩
        ⟨.pattern, "8/8/8/8/8/8/4P3", none, .empty, 1, 10⟩ = .ok found ∧ found.games.map (·.game.id) = [1] ∧
      t.search ⟨.replicate keyCount 0⟩ ⟨.pattern, "8/8/8/8/8/8/4P3", none, .empty, 1, 10⟩ = .ok left ∧
      left.games.map (·.game.id) = [] ∧
      t.search ⟨.replicate keyCount 0⟩ ⟨.material, "4k3/8/8/8/8/8/8/4K3", none, .empty, 1, 10⟩ = .ok kept ∧
      kept.games.map (·.game.id) = [2] := by
  have hrun : (do
      let g ← DecodedGame.ofRaw ⟨.replicate keyCount 0⟩ ⟨⟨[]⟩, [], none⟩
      let k ← DecodedGame.ofRaw ⟨.replicate keyCount 0⟩ ⟨⟨[]⟩, [], some "4k3/8/8/8/8/8/8/4K3 w - - 0 1"⟩
      let s := ((empty.insertAll [g]).2.insertAll [k]).2
      let found ← s.search ⟨.replicate keyCount 0⟩ ⟨.pattern, "8/8/8/8/8/8/4P3", none, .empty, 1, 10⟩
      let other ← s.search ⟨.replicate keyCount 0⟩ ⟨.material, "4k3/8/8/8/8/8/8/4K3", none, .empty, 1, 10⟩
      return decide ((∃ g ∈ s.games, g.id = 1) ∧
        (found.games.map (·.game.id) = [1] ∧ found.pagination.totalGames = 1) ∧
        (other.games.map (·.game.id) = [2] ∧ other.pagination.totalGames = 1))) = Except.ok true := by
    decide +kernel
  obtain ⟨g, hg, hrun⟩ := bind_ok_iff.mp hrun
  obtain ⟨k, hk, hrun⟩ := bind_ok_iff.mp hrun
  obtain ⟨found, hfound, hrun⟩ := bind_ok_iff.mp hrun
  obtain ⟨other, hother, hrun⟩ := bind_ok_iff.mp hrun
  obtain ⟨hthere, ⟨hfirst, hone⟩, hsecond, hsingle⟩ := of_decide_eq_true (pure_ok_iff.mp hrun)
  have hreached : Reached (fun _ => True) ((empty.insertAll [g]).2.insertAll [k]).2 :=
    .step (.step .empty trivial (.of_accepted hg _)) trivial (.of_accepted hk _)
  obtain ⟨t, hdeleted, -, hagain, hanswers⟩ := deletion_answers hreached 1
  -- What one page lists is all that is found, and so it is after the deletion.
  have hpage : ∀ mode text results, ((empty.insertAll [g]).2.insertAll [k]).2.search ⟨.replicate keyCount 0⟩
      ⟨mode, text, none, .empty, 1, 10⟩ = .ok results → results.pagination.totalGames = 1 → ∃ left,
        t.search ⟨.replicate keyCount 0⟩ ⟨mode, text, none, .empty, 1, 10⟩ = .ok left ∧
          left.games.map (·.game.id) = (results.games.map (·.game.id)).filter (· ≠ 1) := by
    intro mode text results hresults htotal
    obtain ⟨all, hpages⟩ := (hanswers _ _).1 results hresults
    obtain ⟨before, after, hbefore, hafter, hgiven⟩ := hpages 10 (by decide)
    obtain rfl : results = before 0 := Except.ok.inj (hresults.symm.trans (hgiven 0).1)
    have hlength : all.length = 1 := (hbefore.totalGames 0).symm.trans htotal
    refine ⟨after 0, (hgiven 0).2, ?_⟩
    rw [hafter.first ((List.length_filter_le _ _).trans (by rw [hlength]; decide)),
      hbefore.first (by rw [hlength]; decide), List.filter_map]
    rfl
  obtain ⟨left, hleft, hgone⟩ := hpage _ _ found hfound hone
  obtain ⟨kept, hkept, hstays⟩ := hpage _ _ other hother hsingle
  refine ⟨g, k, t, found, left, kept, hg, hk, by rw [hdeleted, decide_eq_true hthere], hagain, hfound, hfirst, hleft,
    ?_, hkept, ?_⟩
  · rw [hgone, hfirst]
    decide
  · rw [hstays, hsecond]
    decide

end Store
end ChessArchive
