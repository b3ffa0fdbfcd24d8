import ChessArchive.Proofs.Search.Answers
import ChessArchive.Proofs.Search.Limits

/-! Searches for a position. Whatever text a position is given by, its fingerprint is the one that is stored with the same
    position, so the search finds it. -/

namespace ChessArchive

/-- A position text stands for a stored position: the same pieces on the same squares, the same side to move and the
    same castling flags. -/
structure Fen.Denotes (fen : Fen) (p : StoredPosition) : Prop where
  board : ∃ standing placed, Placement.decode fen.placement = .ok standing ∧ Placement.decode p.board = .ok placed ∧
    ∀ e, e ∈ standing ↔ e ∈ placed
  side : fen.side = p.side
  castling : fen.castling = p.castling

theorem Fen.Denotes.fingerprint {keys : FingerprintKeys} {text : String} {fen : Fen} {p : StoredPosition}
    (h : fen.Denotes p) (hfen : Fen.parse text = .ok fen) (hp : p.Derived keys) :
    keys.ofFenText text = .ok p.fingerprint := by
  obtain ⟨standing, placed, hstanding, hplaced, hsame⟩ := h.board
  obtain rfl : standing = placed :=
    Placement.eq_of_mem_iff (Placement.decode_squares hstanding) (Placement.decode_squares hplaced) fun _ _ => hsame _
  have hstored : p.fingerprint = keys.ofOccupied standing fen.side fen.castling := by
    obtain ⟨occupied, hocc, hvalue⟩ := bind_ok_iff.mp hp.fingerprint
    obtain rfl : occupied = standing := Except.ok.inj (hocc.symm.trans hplaced)
    rw [h.side, h.castling]
    exact (pure_ok_iff.mp hvalue).symm
  rw [hstored]
  exact bind_ok_iff.mpr ⟨fen, hfen, bind_ok_iff.mpr ⟨standing, hstanding, rfl⟩⟩

theorem Plan.holds_ofFingerprint (v : UInt64) (p : StoredPosition) :
    (ofFingerprint v).holds p = decide (p.fingerprint = v) := by
  have hconditions : (ofFingerprint v).conditions = [.fingerprint v] := rfl
  simp [holds, isNothing, hconditions, Condition.holds]

/-- A match is on one of the pages that there are. -/
theorem Paged.exists_page {all : List GameMatch} {size : Nat} {pages : Nat → SearchResults} (h : Paged all size pages)
    {m : GameMatch} (hm : m ∈ all) : ∃ k < (pages k).pagination.totalPages, m ∈ (pages k).games := by
  rw [← h.joined] at hm
  obtain ⟨k, hk, hmem⟩ := List.mem_flatMap.mp hm
  exact ⟨k, (h.totalPages k).symm ▸ List.mem_range.mp hk, hmem⟩

namespace Store
variable {tables : FingerprintKeys → Prop} {keys : FingerprintKeys} {s : Store}

/-- A request for a fingerprint is answered, and the answer has all positions with that fingerprint. -/
theorem Sound.fingerprint_pages (h : s.Sound tables) {r : SearchRequest} {v : UInt64}
    (hplan : r.plan keys = .ok (some (.ofFingerprint v))) (hfilter : r.filter.isEmpty = true) (hsize : 0 < r.pageSize) :
    ∃ all pages, Paged all r.effectiveSize pages ∧ s.Answers r.filter (fun p => p.fingerprint = v) all ∧
      ∀ k, s.search keys { r with page := k + 1 } = .ok (pages k) := by
  have hnone : (Plan.ofFingerprint v).lookups = 0 := rfl
  have hfew := Plan.joinedTables_le (hnone.trans_le (Nat.zero_le 1)) r.filter
  have hanswers := h.answers r.filter fun p _ => Plan.holds_ofFingerprint v p
  obtain ⟨pages, hpaged, hsearch⟩ := h.pages_or_refused hplan hfew hsize
  refine ⟨_, pages, hpaged, hanswers, hsearch.resolve_right ?_⟩
  rintro ⟨⟨c, hc, -⟩, -⟩
  rw [GameFilter.conditions_of_isEmpty hfilter] at hc
  exact absurd hc List.not_mem_nil

/-- The exclusive or of two fingerprints is that of the keys, one for each trait, of all traits that one position has and
    the other has not, so texts that say the same of a position have the same fingerprint. In every store that operations
    with one key table lead to, whatever text denotes a stored position, an exact search for it succeeds, counts the game
    of the position, and lists the position on the page of that game. -/
theorem exact_search_finds {keys : FingerprintKeys} :
    (Function.Bijective Trait.slot ∧ ∀ t, keys.key t = keys.words.get t.slot) ∧
    (∀ {text other : String} {fen fen' : Fen}, Fen.parse text = .ok fen → Fen.parse other = .ok fen' →
      ∃ placed standing v w, Placement.decode fen.placement = .ok placed ∧
        Placement.decode fen'.placement = .ok standing ∧ keys.ofFenText text = .ok v ∧ keys.ofFenText other = .ok w ∧
        (∃ differing : Finset Trait, v ^^^ w = xorOver keys.key differing ∧ ∀ t, t ∈ differing ↔
          ¬ (t.Holds placed fen.side fen.castling ↔ t.Holds standing fen'.side fen'.castling)) ∧
        (Fen.Alike text other → v = w)) ∧
    ∀ {s : Store}, Reached (· = keys) s → ∀ p ∈ s.positions, ∀ {r : SearchRequest} {fen : Fen}, r.mode = .exact →
      r.filter.isEmpty = true → 0 < r.pageSize → Fen.parse r.pattern = .ok fen → fen.Denotes p →
      ∃ all pages, Paged all r.effectiveSize pages ∧ all.Pairwise (fun m k => k.game.id < m.game.id) ∧
        (∀ k, s.search keys { r with page := k + 1 } = .ok (pages k)) ∧
        ∃ m ∈ all, m.game.id = p.game ∧ ⟨p.number, p.san⟩ ∈ m.positions ∧
          ∃ k < (pages k).pagination.totalPages, m ∈ (pages k).games := by
  refine ⟨⟨Trait.slot_bijective, keys.key_eq⟩, ?_, ?_⟩
  · intro text other fen fen' hfen hfen'
    obtain ⟨placed, hplaced, hv⟩ := keys.ofFenText_ok hfen
    obtain ⟨standing, hstanding, hw⟩ := keys.ofFenText_ok hfen'
    refine ⟨placed, standing, _, _, hplaced, hstanding, hv, hw, ⟨_, xorOver_symmDiff _ _, fun t => ?_⟩, fun halike => ?_⟩
    · rw [Finset.mem_symmDiff, mem_traits, mem_traits]
      tauto
    · obtain ⟨hboard, hside, hcastling⟩ := halike.read hfen hfen'
      rw [hplaced, hstanding] at hboard
      rw [Except.ok.inj hboard, hside, hcastling]
  · intro s h p hp r fen hmode hfilter hsize hfen hdenotes
    have hs := h.sound
    obtain ⟨k, rfl, hderived⟩ := hs.derived p hp
    have hplan : r.plan k = .ok (some (.ofFingerprint p.fingerprint)) := by
      simp only [SearchRequest.plan, hmode, hdenotes.fingerprint hfen hderived, Except.mapError, Except.map]
    obtain ⟨all, pages, hpaged, hanswers, hpages⟩ := hs.fingerprint_pages hplan hfilter hsize
    obtain ⟨g, hg, hgame⟩ := hs.owners p hp
    have hpasses : r.filter.passes g.metadata = true := by
      simp [GameFilter.passes, GameFilter.conditions_of_isEmpty hfilter]
    obtain ⟨m, hm, rfl⟩ := (hanswers.games g).mpr ⟨hg, hpasses, p, hp, hgame.symm, by simp⟩
    have hlisted := (hanswers.positions m hm _).mpr ⟨p, hp, hgame.symm, by simp, rfl⟩
    exact ⟨all, pages, hpaged, hanswers.newest, hpages, m, hm, hgame, hlisted, hpaged.exists_page hm⟩

/-- The start of a game is found by a text with other skip digits, castling letters and clocks. -/
theorem exact_search_finds_start : ∃ g all pages,
    DecodedGame.ofRaw ⟨.replicate keyCount 0⟩ ⟨⟨[]⟩, ["e4"], none⟩ = .ok g ∧ Paged all 20 pages ∧
      (∀ k, (empty.insertAll [g]).2.search ⟨.replicate keyCount 0⟩ ⟨.exact,
        "rnbqkbnr/pppppppp/8/44/8/233/PPPPPPPP/RNBQKBNR w qQkKK e3 7 9", none, .empty, k + 1, 20⟩ = .ok (pages k)) ∧
      (∃ m ∈ all, ⟨0, none⟩ ∈ m.positions) ∧
      ∃ v, FingerprintKeys.ofFenText ⟨.replicate keyCount 0⟩ "k7/8/8/44/8/8/8/8 b qKK e3 7 9" = .ok v ∧
        FingerprintKeys.ofFenText ⟨.replicate keyCount 0⟩ "k7/8/8/8/8/8/8/8 b Kq" = .ok v := by
  obtain ⟨g, hg, p, hp, hnumber, hsan, hboard, hside, hcastling⟩ : ∃ g,
      DecodedGame.ofRaw ⟨.replicate keyCount 0⟩ ⟨⟨[]⟩, ["e4"], none⟩ = .ok g ∧
        ∃ p ∈ (empty.insertAll [g]).2.positions, p.number = 0 ∧ p.san = none ∧
          p.board = "rnbqkbnr/pppppppp/8/8/8/8/PPPPPPPP/RNBQKBNR" ∧ p.side = .white ∧
          p.castling = ⟨true, true, true, true⟩ :=
    exists_ok_of_all (by decide +kernel)
  obtain ⟨placed, hplaced, hsame⟩ : ∃ placed,
      Placement.decode "rnbqkbnr/pppppppp/8/44/8/233/PPPPPPPP/RNBQKBNR" = .ok placed ∧
        Placement.decode "rnbqkbnr/pppppppp/8/8/8/8/PPPPPPPP/RNBQKBNR" = .ok placed :=
    exists_ok_of_all (by decide +kernel)
  have hfen : Fen.parse "rnbqkbnr/pppppppp/8/44/8/233/PPPPPPPP/RNBQKBNR w qQkKK e3 7 9" =
      .ok ⟨"rnbqkbnr/pppppppp/8/44/8/233/PPPPPPPP/RNBQKBNR", .white, ⟨true, true, true, true⟩⟩ := by
    decide +kernel
  have hdenotes : Fen.Denotes ⟨"rnbqkbnr/pppppppp/8/44/8/233/PPPPPPPP/RNBQKBNR", .white, ⟨true, true, true, true⟩⟩ p :=
    ⟨⟨placed, placed, hplaced, hboard ▸ hsame, fun _ => Iff.rfl⟩, hside.symm, hcastling.symm⟩
  have hreached : Reached (· = ⟨.replicate keyCount 0⟩) (empty.insertAll [g]).2 := .step .empty rfl (.of_accepted hg _)
  obtain ⟨all, pages, hpaged, -, hpages, m, hm, -, hlisted, -⟩ := exact_search_finds.2.2 hreached p hp
    (r := ⟨.exact, "rnbqkbnr/pppppppp/8/44/8/233/PPPPPPPP/RNBQKBNR w qQkKK e3 7 9", none, .empty, 1, 20⟩) rfl
    (by decide) (by decide) hfen hdenotes
  rw [hnumber, hsan] at hlisted
  have halike : Fen.Alike "k7/8/8/44/8/8/8/8 b qKK e3 7 9" "k7/8/8/8/8/8/8/8 b Kq" := by
    refine ⟨⟨[.put ⟨.black, .king⟩, .skip 7 (by decide)] :: .replicate 2 [.skip 8 (by decide)] ++
        [.skip 4 (by decide), .skip 4 (by decide)] :: .replicate 4 [.skip 8 (by decide)],
      [.put ⟨.black, .king⟩, .skip 7 (by decide)] :: .replicate 7 [.skip 8 (by decide)], ?_, ?_, ?_⟩, ?_, ?_⟩
    · decide
    · decide +kernel
    · decide +kernel
    · decide +kernel
    · have hletters : Fen.castlingLetters "k7/8/8/44/8/8/8/8 b qKK e3 7 9" = ['q', 'K', 'K'] := by decide +kernel
      have hletters' : Fen.castlingLetters "k7/8/8/8/8/8/8/8 b Kq" = ['K', 'q'] := by decide +kernel
      simp [hletters, hletters']
  have hking : Fen.parse "k7/8/8/44/8/8/8/8 b qKK e3 7 9" =
      .ok ⟨"k7/8/8/44/8/8/8/8", .black, ⟨true, false, false, true⟩⟩ := by
    decide +kernel
  have hking' : Fen.parse "k7/8/8/8/8/8/8/8 b Kq" = .ok ⟨"k7/8/8/8/8/8/8/8", .black, ⟨true, false, false, true⟩⟩ := by
    decide +kernel
  obtain ⟨-, -, v, w, -, -, hv, hw, -, hequal⟩ := exact_search_finds.2.1 hking hking'
  exact ⟨g, all, pages, hg, hpaged, hpages, ⟨m, hm, hlisted⟩, v, hv, hequal halike ▸ hw⟩

end Store
end ChessArchive
