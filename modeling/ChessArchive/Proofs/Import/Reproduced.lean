import ChessArchive.Proofs.Board.Text
import ChessArchive.Proofs.Import.Conservation
import ChessArchive.Proofs.Pgn.Words
import ChessArchive.Proofs.Store.Sound

/-! Stored games, replayed. What is stored of a game that came from a file is enough to come to all of its positions
    again: the moves, which are words, can be told apart in the text that they are stored as, and a start position that
    is not stored was the standard one. -/

namespace ChessArchive

/-- A stored position is the one that a replay comes to with this ply. -/
structure StoredPosition.Shows (p : StoredPosition) (ply : Ply) : Prop where
  number : p.number = ply.number
  san : p.san = ply.san
  board : Fen.parse ply.board.text = .ok ⟨p.board, p.side, p.castling⟩

namespace Store
variable {s t : Store} {gs : List DecodedGame}

/-! ### What is stored of a game -/

/-- The record of a game and its positions, as they are stored. -/
structure Holds (t : Store) (g : DecodedGame) (k : StoredGame) : Prop where
  record : k = g.stored k.id
  positions : ∃ added : List (Id × DecodedPosition), (added.map (·.2)).Perm g.positions ∧
    t.positions.filter (·.game = k.id) = added.map fun e => e.2.stored e.1 k.id

/-- The games that are there after games have been written are those that were there, with their positions, and those
    that have been written. -/
theorem Takes.holds (h : Takes s gs t) (howned : ∀ p ∈ s.positions, ∃ g ∈ s.games, g.id = p.game) :
    (∀ k ∈ s.games, t.positions.filter (·.game = k.id) = s.positions.filter (·.game = k.id)) ∧
      ∀ k ∈ t.games, k ∈ s.games ∨ ∃ g ∈ gs, t.Holds g k := by
  induction h with
  | nil => exact ⟨fun _ _ => rfl, fun k hk => Or.inl hk⟩
  | @cons s u t g gs id hg _ ih =>
    obtain ⟨added, hentered, -⟩ := insertGame_ok hg
    obtain ⟨hold, hnew⟩ := ih (hentered.owners howned)
    have hgames := hentered.games
    refine ⟨fun k hk => ?_, fun k hk => ?_⟩
    · rw [hold k (hgames ▸ List.mem_cons_of_mem _ hk)]
      exact hentered.positions_of_other (Int.ne_of_lt (hentered.newest k hk))
    · rcases hnew k hk with hk | ⟨g', hg', hholds⟩
      · rw [hgames] at hk
        rcases List.mem_cons.mp hk with rfl | hk
        · refine Or.inr ⟨g, List.mem_cons_self, rfl, added, hentered.listed, ?_⟩
          rw [hold _ (hgames ▸ List.mem_cons_self)]
          exact hentered.positions_of_game (hentered.game_ne howned)
        · exact Or.inl hk
      · exact Or.inr ⟨g', List.mem_cons_of_mem _ hg', hholds⟩

/-- The positions of a game come in the order of its plies, whatever their order in the table. -/
theorem Holds.positionsOf {g : DecodedGame} {k : StoredGame} (h : t.Holds g k) {n : Nat}
    (hnum : g.positions.map (·.number) = List.range n) :
    List.Forall₂ (fun p q => ∃ id, q = p.stored id k.id) g.positions (t.positionsOf k.id) := by
  obtain ⟨added, hlisted, hfilter⟩ := h.positions
  -- The added positions can be put in the order of the game with the numbers that they got.
  obtain ⟨sorted, hsorted, hperm⟩ : Relation.Comp (fun ps es => ps = es.map (·.2)) List.Perm g.positions added := by
    rw [List.eq_map_comp_perm]
    exact hlisted.symm
  have hlist : (t.positionsOf k.id).Perm (sorted.map fun e => e.2.stored e.1 k.id) := by
    refine (List.mergeSort_perm _ _).trans ?_
    rw [hfilter]
    exact (hperm.map _).symm
  have hsortedNum : (sorted.map fun e => e.2.stored e.1 k.id).map (·.number) = List.range n := by
    rw [← hnum, hsorted, List.map_map, List.map_map]
    rfl
  have hstoredNum : (t.positionsOf k.id).map (·.number) = List.range n := by
    refine positionsOf_numbers ?_
    rw [← hsortedNum]
    exact (((List.mergeSort_perm _ _).symm.trans hlist).map _)
  have hordered : ∀ {qs : List StoredPosition}, qs.map (·.number) = List.range n →
      qs.Pairwise fun p q => p.number < q.number := fun hqs => List.pairwise_map.mp (hqs ▸ List.pairwise_lt_range)
  have heq := hlist.eq_of_pairwise (fun _ _ _ _ hab hba => absurd hba hab.asymm) (hordered hstoredNum)
    (hordered hsortedNum)
  rw [heq, hsorted, List.forall₂_map_left_iff, List.forall₂_map_right_iff, List.forall₂_same]
  exact fun e _ => ⟨e.1, rfl⟩

end Store

/-! ### Replaying what is stored -/

/-- Moves that are words can be told apart where they are stored as one text. -/
theorem fields_moves {moves : List String} (h : ∀ m ∈ moves, Text.IsWord m.toList) :
    (Text.fields (" ".intercalate moves).toList).map String.ofList = moves := by
  have hwords : ∀ w ∈ moves.map String.toList, Text.IsWord w := by
    intro w hw
    obtain ⟨m, hm, rfl⟩ := List.mem_map.mp hw
    exact h m hm
  rw [String.toList_intercalate]
  refine (congrArg _ (Text.fields_intercalate hwords)).trans ?_
  simp

theorem Replay.run_filter {start : Option String} {moves : List String} {plies : List Ply}
    (h : run start moves = .ok plies) : run (start.filter fun f => Text.trimmed f ≠ Fen.start) moves = .ok plies := by
  obtain ⟨b, hb, h⟩ := bind_ok_iff.mp h
  exact bind_ok_iff.mpr ⟨b, startBoard_filter hb, h⟩

/-- What is stored of a game whose moves are words is enough to replay it. -/
theorem Store.Holds.replayed {t : Store} {keys : FingerprintKeys} {raw : RawGame} {g : DecodedGame} {k : StoredGame}
    (h : t.Holds g k) (hg : DecodedGame.ofRaw keys raw = .ok g) (hwords : ∀ m ∈ raw.moves, Text.IsWord m.toList) :
    ∃ plies, Replay.run k.startFen ((Text.fields k.moves.toList).map String.ofList) = .ok plies ∧
      List.Forall₂ (fun ply p => p.Shows ply) plies (t.positionsOf k.id) := by
  obtain ⟨n, hnum⟩ := (DecodedGame.ofRaw_consistent hg).numbers
  have hstored := h.positionsOf hnum
  have hrecord := h.record
  obtain ⟨plies, positions, hplies, hpositions, rfl⟩ := DecodedGame.ofRaw_ok hg
  refine ⟨plies, ?_, forall₂_trans (fun ply p q hp hq => ?_) hpositions hstored⟩
  · rw [hrecord]
    simp only [DecodedGame.stored]
    rw [fields_moves hwords]
    exact Replay.run_filter hplies
  · obtain ⟨id, rfl⟩ := hq
    obtain ⟨hnumber, hsan, hboard⟩ := DecodedGame.position_ok hp
    exact ⟨hnumber, hsan, hboard⟩

namespace ImportState

/-- What is written in an import are games from its input, decoded. -/
theorem Ledger.written_raw {keys : FingerprintKeys} {s initial : ImportState}
    {written refused dropped : List DecodedGame} {lost : List (List DecodedGame)} (h : Ledger keys s initial written refused lost dropped) :
    ∀ g ∈ written, ∃ raw ∈ initial.input, DecodedGame.ofRaw keys raw = .ok g := by
  intro g hg
  have hmem : g ∈ (DecodedGame.accepted keys s.taken : Multiset DecodedGame) := by
    simp [h.games, hg]
  obtain ⟨raw, hraw, hok⟩ := List.mem_filterMap.mp (Multiset.mem_coe.mp hmem)
  refine ⟨raw, ?_, ?_⟩
  · rw [← h.input]
    exact List.mem_append_left _ (List.mem_reverse.mpr hraw)
  · cases hdecoded : DecodedGame.ofRaw keys raw with
    | ok g' =>
      rw [hdecoded] at hok
      exact congrArg Except.ok (Option.some.inj hok)
    | error cause => simp [hdecoded, Except.toOption] at hok

/-- Every game that an import from a file has stored can be replayed from what is stored of it, and the replay comes to
    its stored positions, one after the other. -/
theorem stored_replayed {keys : FingerprintKeys} {settings : ImportSettings} {archive : Archive}
    (howned : ∀ p ∈ archive.store.positions, ∃ g ∈ archive.store.games, g.id = p.game) {bytes : List UInt8}
    {ending : Pgn.Ending} {inputOpen : Bool} {s : ImportState}
    (h : Run keys settings (fun _ => True) (start settings archive (RawGame.ofSource bytes ending).1 inputOpen) s) :
    ∀ g ∈ s.archive.store.games, g ∉ archive.store.games →
      ∃ plies, Replay.run g.startFen ((Text.fields g.moves.toList).map String.ofList) = .ok plies ∧
        List.Forall₂ (fun ply p => p.Shows ply) plies (s.archive.store.positionsOf g.id) := by
  obtain ⟨written, refused, lost, dropped, hl⟩ := h.ledger
  intro k hk hnew
  rcases (hl.store.holds howned).2 k hk with hold | ⟨g, hg, hholds⟩
  · exact absurd hold hnew
  · obtain ⟨raw, hraw, hdecoded⟩ := hl.written_raw g hg
    exact hholds.replayed hdecoded (RawGame.ofSource_words hraw)

/-- Two moves from a start position of its own, with a variation between them. -/
theorem stored_replayed_two_moves :
    let settings : ImportSettings := ⟨1, 1, 1, 1, 1, 1⟩
    let bytes := "[FEN \"4k3/8/8/8/8/8/4P3/4K3 w - - 0 1\"]\n\n1. e4 (1. Kd2) Kd7 1-0\n".toList.map fun c =>
      UInt8.ofNat c.toNat
    ∃ s g plies, Run ⟨.replicate keyCount 0⟩ settings (fun _ => True)
        (start settings (.ofStore .empty) (RawGame.ofSource bytes .finished).1 false) s ∧
      g ∈ s.archive.store.games ∧ g.moves = "e4 Kd7" ∧ g.startFen = some "4k3/8/8/8/8/8/4P3/4K3 w - - 0 1" ∧
      Replay.run g.startFen ["e4", "Kd7"] = .ok plies ∧
      List.Forall₂ (fun ply p => p.Shows ply) plies (s.archive.store.positionsOf g.id) := by
  intro settings bytes
  have hrun : ((start settings (.ofStore .empty) (RawGame.ofSource bytes .finished).1 false).perform
      ⟨.replicate keyCount 0⟩ settings [.take 0, .decode 0, .send 0, .receive 0, .commit 0 true]).map
      (fun s => s.archive.store.games.map fun g => (g.moves, g.startFen)) =
        some [("e4 Kd7", some "4k3/8/8/8/8/8/4P3/4K3 w - - 0 1")] := by
    decide +kernel
  obtain ⟨s, hs, hgames⟩ := Option.map_eq_some_iff.mp hrun
  obtain ⟨g, hg, hrecord⟩ := List.mem_map.mp (hgames ▸ List.mem_singleton_self _)
  obtain ⟨hmoves, hstart⟩ := Prod.mk.inj hrecord
  have hreached := perform_run .start hs
  obtain ⟨plies, hplies, hshown⟩ := stored_replayed Store.empty_linked.games hreached g hg
    (by simp [Archive.ofStore, Store.empty])
  have htokens : (Text.fields g.moves.toList).map String.ofList = ["e4", "Kd7"] := by
    rw [hmoves]
    decide
  rw [htokens] at hplies
  exact ⟨s, g, plies, hreached, hg, hmoves, hstart, hplies, hshown⟩

end ImportState
end ChessArchive
