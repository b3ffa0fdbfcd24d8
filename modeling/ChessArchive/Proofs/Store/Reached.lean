import ChessArchive.Proofs.Import.Ledger
import ChessArchive.Proofs.Store.Sound

/-! The stores that operations lead to. Whatever is done to an empty store, in whatever order, its records and its
    index stay in order. -/

namespace ChessArchive
namespace Store

/-- What an operation makes of a store. An import may be left in any state that it can come to; a search changes
    nothing. -/
inductive Step (keys : FingerprintKeys) (s : Store) : Store → Prop where
  | imported {settings : ImportSettings} {input : List RawGame} {inputOpen : Bool} {i : ImportState} :
      ImportState.Run keys settings (fun _ => True) (.start settings (.ofStore s) input inputOpen) i →
      Step keys s i.archive.store
  | deleted (id : Id) : Step keys s (s.deleteGame id).2
  | rebuilt {report : MaintenanceReport} {t : Store} : s.rebuildIndex = .ok (report, t) → Step keys s t
  | repaired {report : MaintenanceReport} {t : Store} : s.fixMissingIndex = .ok (report, t) → Step keys s t
  | opened {fresh : FingerprintKeys} {t : Store} : s.openKeys fresh = .ok (keys, t) → Step keys s t
  | searched {r : SearchRequest} {results : SearchResults} : s.search keys r = .ok results → Step keys s s

/-- The stores that operations lead to from an empty one, each of them with a key table of a kind. -/
inductive Reached (tables : FingerprintKeys → Prop) : Store → Prop where
  | empty : Reached tables .empty
  | step {keys : FingerprintKeys} {s t : Store} : Reached tables s → tables keys → Step keys s t → Reached tables t

section
variable {tables : FingerprintKeys → Prop} {keys : FingerprintKeys} {s t : Store}

theorem Sound.ready (h : s.Sound tables) : (Archive.ofStore s).Ready := ⟨rfl, rfl, h.linked, h.undamaged⟩

theorem Sound.insertAll (h : s.Sound tables) (hk : tables keys) {gs : List DecodedGame}
    (hgs : ∀ g ∈ gs, g.Consistent keys) : (s.insertAll gs).2.Sound tables :=
  (insertAll_consistent (fun hs _ hg hi => hi.sound hs hk hg) hgs h h.linked h.undamaged).1

/-- Every operation keeps a store in order. -/
theorem Step.sound (h : s.Sound tables) (hk : tables keys) (hs : Step keys s t) : t.Sound tables := by
  cases hs with
  | imported hrun =>
    obtain ⟨written, refused, lost, dropped, hl⟩ := hrun.ledger
    have hstore : (s.insertAll written).2 = _ := hl.store.insertAll
    exact hstore ▸ h.insertAll hk hl.consistent_written
  | deleted id => exact deleteGame_sound h id
  | rebuilt ht => exact rebuildIndex_sound h.toRecorded ht
  | repaired ht => exact fixMissingIndex_sound h ht
  | opened ht => exact openKeys_sound h ht
  | searched _ => exact h

theorem Reached.sound (h : Reached tables s) : s.Sound tables := by
  induction h with
  | empty => exact empty_sound
  | step _ hk hs ih => exact hs.sound ih hk

/-! ### A store with one game -/

theorem Step.of_accepted {raw : RawGame} {g : DecodedGame} (h : DecodedGame.ofRaw keys raw = .ok g) (s : Store) :
    Step keys s (s.insertAll [g]).2 := by
  let settings : ImportSettings := ⟨1, 1, 1, 1, 1, 1⟩
  have started : ImportState.Run keys settings (fun _ => True) (.start settings (.ofStore s) [raw] false) _ := .start
  have taken := started.step (.take 0) trivial rfl
  have decoded := taken.step (.decode 0) trivial (ImportState.move_step rfl (.accept rfl h))
  have sent := decoded.step (.send 0) trivial rfl
  have received := sent.step (.receive 0) trivial rfl
  exact .imported (received.step (.commit 0 true) trivial rfl)

end

/-! ### What holds of every store -/

/-- Positions belong to games, the positions of a game are numbered from 0 on without a gap, everything in a position
    is derived from its board, the index has one row for each piece of each board and no other row, and so a coverage
    report has nothing to object to. -/
theorem reached_invariant {keys : FingerprintKeys} {s : Store} (h : Reached (· = keys) s) :
    (∀ p ∈ s.positions, ∃ g ∈ s.games, g.id = p.game) ∧
      (∀ g ∈ s.games, ∃ n, (s.positionsOf g.id).map (·.number) = List.range (n + 1)) ∧
      (∀ p ∈ s.positions, p.Derived keys ∧ s.Indexed p) ∧
      (∀ r ∈ s.rows, ∃ p ∈ s.positions, p.id = r.position) ∧
      ∃ report, s.coverage = .ok report ∧ report.mismatches = [] := by
  have hs := h.sound
  refine ⟨hs.owners, hs.numbers, fun p hp => ⟨?_, hs.indexed p hp⟩, hs.rows, hs.coverage⟩
  obtain ⟨k, rfl, hderived⟩ := hs.derived p hp
  exact hderived

theorem reached_invariant_one_game : ∃ g, DecodedGame.ofRaw ⟨.replicate keyCount 0⟩ ⟨⟨[]⟩, ["e4"], none⟩ = .ok g ∧
    Reached (· = ⟨.replicate keyCount 0⟩) (empty.insertAll [g]).2 ∧ g.positions.length = 2 ∧
      ∃ report, (empty.insertAll [g]).2.coverage = .ok report ∧ report.mismatches = [] := by
  obtain ⟨g, hg, hlen⟩ : ∃ g, DecodedGame.ofRaw ⟨.replicate keyCount 0⟩ ⟨⟨[]⟩, ["e4"], none⟩ = .ok g ∧
      g.positions.length = 2 := exists_ok_of_all (by decide +kernel)
  have hreached : Reached (· = ⟨.replicate keyCount 0⟩) (empty.insertAll [g]).2 := .step .empty rfl (.of_accepted hg _)
  obtain ⟨-, -, -, -, hcoverage⟩ := reached_invariant hreached
  exact ⟨g, hg, hreached, hlen, hcoverage⟩

end Store
end ChessArchive
