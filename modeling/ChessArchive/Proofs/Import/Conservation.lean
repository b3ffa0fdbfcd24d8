import ChessArchive.Proofs.Import.Ledger
import ChessArchive.Proofs.Import.Progress
import ChessArchive.Proofs.Store.Contents

/-! What an import has done when it is finished. Actions are listed here in the order in which they happen, so that one
    can say whether the import was cancelled among them and which batches they lost. -/

namespace ChessArchive
namespace ImportState

/-! ### At the end -/

section
variable {keys : FingerprintKeys} {settings : ImportSettings} {s initial : ImportState}
  {written refused : List DecodedGame} {lost : List (List DecodedGame)} {dropped : List DecodedGame}

theorem carried_of_stopped (keys : FingerprintKeys) (h : s.decodersStopped = true) :
    s.carried keys = 0 ∧ s.owed keys = 0 := by
  rw [decodersStopped_iff] at h
  constructor <;> refine List.sum_eq_zero fun x hx => ?_
  all_goals
    obtain ⟨d, hd, rfl⟩ := List.mem_map.mp hx
    rw [h d hd]
    rfl

theorem InOrder.batched_of_done (h : s.InOrder settings) (hw : s.writersDone = true) :
    s.batched = 0 ∧ ∀ f : BatchOutcome → Nat, f (.committed 0 0) = 0 → s.pending f = 0 := by
  rw [writersDone_iff] at hw
  refine ⟨List.sum_eq_zero fun x hx => ?_, fun f hf => List.sum_eq_zero fun x hx => ?_⟩
  · obtain ⟨w, hmem, rfl⟩ := List.mem_map.mp hx
    have horder := h.writers w hmem
    rw [Writer.Orderly, hw w hmem] at horder
    rw [horder, Multiset.coe_nil]
  · obtain ⟨w, hmem, rfl⟩ := List.mem_map.mp hx
    rw [hw w hmem]
    exact hf

/-- When the import is finished no worker has a game and no outcome is left to be counted. -/
theorem Ledger.settled (h : Ledger keys s initial written refused lost dropped) (ho : s.InOrder settings)
    (hf : s.finished = true) :
    (DecodedGame.accepted keys s.taken).Perm (written ++ refused ++ lost.flatten ++ dropped) ∧
    s.counters = ⟨written.length, DecodedGame.rejected keys s.taken + refused.length + lost.flatten.length,
      dropped.length⟩ ∧
    s.errors.length = lost.length := by
  obtain ⟨hstopped, hdone, hqueue⟩ := ho.closed (ho.finished hf)
  obtain ⟨hcarried, howed⟩ := carried_of_stopped keys hstopped
  obtain ⟨hbatched, hpending⟩ := ho.batched_of_done hdone
  refine ⟨?_, ?_, ?_⟩
  · have hgames := h.games
    simp only [hcarried, hqueue, hbatched, Multiset.coe_nil, zero_add, Multiset.coe_add] at hgames
    exact Multiset.coe_eq_coe.mp hgames
  · have himported := h.imported
    have hfailed := h.failed
    rw [hpending _ rfl, Nat.add_zero] at himported hfailed
    rw [howed, Nat.add_zero] at hfailed
    rw [← himported, ← hfailed, ← h.discarded]
  · have herrors := h.errors
    rwa [hpending _ rfl, Nat.add_zero] at herrors

end

/-! ### Lists of actions -/

section
variable (keys : FingerprintKeys) (settings : ImportSettings)

/-- The state that actions lead to, if each of them is possible in its turn. -/
def perform (s : ImportState) : List ImportAction → Option ImportState
  | [] => some s
  | a :: rest => (s.step keys settings a).bind fun t => t.perform rest

/-- The batches that actions lose. -/
def losses (s : ImportState) : List ImportAction → List (List DecodedGame)
  | [] => []
  | a :: rest => s.lostBatches a ++ ((s.step keys settings a).map fun t => t.losses rest).getD []

variable {keys settings}
variable {s t initial : ImportState} {a : ImportAction} {actions : List ImportAction}

theorem perform_cons (h : s.perform keys settings (a :: actions) = some t) :
    ∃ u, Move keys settings s a u ∧ s.step keys settings a = some u ∧ u.perform keys settings actions = some t := by
  obtain ⟨u, hu, ht⟩ := Option.bind_eq_some_iff.mp h
  exact ⟨u, (step_iff.mp hu).2, hu, ht⟩

theorem perform_run (hs : Run keys settings (fun _ => True) initial s)
    (h : s.perform keys settings actions = some t) : Run keys settings (fun _ => True) initial t := by
  induction actions generalizing s with
  | nil =>
    cases h
    exact hs
  | cons a actions ih =>
    obtain ⟨u, -, hu, ht⟩ := perform_cons h
    exact ih (hs.step a trivial hu) ht

/-- The batches that actions lose are those that the ledger has as lost, and none of the actions drops a game without
    counting it. -/
theorem Ledger.perform {written refused dropped : List DecodedGame} {lost : List (List DecodedGame)}
    (hl : Ledger keys s initial written refused lost dropped) (h : s.perform keys settings actions = some t) :
    (∃ written' refused' dropped',
      Ledger keys t initial written' refused' (lost ++ s.losses keys settings actions) dropped') ∧
    ∀ i, .abandon i ∉ actions := by
  induction actions generalizing s written refused lost dropped with
  | nil =>
    cases h
    exact ⟨⟨written, refused, dropped, by simpa [losses] using hl⟩, nofun⟩
  | cons a actions ih =>
    obtain ⟨u, hm, hu, ht⟩ := perform_cons h
    obtain ⟨written', refused', dropped', hl'⟩ := hl.move hm
    obtain ⟨hend, hnone⟩ := ih hl' ht
    refine ⟨by simpa [losses, hu] using hend, fun i hi => ?_⟩
    rcases List.mem_cons.mp hi with rfl | hi
    · cases hm with
      | abandon hd _ hclosed =>
        exact absurd (decodersStopped_iff.mp (hl.closed hclosed) _ (List.mem_of_getElem? hd)) nofun
    · exact hnone i hi

theorem Move.cancelled (hm : Move keys settings s a t) : t.cancelled = true ↔ s.cancelled = true ∨ a = .cancel := by
  have hframe (u : ImportState) (label : String) :
      (u.snapshot settings.progressCapacity label).cancelled = u.cancelled := by
    obtain ⟨received, h⟩ := snapshot_frame u settings.progressCapacity label
    rw [h]
  cases hm <;> simp [ImportState.finish, ImportState.drain, setDecoder, setWriter, hframe]

theorem perform_cancelled (h : s.perform keys settings actions = some t) :
    t.cancelled = true ↔ s.cancelled = true ∨ .cancel ∈ actions := by
  induction actions generalizing s with
  | nil =>
    cases h
    simp
  | cons a actions ih =>
    obtain ⟨u, hm, -, ht⟩ := perform_cons h
    rw [ih ht, hm.cancelled, List.mem_cons, or_assoc, eq_comm (a := a)]

end

/-! ### Every game is accounted for -/

/-- What a finished import has done to the games it took from its input: some were written, and all others were
    counted as failed or discarded and left nothing behind. The lost games are those whose transaction failed. -/
structure Accounted (keys : FingerprintKeys) (before : Store) (lost : List DecodedGame) (s : ImportState) : Prop where
  total : s.counters.imported + s.counters.failed + s.counters.discarded = s.taken.length
  places : ∃ written refused dropped,
    (DecodedGame.accepted keys s.taken).Perm (written ++ refused ++ lost ++ dropped) ∧
    s.counters.imported = written.length ∧
    s.counters.failed = DecodedGame.rejected keys s.taken + refused.length + lost.length ∧
    s.counters.discarded = dropped.length ∧
    s.archive.store.contents = before.contents + (written.map (·.content) : List GameContent)
  kept : s.archive.store.Extends before

theorem Ledger.accounted {keys : FingerprintKeys} {settings : ImportSettings} {s initial : ImportState}
    {written refused dropped : List DecodedGame} {lost : List (List DecodedGame)}
    (h : Ledger keys s initial written refused lost dropped) (ho : s.InOrder settings) (hf : s.finished = true)
    (hlinked : initial.archive.store.Linked) (hkeep : initial.archive.store.damage.lostSquares = []) :
    Accounted keys initial.archive.store lost.flatten s := by
  obtain ⟨hperm, hcounters, -⟩ := h.settled ho hf
  obtain ⟨hcontents, hextends⟩ := h.store.grows hlinked hkeep
  refine ⟨?_, ⟨written, refused, dropped, hperm, ?_, ?_, ?_, hcontents⟩, hextends⟩
  · have hall := @DecodedGame.accepted_add_rejected keys s.taken
    have hlength := hperm.length_eq
    simp only [List.length_append] at hlength
    rw [hcounters]
    simp only
    omega
  all_goals rw [hcounters]

theorem status_eq (s : ImportState) :
    ((∃ e, s.status = .failed e) ↔ s.errors ≠ []) ∧
    (s.status = .cancelled ↔ s.errors = [] ∧ s.cancelled = true) ∧
    (s.status = .completed ↔ s.errors = [] ∧ s.cancelled = false) := by
  unfold status
  cases s.errors with
  | nil => cases s.cancelled <;> simp
  | cons e errors => simp

/-- Nothing is lost, counted twice or written in part: whatever the order of the actions is, whenever the import is
    cancelled, and whichever transactions fail. No decoder drops a game without counting it, and unless the import is
    finished it can go on. -/
theorem import_accounted (keys : FingerprintKeys) (settings : ImportSettings) {archive : Archive}
    (hlinked : archive.store.Linked) (hkeep : archive.store.damage.lostSquares = []) {games : List RawGame}
    {inputOpen : Bool} {actions : List ImportAction} {s : ImportState}
    (h : (start settings.normalized archive games inputOpen).perform keys settings.normalized actions = some s) :
    s.taken.reverse ++ s.input = games ∧
    (∀ i, .abandon i ∉ actions) ∧
    (s.finished = false → ∃ a t, a.Smooth ∧ s.step keys settings.normalized a = some t ∧ t ≠ s) ∧
    (s.finished = true →
      let lost := (start settings.normalized archive games inputOpen).losses keys settings.normalized actions
      Accounted keys archive.store lost.flatten s ∧
      ((∃ e, s.status = .failed e) ↔ lost ≠ []) ∧
      (s.status = .cancelled ↔ lost = [] ∧ .cancel ∈ actions) ∧
      (s.status = .completed ↔ lost = [] ∧ .cancel ∉ actions)) := by
  have hcrew : 0 < settings.normalized.writerWorkers := Nat.le_max_right _ _
  have hbatch : 0 < settings.normalized.batchSize := Nat.le_max_right _ _
  have hcap : 0 < settings.normalized.queueCapacity := Nat.le_max_right _ _
  have horder := (perform_run .start h).inOrder hbatch
  obtain ⟨⟨written, refused, dropped, hl⟩, habandon⟩ := ledger_start.perform h
  rw [List.nil_append] at hl
  refine ⟨hl.input, habandon, fun hf => horder.progress keys hcap hcrew hf, fun hf => ?_⟩
  have hcancel : s.cancelled = true ↔ .cancel ∈ actions := by
    rw [perform_cancelled h, start, Bool.false_eq_true, false_or]
  have herrors : s.errors = [] ↔
      (start settings.normalized archive games inputOpen).losses keys settings.normalized actions = [] := by
    obtain ⟨-, -, hlength⟩ := hl.settled horder hf
    rw [← List.length_eq_zero_iff, hlength, List.length_eq_zero_iff]
  obtain ⟨hfailed, hcancelled, hcompleted⟩ := s.status_eq
  refine ⟨hl.accounted horder hf hlinked hkeep, ?_, ?_, ?_⟩
  · rw [hfailed, ne_eq, herrors]
  · rw [hcancelled, herrors, hcancel]
  · rw [hcompleted, herrors, ← Bool.not_eq_true, hcancel]

/-- Of three games one is lost with its transaction, one is discarded, and one is never taken. -/
theorem import_accounted_three_games :
    ∃ s, (start (ImportSettings.normalized ⟨0, 0, 0, 0, 0, 0⟩) (.ofStore .empty)
        (.replicate 3 ⟨⟨[]⟩, [], none⟩) false).perform ⟨.replicate keyCount 0⟩
        (ImportSettings.normalized ⟨0, 0, 0, 0, 0, 0⟩)
        [.take 0, .decode 0, .send 0, .receive 0, .take 0, .commit 0 false, .decode 0, .report 0, .cancel, .discard 0,
          .leave 0, .drain, .finish] = some s ∧
      s.finished = true ∧ s.counters = ⟨0, 1, 1⟩ ∧ s.status = .failed .transaction ∧ s.taken.length = 2 ∧
      s.archive.store.contents = 0 := by
  have hrun : ((start (ImportSettings.normalized ⟨0, 0, 0, 0, 0, 0⟩) (.ofStore .empty)
      (.replicate 3 ⟨⟨[]⟩, [], none⟩) false).perform ⟨.replicate keyCount 0⟩
      (ImportSettings.normalized ⟨0, 0, 0, 0, 0, 0⟩)
      [.take 0, .decode 0, .send 0, .receive 0, .take 0, .commit 0 false, .decode 0, .report 0, .cancel, .discard 0,
        .leave 0, .drain, .finish]).map (fun s => (s.finished, s.counters, s.status)) =
        some (true, ⟨0, 1, 1⟩, .failed .transaction) := by
    decide +kernel
  obtain ⟨s, hs, heq⟩ := Option.map_eq_some_iff.mp hrun
  simp only [Prod.mk.injEq] at heq
  obtain ⟨hf, hcounters, hstatus⟩ := heq
  obtain ⟨-, -, -, hend⟩ := @import_accounted ⟨.replicate keyCount 0⟩ ⟨0, 0, 0, 0, 0, 0⟩ (.ofStore .empty)
    Store.empty_linked rfl _ _ _ _ hs
  obtain ⟨haccounted, -⟩ := hend hf
  obtain ⟨written, -, -, -, himported, -, -, hcontents⟩ := haccounted.places
  have htotal := haccounted.total
  rw [hcounters] at himported htotal
  obtain rfl := List.eq_nil_of_length_eq_zero himported.symm
  refine ⟨s, hs, hf, hcounters, hstatus, htotal.symm, ?_⟩
  simpa [Archive.ofStore, Store.contents, Store.empty] using hcontents

end ImportState
end ChessArchive
