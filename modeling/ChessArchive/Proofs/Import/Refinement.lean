import Mathlib.Order.WellFounded
import ChessArchive.Proofs.Import.Conservation

/-! An import that is not cancelled and whose transactions do not fail does what writing its games one after the other
    would do, whatever its settings are and whatever order its workers take. -/

namespace ChessArchive
namespace ImportState

/-- The import was not cancelled, no transaction has failed, and nothing was discarded. -/
structure Untroubled (s : ImportState) : Prop where
  cancelled : s.cancelled = false
  discarded : s.counters.discarded = 0
  writers : ∀ w ∈ s.writers, w.errors = [] ∧ w.phase.outcome.errors = []

section
variable {keys : FingerprintKeys} {settings : ImportSettings} {s t initial : ImportState} {a : ImportAction}
  {written refused : List DecodedGame} {lost : List (List DecodedGame)} {dropped : List DecodedGame}

theorem Untroubled.writer_moves (h : s.Untroubled) {j : Nat} {v : Writer} (hwriters : t.writers = s.writers.set j v)
    (hcancelled : t.cancelled = s.cancelled) (hdiscarded : t.counters.discarded = s.counters.discarded)
    (herrors : v.errors = []) (hpending : v.phase.outcome.errors = []) : t.Untroubled where
  cancelled := hcancelled.trans h.cancelled
  discarded := hdiscarded.trans h.discarded
  writers x hx := by
    rw [hwriters] at hx
    rcases List.mem_or_eq_of_mem_set hx with hx | rfl
    · exact h.writers x hx
    · exact ⟨herrors, hpending⟩

theorem Untroubled.snapshot (h : s.Untroubled) (capacity : Nat) (label : String) :
    (s.snapshot capacity label).Untroubled := by
  obtain ⟨received, hframe⟩ := snapshot_frame s capacity label
  rw [hframe]
  exact ⟨h.cancelled, h.discarded, h.writers⟩

theorem untroubled_start {archive : Archive} {input : List RawGame} {inputOpen : Bool} :
    (start settings archive input inputOpen).Untroubled where
  cancelled := rfl
  discarded := rfl
  writers w hw := by
    obtain rfl := List.eq_of_mem_replicate hw
    exact ⟨rfl, rfl⟩

/-- Once a writer has nothing more to receive, nothing is left in the queue. -/
theorem InOrder.queue_nil (h : s.InOrder settings) (hcrew : 0 < settings.writerWorkers) (hc : s.cancelled = false)
    (hw : s.writersDone = true) : s.queue = [] := by
  obtain ⟨w, hmem⟩ := List.exists_mem_of_length_pos (h.crew.2 ▸ hcrew)
  have hend := h.last hc ⟨w, hmem, by rw [writersDone_iff.mp hw w hmem]; rfl⟩
  rw [queueEnded, Bool.and_eq_true] at hend
  exact List.isEmpty_iff.mp hend.1

theorem Untroubled.move (h : s.Untroubled) (hr : s.archive.Ready) (hbatches : ∀ {j : Nat} {w : Writer},
    s.writers[j]? = some w → ∀ g ∈ w.batch, g.Consistent keys) (horder : s.InOrder settings)
    (hcrew : 0 < settings.writerWorkers) (ha : a.Smooth) (hm : Move keys settings s a t) : t.Untroubled := by
  cases hm with
  | cancel => exact absurd rfl ha.1
  | closeInput | take _ _ _ | stop _ _ | accept _ _ | send _ _ _ _ => exact ⟨h.cancelled, h.discarded, h.writers⟩
  | reject _ _ =>
    refine Untroubled.snapshot ?_ _ _
    exact ⟨h.cancelled, h.discarded, h.writers⟩
  | discard _ hc => simp [h.cancelled] at hc
  | abandon _ _ _ => exact ⟨h.cancelled, h.discarded, h.writers⟩
  | @receive j w g rest hw _ _ _ =>
    obtain ⟨herrors, -⟩ := h.writers w (List.mem_of_getElem? hw)
    refine h.writer_moves rfl rfl rfl herrors ?_
    rw [Writer.push_outcome]
    rfl
  | @tick j w hw _ _ =>
    obtain ⟨herrors, -⟩ := h.writers w (List.mem_of_getElem? hw)
    exact h.writer_moves rfl rfl rfl herrors rfl
  | @leave j w hw _ _ =>
    obtain ⟨herrors, -⟩ := h.writers w (List.mem_of_getElem? hw)
    refine h.writer_moves rfl rfl rfl herrors ?_
    split <;> rfl
  | @commit j w last succeeds hw _ =>
    obtain ⟨herrors, -⟩ := h.writers w (List.mem_of_getElem? hw)
    cases succeeds with
    | true =>
      rw [hr.writeBatch_true (hbatches hw)]
      exact h.writer_moves rfl rfl rfl herrors rfl
    | false => exact absurd rfl (ha.2 j)
  | @report j w outcome label last hw hp =>
    obtain ⟨herrors, hpending⟩ := h.writers w (List.mem_of_getElem? hw)
    have hnone : outcome.errors = [] := by simpa [hp, WriterPhase.outcome] using hpending
    refine Untroubled.snapshot ?_ _ _
    refine h.writer_moves rfl rfl ?_ (by rw [herrors, hnone]; rfl) ?_
    · rw [setWriter, ImportCounters.addOutcome_eq]
    · cases last <;> rfl
  | drain _ hw _ =>
    refine ⟨h.cancelled, ?_, h.writers⟩
    simp [ImportState.drain, h.discarded, horder.queue_nil hcrew h.cancelled hw]
  | finish _ =>
    refine Untroubled.snapshot ?_ _ _
    exact ⟨h.cancelled, h.discarded, h.writers⟩

/-! ### At the end -/

theorem Untroubled.errors (h : s.Untroubled) : s.errors = [] :=
  List.flatMap_eq_nil_iff.mpr fun w hw => (h.writers w hw).1

/-- The import has come to what writing the accepted games one after the other comes to, in some order of them. -/
structure Sequential (keys : FingerprintKeys) (before : Store) (games : List RawGame) (s : ImportState) : Prop where
  summary : s.summary =
    ⟨.completed, ⟨(DecodedGame.accepted keys games).length, DecodedGame.rejected keys games, 0⟩⟩
  order : ∃ order, List.Perm order (DecodedGame.accepted keys games) ∧
    s.archive = .ofStore (before.insertAll order).2
  contents : s.archive.store.contents =
    before.contents + ((DecodedGame.accepted keys games).map (·.content) : List GameContent)
  kept : s.archive.store.Extends before

theorem Ledger.sequential {before : Store} {games : List RawGame} {inputOpen : Bool}
    (h : Ledger keys s (start settings (.ofStore before) games inputOpen) written refused lost dropped)
    (hu : s.Untroubled) (ho : s.InOrder settings) (hdecoders : 0 < settings.decodeWorkers) (hlinked : before.Linked)
    (hdamage : before.damage = .none) (hf : s.finished = true) : Sequential keys before games s := by
  obtain ⟨hperm, hcounters, hlost⟩ := h.settled ho hf
  obtain rfl : refused = [] := h.ready ⟨rfl, rfl, hlinked, hdamage⟩
  obtain rfl : lost = [] := by
    rw [← List.length_eq_zero_iff, ← hlost, hu.errors]
    rfl
  obtain rfl : dropped = [] := by
    rw [← List.length_eq_zero_iff, ← h.discarded, hu.discarded]
  have hinput : s.input = [] := by
    obtain ⟨d, hd⟩ := List.exists_mem_of_length_pos (ho.crew.1 ▸ hdecoders)
    have hstopped := (ho.closed (ho.finished hf)).1
    have hend := ho.stopped hu.cancelled (decodersStopped_iff.mp hstopped d hd ▸ hd)
    rw [inputEnded, Bool.and_eq_true] at hend
    exact List.isEmpty_iff.mp hend.1
  have htaken : List.Perm s.taken games := by
    have hall : s.taken.reverse ++ s.input = games := h.input
    rw [hinput, List.append_nil] at hall
    exact hall ▸ (List.reverse_perm _).symm
  have horder : List.Perm written (DecodedGame.accepted keys games) := by
    simp only [List.flatten_nil, List.append_nil] at hperm
    exact hperm.symm.trans (htaken.filterMap _)
  have hrejected : DecodedGame.rejected keys s.taken = DecodedGame.rejected keys games := htaken.countP_eq _
  obtain ⟨hcontents, hkept⟩ := h.store.grows hlinked (by rw [start, Archive.ofStore, hdamage]; rfl)
  refine ⟨?_, ⟨written, horder, ?_⟩, ?_, hkept⟩
  · rw [summary, status, hu.errors, hu.cancelled, hcounters, horder.length_eq, hrejected]
    rfl
  · have hstore : (before.insertAll written).2 = s.archive.store := h.store.insertAll
    rw [hstore]
    exact h.archive
  · refine hcontents.trans (congrArg _ ?_)
    exact Multiset.coe_eq_coe.mpr (horder.map _)

/-! ### Smooth runs -/

section
variable {before : Store} {games : List RawGame} {inputOpen : Bool}

theorem Run.untroubled (hr : (Archive.ofStore before).Ready) (hb : 0 < settings.batchSize)
    (hcrew : 0 < settings.writerWorkers)
    (h : Run keys settings ImportAction.Smooth (ImportState.start settings (.ofStore before) games inputOpen) s) :
    s.Untroubled := by
  induction h with
  | start => exact untroubled_start
  | step a hrun ha hs ih =>
    obtain ⟨written, refused, lost, dropped, hl⟩ := hrun.ledger
    exact ih.move (hl.archive_ready hr) hl.consistent_batch (hrun.inOrder hb) hcrew ha (step_iff.mp hs).2

/-- A smooth run can be continued to the end. -/
theorem Run.finishes (hb : 0 < settings.batchSize) (hcap : 0 < settings.queueCapacity)
    (hcrew : 0 < settings.writerWorkers)
    (h : Run keys settings ImportAction.Smooth (ImportState.start settings (.ofStore before) games inputOpen) s) :
    ∃ t, Run keys settings ImportAction.Smooth (ImportState.start settings (.ofStore before) games inputOpen) t ∧
      t.finished = true := by
  induction hn : s.rank using Nat.strong_induction_on generalizing s with
  | _ n ih =>
    cases hf : s.finished with
    | true => exact ⟨s, h, hf⟩
    | false =>
      have horder := h.inOrder hb
      obtain ⟨a, t, ha, hs, hne⟩ := horder.progress keys hcap hcrew hf
      have hlt := (step_iff.mp hs).2.rank_lt horder hf
      exact ih t.rank (hn ▸ hlt.resolve_left fun hsame => hne hsame.1) (h.step a ha hs) rfl

/-- No smooth run goes on changing things for ever. -/
theorem eventually_stable (hb : 0 < settings.batchSize) {f : Nat → ImportState}
    (hstart : f 0 = start settings (.ofStore before) games inputOpen)
    (hsteps : ∀ n, ∃ a : ImportAction, a.Smooth ∧ (f n).step keys settings a = some (f (n + 1))) :
    ∃ n, ∀ m, n ≤ m → f m = f n := by
  have hrun : ∀ n, Run keys settings ImportAction.Smooth (ImportState.start settings (.ofStore before) games inputOpen)
      (f n) := by
    intro n
    induction n with
    | zero => exact hstart ▸ .start
    | succ n ih =>
      obtain ⟨a, ha, hs⟩ := hsteps n
      exact ih.step a ha hs
  -- From a state of least rank on, no step can change anything.
  obtain ⟨n, -, hleast⟩ := (measure fun n => (f n).rank).wf.has_min Set.univ ⟨0, trivial⟩
  refine ⟨n, fun m hm => ?_⟩
  induction m, hm using Nat.le_induction with
  | base => rfl
  | succ m _ ih =>
    obtain ⟨a, -, hs⟩ := hsteps m
    obtain ⟨hf, hmove⟩ := step_iff.mp hs
    rcases hmove.rank_lt ((hrun m).inOrder hb) hf with ⟨hsame, -⟩ | hlt
    · exact hsame.trans ih
    · have hlower : (f (m + 1)).rank < (f n).rank := ih ▸ hlt
      exact absurd hlower (hleast (m + 1) trivial)

end

end

/-- An import that is not cancelled and whose transactions do not fail refines a sequential one. In whatever order its
    workers move and whatever its settings are, it can go on until it is finished, it cannot go on for ever, and when
    it is finished the accepted games have been written, each once, and the others counted as failed. No store refuses
    a game that decoding accepts. -/
theorem smooth_import_sequential (keys : FingerprintKeys) (settings : ImportSettings) {before : Store}
    (hlinked : before.Linked) (hdamage : before.damage = .none) (games : List RawGame) (inputOpen : Bool) :
    (∀ s, Run keys settings.normalized ImportAction.Smooth
        (.start settings.normalized (.ofStore before) games inputOpen) s →
      (s.finished = true → Sequential keys before games s) ∧
      (s.finished = false → ∃ a t, a.Smooth ∧ s.step keys settings.normalized a = some t ∧ t ≠ s)) ∧
    (∃ s, Run keys settings.normalized ImportAction.Smooth
        (.start settings.normalized (.ofStore before) games inputOpen) s ∧ s.finished = true) ∧
    (∀ f : Nat → ImportState, f 0 = .start settings.normalized (.ofStore before) games inputOpen →
      (∀ n, ∃ a : ImportAction, a.Smooth ∧ (f n).step keys settings.normalized a = some (f (n + 1))) →
      ∃ n, ∀ m, n ≤ m → f m = f n) ∧
    ∀ raw g, DecodedGame.ofRaw keys raw = .ok g → ∀ s : Store, s.Linked → s.damage = .none →
      ∃ id t, s.insertGame g = .ok (id, t) := by
  have hready : (Archive.ofStore before).Ready := ⟨rfl, rfl, hlinked, hdamage⟩
  have hdecoders : 0 < settings.normalized.decodeWorkers := Nat.le_max_right _ _
  have hcrew : 0 < settings.normalized.writerWorkers := Nat.le_max_right _ _
  have hbatch : 0 < settings.normalized.batchSize := Nat.le_max_right _ _
  have hcap : 0 < settings.normalized.queueCapacity := Nat.le_max_right _ _
  refine ⟨fun s hrun => ⟨fun hf => ?_, fun hf => ?_⟩, ?_, fun f => eventually_stable hbatch, ?_⟩
  · obtain ⟨written, refused, lost, dropped, hl⟩ := hrun.ledger
    exact hl.sequential (hrun.untroubled hready hbatch hcrew) (hrun.inOrder hbatch) hdecoders hlinked hdamage hf
  · exact (hrun.inOrder hbatch).progress keys hcap hcrew hf
  · exact Run.finishes hbatch hcap hcrew .start
  · intro raw g hg s hl hd
    obtain ⟨id, t, -, ht, -⟩ := (DecodedGame.ofRaw_consistent hg).insertGame hl hd
    exact ⟨id, t, ht⟩

theorem smooth_import_sequential_two_games :
    (∃ s, Run ⟨.replicate keyCount 0⟩ (ImportSettings.normalized ⟨0, 0, 0, 0, 0, 0⟩) ImportAction.Smooth
        (.start (ImportSettings.normalized ⟨0, 0, 0, 0, 0, 0⟩) (.ofStore .empty)
          [⟨⟨[]⟩, ["e4"], none⟩, ⟨⟨[]⟩, ["e5"], none⟩] false) s ∧
      s.summary = ⟨.completed, ⟨1, 1, 0⟩⟩) := by
  obtain ⟨hends, ⟨s, hrun, hf⟩, -⟩ := smooth_import_sequential ⟨.replicate keyCount 0⟩ ⟨0, 0, 0, 0, 0, 0⟩
    Store.empty_linked rfl [⟨⟨[]⟩, ["e4"], none⟩, ⟨⟨[]⟩, ["e5"], none⟩] false
  have hsummary := ((hends s hrun).1 hf).summary
  have haccepted : (DecodedGame.accepted ⟨.replicate keyCount 0⟩
      [⟨⟨[]⟩, ["e4"], none⟩, ⟨⟨[]⟩, ["e5"], none⟩]).length = 1 := by decide +kernel
  have hrejected : DecodedGame.rejected ⟨.replicate keyCount 0⟩
      [⟨⟨[]⟩, ["e4"], none⟩, ⟨⟨[]⟩, ["e5"], none⟩] = 1 := by
    have hall := @DecodedGame.accepted_add_rejected ⟨.replicate keyCount 0⟩
      [⟨⟨[]⟩, ["e4"], none⟩, ⟨⟨[]⟩, ["e5"], none⟩]
    simp only [haccepted, List.length_cons, List.length_nil] at hall
    omega
  rw [haccepted, hrejected] at hsummary
  exact ⟨s, hrun, hsummary⟩

end ImportState
end ChessArchive
