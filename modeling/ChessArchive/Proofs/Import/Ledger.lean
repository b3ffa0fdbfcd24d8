import Mathlib.Algebra.Order.Group.Multiset
import Mathlib.Tactic.Abel
import ChessArchive.Proofs.Import.Step
import ChessArchive.Proofs.Store.Insert

/-! Where the games of an import are. Every game that has been taken is at one place: a decoder has it, the queue, a
    batch, the store, a batch that failed, or it was refused or discarded. The counters tell how many are where, once
    the outcomes that writers have yet to report are counted in. -/

namespace ChessArchive

/-! ### What decoding makes of raw games -/

namespace DecodedGame
variable (keys : FingerprintKeys)

/-- The games that decoding accepts, decoded. -/
def accepted (raws : List RawGame) : List DecodedGame := raws.filterMap fun raw => (ofRaw keys raw).toOption

/-- The number of games that decoding rejects. -/
def rejected (raws : List RawGame) : Nat := raws.countP fun raw => (ofRaw keys raw).toOption.isNone

variable {keys}

theorem accepted_cons (raw : RawGame) (raws : List RawGame) :
    accepted keys (raw :: raws) = accepted keys [raw] ++ accepted keys raws := by
  rw [accepted, ← List.singleton_append, List.filterMap_append]
  rfl

theorem rejected_cons (raw : RawGame) (raws : List RawGame) :
    rejected keys (raw :: raws) = rejected keys [raw] + rejected keys raws := by
  rw [rejected, ← List.singleton_append, List.countP_append]
  rfl

theorem accepted_of_ok {raw : RawGame} {g : DecodedGame} (h : ofRaw keys raw = .ok g) :
    accepted keys [raw] = [g] ∧ rejected keys [raw] = 0 := by
  simp [accepted, rejected, h, Except.toOption]

theorem accepted_of_error {raw : RawGame} {cause : ArchiveError} (h : ofRaw keys raw = .error cause) :
    accepted keys [raw] = [] ∧ rejected keys [raw] = 1 := by
  simp [accepted, rejected, h, Except.toOption]

theorem accepted_add_rejected (raws : List RawGame) :
    (accepted keys raws).length + rejected keys raws = raws.length := by
  induction raws with
  | nil => rfl
  | cons raw raws ih =>
    rw [accepted_cons, rejected_cons, List.length_append, List.length_cons, ← ih]
    cases h : ofRaw keys raw with
    | ok g =>
      obtain ⟨ha, hr⟩ := accepted_of_ok h
      simp only [ha, hr, List.length_singleton]
      omega
    | error cause =>
      obtain ⟨ha, hr⟩ := accepted_of_error h
      simp only [ha, hr, List.length_nil]
      omega

theorem accepted_consistent {raws : List RawGame} {g : DecodedGame} (h : g ∈ accepted keys raws) :
    g.Consistent keys := by
  obtain ⟨raw, -, hraw⟩ := List.mem_filterMap.mp h
  cases hg : ofRaw keys raw with
  | ok g' =>
    rw [hg] at hraw
    cases hraw
    exact ofRaw_consistent hg
  | error cause => simp [hg, Except.toOption] at hraw

end DecodedGame

/-! ### What the workers have -/

/-- The game that a decoder has or will have. -/
def Decoder.carries (keys : FingerprintKeys) : Decoder → Multiset DecodedGame
  | .holding raw => DecodedGame.accepted keys [raw]
  | .ready g => {g}
  | _ => 0

/-- The games that a decoder is about to reject. -/
def Decoder.owes (keys : FingerprintKeys) : Decoder → Nat
  | .holding raw => DecodedGame.rejected keys [raw]
  | _ => 0

/-- The games of a batch that were written. -/
def BatchOutcome.written : BatchOutcome → Nat
  | .committed written _ => written
  | .failed _ => 0

/-- The games of a batch that were not written. -/
def BatchOutcome.unwritten : BatchOutcome → Nat
  | .committed _ refused => refused
  | .failed size => size

/-- The outcome that is yet to be counted; the outcome of nothing if there is none. -/
def WriterPhase.outcome : WriterPhase → BatchOutcome
  | .reporting outcome _ _ => outcome
  | _ => .committed 0 0

theorem Writer.outcome_of_waits {w : Writer} (h : w.waits = true) : w.phase.outcome = .committed 0 0 := by
  rcases w with ⟨phase, batch, errors⟩
  cases phase <;> first | rfl | simp [waits] at h

theorem Writer.push_outcome (w : Writer) (batchSize : Nat) (g : DecodedGame) :
    (w.push batchSize g).phase.outcome = .committed 0 0 := by
  simp only [push]
  split <;> rfl

theorem ImportCounters.addOutcome_eq (c : ImportCounters) (o : BatchOutcome) :
    c.addOutcome o = ⟨c.imported + o.written, c.failed + o.unwritten, c.discarded⟩ := by
  cases o <;> rfl

/-- An archive that takes whatever decoding accepts. -/
structure Archive.Ready (a : Archive) : Prop where
  isOpen : a.isOpen = true
  isWritable : a.isWritable = true
  linked : a.store.Linked
  undamaged : a.store.damage = .none

namespace ImportState
variable (keys : FingerprintKeys) (s : ImportState)

def carried : Multiset DecodedGame := (s.decoders.map (Decoder.carries keys)).sum

def owed : Nat := (s.decoders.map (Decoder.owes keys)).sum

def batched : Multiset DecodedGame := (s.writers.map fun w => (w.batch : Multiset DecodedGame)).sum

/-- The sum of a number of each outcome that is yet to be counted. -/
def pending (f : BatchOutcome → Nat) : Nat := (s.writers.map fun w => f w.phase.outcome).sum

/-- The batch that an action loses: that of a transaction that cannot be begun or committed. -/
def lostBatches (s : ImportState) : ImportAction → List (List DecodedGame)
  | .commit j succeeds =>
    match s.writers[j]? with
    | some w => if succeeds && s.archive.isOpen then [] else [w.batch]
    | none => []
  | _ => []

/-- Every game that has been taken is at one place, and the counters tell how many are where. The batches that failed
    are kept apart, for each of them is an error. No decoder is left when the queue is closed, so none drops a game
    without counting it. -/
structure Ledger (initial : ImportState) (written refused : List DecodedGame) (lost : List (List DecodedGame))
    (dropped : List DecodedGame) : Prop where
  closed : s.queueClosed = true → s.decodersStopped = true
  input : s.taken.reverse ++ s.input = initial.input
  games : (DecodedGame.accepted keys s.taken : Multiset DecodedGame) =
    s.carried keys + s.queue + s.batched + written + refused + lost.flatten + dropped
  archive : s.archive = { initial.archive with store := s.archive.store }
  store : initial.archive.store.Takes written s.archive.store
  ready : initial.archive.Ready → refused = []
  imported : s.counters.imported + s.pending (·.written) = written.length
  failed : s.counters.failed + s.pending (·.unwritten) + s.owed keys =
    DecodedGame.rejected keys s.taken + refused.length + lost.flatten.length
  errors : s.errors.length + s.pending (·.errors.length) = lost.length
  discarded : s.counters.discarded = dropped.length

variable {keys} {s}
variable {initial t : ImportState} {written refused : List DecodedGame} {lost : List (List DecodedGame)}
  {dropped : List DecodedGame}

theorem carried_set (keys : FingerprintKeys) {i : Nat} {d e : Decoder} (hd : s.decoders[i]? = some d)
    (ht : t.decoders = s.decoders.set i e) :
    t.carried keys + d.carries keys = s.carried keys + e.carries keys := by
  rw [carried, ht]
  exact sum_map_set hd e _

theorem owed_set (keys : FingerprintKeys) {i : Nat} {d e : Decoder} (hd : s.decoders[i]? = some d)
    (ht : t.decoders = s.decoders.set i e) :
    t.owed keys + d.owes keys = s.owed keys + e.owes keys := by
  rw [owed, ht]
  exact sum_map_set hd e _

theorem batched_set {j : Nat} {w v : Writer} (hw : s.writers[j]? = some w) (ht : t.writers = s.writers.set j v) :
    t.batched + w.batch = s.batched + v.batch := by
  rw [batched, ht]
  exact sum_map_set hw v _

theorem pending_set {j : Nat} {w v : Writer} (hw : s.writers[j]? = some w) (ht : t.writers = s.writers.set j v)
    (f : BatchOutcome → Nat) : t.pending f + f w.phase.outcome = s.pending f + f v.phase.outcome := by
  rw [pending, ht]
  exact sum_map_set hw v _

theorem pending_congr (h : t.writers = s.writers) (f : BatchOutcome → Nat) : t.pending f = s.pending f := by
  rw [pending, h, pending]

theorem errors_set {j : Nat} {w v : Writer} (hw : s.writers[j]? = some w) (ht : t.writers = s.writers.set j v) :
    t.errors.length + w.errors.length = s.errors.length + v.errors.length := by
  rw [errors, errors, ht, List.length_flatMap, List.length_flatMap]
  exact sum_map_set hw v _

/-! ### Balanced moves -/

/-- A decoder moves: what it takes in and what it gives out are in balance. -/
theorem Ledger.decoder_moves (h : Ledger keys s initial written refused lost dropped) {i : Nat} {d e : Decoder}
    {dropped' : List DecodedGame} (hd : s.decoders[i]? = some d) (hworks : d ≠ .stopped)
    (hdecoders : t.decoders = s.decoders.set i e) (hwriters : t.writers = s.writers)
    (hclosed : t.queueClosed = s.queueClosed) (harchive : t.archive = s.archive)
    (hinput : t.taken.reverse ++ t.input = s.taken.reverse ++ s.input)
    (hgames : (DecodedGame.accepted keys t.taken : Multiset DecodedGame) + d.carries keys + s.queue + dropped =
      DecodedGame.accepted keys s.taken + e.carries keys + t.queue + dropped')
    (himported : t.counters.imported = s.counters.imported)
    (hfailed : t.counters.failed + e.owes keys + DecodedGame.rejected keys s.taken =
      s.counters.failed + d.owes keys + DecodedGame.rejected keys t.taken)
    (hdiscarded : t.counters.discarded + dropped.length = s.counters.discarded + dropped'.length) :
    Ledger keys t initial written refused lost dropped' where
  closed hc := by
    rw [hclosed] at hc
    exact absurd (decodersStopped_iff.mp (h.closed hc) d (List.mem_of_getElem? hd)) hworks
  input := hinput.trans h.input
  games := by
    have hc := carried_set keys hd hdecoders
    have hb : t.batched = s.batched := by rw [batched, hwriters, batched]
    apply add_right_cancel (b := d.carries keys + s.queue + dropped)
    calc (DecodedGame.accepted keys t.taken : Multiset DecodedGame) + (d.carries keys + s.queue + dropped)
      _ = DecodedGame.accepted keys s.taken + e.carries keys + t.queue + dropped' := by
        rw [← hgames]
        abel
      _ = (s.carried keys + e.carries keys) + t.queue + t.batched + written + refused + lost.flatten + dropped' +
          (s.queue + dropped) := by
        rw [h.games, hb]
        abel
      _ = _ := by
        rw [← hc]
        abel
  archive := harchive ▸ h.archive
  store := harchive ▸ h.store
  ready := h.ready
  imported := by
    rw [himported, pending_congr hwriters]
    exact h.imported
  failed := by
    have ho := owed_set keys hd hdecoders
    have := pending_congr hwriters (·.unwritten)
    have := h.failed
    omega
  errors := by
    have he : t.errors = s.errors := by unfold ImportState.errors; rw [hwriters]
    rw [he, pending_congr hwriters]
    exact h.errors
  discarded := by
    have := h.discarded
    omega

/-- A writer moves: what it takes in and what it gives out are in balance. -/
theorem Ledger.writer_moves (h : Ledger keys s initial written refused lost dropped) {j : Nat} {w v : Writer}
    {written' refused' : List DecodedGame} {lost' : List (List DecodedGame)} (hw : s.writers[j]? = some w)
    (hwriters : t.writers = s.writers.set j v) (hdecoders : t.decoders = s.decoders)
    (hclosed : t.queueClosed = s.queueClosed) (htaken : t.taken = s.taken) (hinput : t.input = s.input)
    (harchive : t.archive = { initial.archive with store := t.archive.store })
    (hstore : initial.archive.store.Takes written' t.archive.store) (hready : initial.archive.Ready → refused' = [])
    (hgames : (w.batch + s.queue + written + refused + lost.flatten : Multiset DecodedGame) =
      v.batch + t.queue + written' + refused' + lost'.flatten)
    (himported : t.counters.imported + v.phase.outcome.written + written.length =
      s.counters.imported + w.phase.outcome.written + written'.length)
    (hfailed : t.counters.failed + v.phase.outcome.unwritten + refused.length + lost.flatten.length =
      s.counters.failed + w.phase.outcome.unwritten + refused'.length + lost'.flatten.length)
    (herrors : v.errors.length + v.phase.outcome.errors.length + lost.length =
      w.errors.length + w.phase.outcome.errors.length + lost'.length)
    (hdiscarded : t.counters.discarded = s.counters.discarded) :
    Ledger keys t initial written' refused' lost' dropped where
  closed hc := by
    have hstopped := h.closed (hclosed ▸ hc)
    rw [decodersStopped_iff] at hstopped ⊢
    exact hdecoders ▸ hstopped
  input := by
    rw [htaken, hinput]
    exact h.input
  games := by
    have hb := batched_set hw hwriters
    have hc : t.carried keys = s.carried keys := by rw [carried, hdecoders, carried]
    apply add_right_cancel (b := (w.batch : Multiset DecodedGame) + s.queue + written + refused + lost.flatten)
    calc (DecodedGame.accepted keys t.taken : Multiset DecodedGame) +
        (w.batch + s.queue + written + refused + lost.flatten)
      _ = s.carried keys + (s.batched + v.batch) + t.queue + written' + refused' + lost'.flatten + dropped +
          (s.queue + written + refused + lost.flatten) := by
        rw [htaken, h.games, hgames]
        abel
      _ = _ := by
        rw [← hb, hc]
        abel
  archive := harchive
  store := hstore
  ready := hready
  imported := by
    have := pending_set hw hwriters (·.written)
    have := h.imported
    omega
  failed := by
    have ho : t.owed keys = s.owed keys := by rw [owed, hdecoders, owed]
    have := pending_set hw hwriters (·.unwritten)
    have := h.failed
    rw [htaken]
    omega
  errors := by
    have := pending_set hw hwriters (·.errors.length)
    have := errors_set hw hwriters
    have := h.errors
    omega
  discarded := hdiscarded.trans h.discarded

/-! ### Where the games come from -/

theorem Ledger.consistent_written (h : Ledger keys s initial written refused lost dropped) :
    ∀ g ∈ written, g.Consistent keys := by
  intro g hg
  have hmem : g ∈ (DecodedGame.accepted keys s.taken : Multiset DecodedGame) := by
    simp [h.games, hg]
  exact DecodedGame.accepted_consistent (Multiset.mem_coe.mp hmem)

theorem Ledger.consistent_batch (h : Ledger keys s initial written refused lost dropped) {j : Nat} {w : Writer}
    (hw : s.writers[j]? = some w) : ∀ g ∈ w.batch, g.Consistent keys := by
  intro g hg
  have hb := batched_set (t := s.setWriter j .start) hw rfl
  have hbatched : g ∈ s.batched := by
    simp only [Writer.start, Multiset.coe_nil, add_zero] at hb
    rw [← hb]
    exact Multiset.mem_add.mpr (Or.inr (Multiset.mem_coe.mpr hg))
  have hmem : g ∈ (DecodedGame.accepted keys s.taken : Multiset DecodedGame) := by
    simp [h.games, hbatched]
  exact DecodedGame.accepted_consistent (Multiset.mem_coe.mp hmem)

end ImportState

/-! ### Batches -/

namespace Archive
variable {a : Archive} {keys : FingerprintKeys} {gs : List DecodedGame}

/-- What a transaction does: some of the games of its batch are written and the others are refused, or it fails and
    leaves the archive as it was. -/
theorem writeBatch_cases (a : Archive) (commits : Bool) (gs : List DecodedGame) :
    ((commits && a.isOpen) = true ∧ ∃ kept refused s, gs.Perm (kept ++ refused) ∧ a.store.Takes kept s ∧
      a.writeBatch commits gs = (.committed kept.length refused.length, { a with store := s })) ∨
    ((commits && a.isOpen) = false ∧ a.writeBatch commits gs = (.failed gs.length, a)) := by
  unfold writeBatch
  cases hc : commits && a.isOpen with
  | false => exact Or.inr ⟨rfl, by split <;> rfl⟩
  | true =>
    refine Or.inl ⟨rfl, ?_⟩
    split
    · obtain ⟨kept, refused, hperm, hlen, htakes⟩ := a.store.insertAll_takes gs
      refine ⟨kept, refused, _, hperm, htakes, ?_⟩
      simp [Store.writeBatch, hlen, hperm.length_eq]
    · exact ⟨[], gs, a.store, .refl _, .nil, rfl⟩

theorem Ready.takes (h : a.Ready) {s : Store} (hgs : ∀ g ∈ gs, g.Consistent keys) (ht : a.store.Takes gs s) :
    Ready { a with store := s } := by
  obtain ⟨-, hl, hd, -⟩ := Store.insertAll_consistent (P := fun _ => True) (fun _ _ _ _ => trivial) hgs trivial
    h.linked h.undamaged
  rw [ht.insertAll] at hl hd
  exact ⟨h.isOpen, h.isWritable, hl, hd⟩

theorem Ready.writeBatch_true (h : a.Ready) (hgs : ∀ g ∈ gs, g.Consistent keys) :
    a.writeBatch true gs = (.committed gs.length 0, { a with store := (a.store.insertAll gs).2 }) := by
  obtain ⟨-, -, -, ids, hids, hlen⟩ := Store.insertAll_consistent (P := fun _ => True) (fun _ _ _ _ => trivial) hgs
    trivial h.linked h.undamaged
  have hwritten : Store.writtenIds (a.store.insertAll gs).1 = ids := by
    rw [hids, Store.writtenIds, List.filterMap_map]
    exact List.filterMap_some
  simp [writeBatch, Store.writeBatch, h.isOpen, h.isWritable, hwritten, hlen]

end Archive

namespace ImportState
variable {keys : FingerprintKeys} {settings : ImportSettings} {s t initial : ImportState} {a : ImportAction}
  {written refused : List DecodedGame} {lost : List (List DecodedGame)} {dropped : List DecodedGame}

theorem Ledger.archive_ready (h : Ledger keys s initial written refused lost dropped) (hr : initial.archive.Ready) :
    s.archive.Ready := by
  rw [h.archive]
  exact hr.takes h.consistent_written h.store

/-! ### Steps and runs -/

theorem Ledger.snapshot (h : Ledger keys s initial written refused lost dropped) (capacity : Nat) (label : String) :
    Ledger keys (s.snapshot capacity label) initial written refused lost dropped := by
  obtain ⟨received, hframe⟩ := snapshot_frame s capacity label
  rw [hframe]
  exact { h with }

theorem Ledger.drain (h : Ledger keys s initial written refused lost dropped) (hstopped : s.decodersStopped = true) :
    Ledger keys s.drain initial written refused lost (dropped ++ s.queue) := by
  refine { h with closed := fun _ => hstopped, games := ?_, discarded := ?_ }
  · simp only [ImportState.drain, ← Multiset.coe_add, Multiset.coe_nil]
    refine h.games.trans ?_
    simp only [carried, batched]
    abel
  · rw [ImportState.drain, h.discarded, List.length_append]

/-- A transaction moves the games of its batch to where they belong. -/
theorem Ledger.commit (h : Ledger keys s initial written refused lost dropped) {j : Nat} {w : Writer} {last : Bool}
    (succeeds : Bool) (hw : s.writers[j]? = some w) (hphase : w.phase = .flushing last) :
    ∃ written' refused', Ledger keys
      ({ s with archive := (s.archive.writeBatch succeeds w.batch).2 }.setWriter j
        ⟨.reporting (s.archive.writeBatch succeeds w.batch).1 (batchLabel w.batch) last, [], w.errors⟩)
      initial written' refused' (lost ++ s.lostBatches (.commit j succeeds)) dropped := by
  rcases s.archive.writeBatch_cases succeeds w.batch with ⟨hc, kept, others, u, hperm, htakes, hbatch⟩ | ⟨hc, hbatch⟩
  · have hlost : s.lostBatches (.commit j succeeds) = [] := by simp [lostBatches, hw, hc]
    rw [hbatch, hlost, List.append_nil]
    refine ⟨written ++ kept, refused ++ others, h.writer_moves hw rfl rfl rfl rfl rfl ?_ ?_ ?_ ?_ ?_ ?_ ?_ rfl⟩
    · rw [setWriter, h.archive]
    · exact h.store.append htakes
    · intro hr
      have hall := (h.archive_ready hr).writeBatch_true (h.consistent_batch hw)
      have hsucceeds : succeeds = true := (Bool.and_eq_true_iff.mp hc).1
      rw [hsucceeds, hall] at hbatch
      have hnone : others.length = 0 := (congrArg (·.1.unwritten) hbatch).symm
      rw [h.ready hr, List.eq_nil_of_length_eq_zero hnone, List.append_nil]
    · have hgames : (w.batch : Multiset DecodedGame) = kept + others := Multiset.coe_eq_coe.mpr hperm
      simp only [setWriter, hgames, ← Multiset.coe_add, Multiset.coe_nil]
      abel
    · simp [hphase, setWriter, WriterPhase.outcome, BatchOutcome.written]
      omega
    · simp [hphase, setWriter, WriterPhase.outcome, BatchOutcome.unwritten]
      omega
    · simp [hphase, WriterPhase.outcome, BatchOutcome.errors]
  · have hlost : s.lostBatches (.commit j succeeds) = [w.batch] := by simp [lostBatches, hw, hc]
    rw [hbatch, hlost]
    refine ⟨written, refused, h.writer_moves hw rfl rfl rfl rfl rfl h.archive h.store h.ready ?_ ?_ ?_ ?_ rfl⟩
    · simp only [setWriter, List.flatten_concat, ← Multiset.coe_add, Multiset.coe_nil]
      abel
    · simp [hphase, setWriter, WriterPhase.outcome, BatchOutcome.written]
    · simp [hphase, setWriter, WriterPhase.outcome, BatchOutcome.unwritten]
      omega
    · simp [hphase, WriterPhase.outcome, BatchOutcome.errors]
      omega

/-- Every other action leaves alone what is written, refused or lost. -/
theorem Ledger.move_other (h : Ledger keys s initial written refused lost dropped) (hm : Move keys settings s a t)
    (ha : ∀ j succeeds, a ≠ .commit j succeeds) :
    ∃ dropped', Ledger keys t initial written refused lost dropped' := by
  cases hm with
  | cancel => exact ⟨dropped, { h with }⟩
  | closeInput => exact ⟨dropped, { h with }⟩
  | @take i raw rest hd _ hi =>
    refine ⟨dropped, h.decoder_moves hd nofun rfl rfl rfl rfl ?_ ?_ rfl ?_ rfl⟩
    · simp [setDecoder, hi]
    · simp only [setDecoder, Decoder.carries]
      rw [DecodedGame.accepted_cons raw s.taken, ← Multiset.coe_add]
      abel
    · simp only [setDecoder, Decoder.owes]
      rw [DecodedGame.rejected_cons raw s.taken]
      omega
  | stop hd _ => exact ⟨dropped, h.decoder_moves hd nofun rfl rfl rfl rfl rfl rfl rfl rfl rfl⟩
  | accept hd hg =>
    obtain ⟨hacc, hrej⟩ := DecodedGame.accepted_of_ok hg
    refine ⟨dropped, h.decoder_moves hd nofun rfl rfl rfl rfl rfl ?_ rfl ?_ rfl⟩
    · simp [Decoder.carries, hacc, setDecoder]
    · simp [Decoder.owes, hrej, setDecoder]
  | @reject i raw cause hd hg =>
    obtain ⟨hacc, hrej⟩ := DecodedGame.accepted_of_error hg
    refine ⟨dropped, Ledger.snapshot ?_ _ _⟩
    refine h.decoder_moves hd nofun rfl rfl rfl rfl rfl ?_ rfl ?_ rfl
    · simp [Decoder.carries, hacc, setDecoder]
    · simp [Decoder.owes, hrej, setDecoder]
  | send hd _ _ _ =>
    refine ⟨dropped, h.decoder_moves hd nofun rfl rfl rfl rfl rfl ?_ rfl rfl rfl⟩
    simp only [setDecoder, Decoder.carries, ← Multiset.coe_add, Multiset.coe_singleton]
    abel
  | @discard i g hd _ =>
    refine ⟨dropped ++ [g], h.decoder_moves hd nofun rfl rfl rfl rfl rfl ?_ rfl rfl ?_⟩
    · simp only [setDecoder, Decoder.carries, ← Multiset.coe_add, Multiset.coe_singleton]
      abel
    · simp only [setDecoder, List.length_append, List.length_singleton]
      omega
  | abandon hd _ hclosed =>
    -- The queue is closed only after every decoder has stopped.
    exact absurd (decodersStopped_iff.mp (h.closed hclosed) _ (List.mem_of_getElem? hd)) nofun
  | @receive j w g rest hw hwaits _ hq =>
    have hnone := w.outcome_of_waits hwaits
    have hnext := w.push_outcome settings.batchSize g
    refine ⟨dropped, h.writer_moves hw rfl rfl rfl rfl rfl h.archive h.store h.ready ?_ ?_ ?_ ?_ rfl⟩
    · simp only [setWriter, Writer.push, hq, ← Multiset.coe_add, ← Multiset.singleton_add, ← Multiset.cons_coe]
      abel
    · rw [hnone, hnext]
      rfl
    · rw [hnone, hnext]
      rfl
    · rw [hnone, hnext]
      rfl
  | @tick j w hw hphase _ =>
    have hnone : w.phase.outcome = .committed 0 0 := by rw [hphase]; rfl
    refine ⟨dropped, h.writer_moves hw rfl rfl rfl rfl rfl h.archive h.store h.ready rfl ?_ ?_ ?_ rfl⟩ <;>
      rw [hnone] <;> rfl
  | @leave j w hw hwaits _ =>
    have hnone := w.outcome_of_waits hwaits
    have hnext : (if w.batch.isEmpty then WriterPhase.done else .flushing true).outcome = .committed 0 0 := by
      split <;> rfl
    refine ⟨dropped, h.writer_moves hw rfl rfl rfl rfl rfl h.archive h.store h.ready rfl ?_ ?_ ?_ rfl⟩ <;>
      rw [hnone, hnext] <;> rfl
  | @commit j w last succeeds _ _ => exact absurd rfl (ha j succeeds)
  | @report j w outcome label last hw hphase =>
    have hout : w.phase.outcome = outcome := by rw [hphase]; rfl
    have hnext : (if last then WriterPhase.done else .idle).outcome = .committed 0 0 := by cases last <;> rfl
    refine ⟨dropped, Ledger.snapshot ?_ _ _⟩
    refine h.writer_moves hw rfl rfl rfl rfl rfl h.archive h.store h.ready rfl ?_ ?_ ?_ ?_
    · simp [hnext, hout, setWriter, ImportCounters.addOutcome_eq, BatchOutcome.written]
    · simp [hnext, hout, setWriter, ImportCounters.addOutcome_eq, BatchOutcome.unwritten]
    · simp [hnext, hout, BatchOutcome.errors]
    · simp [setWriter, ImportCounters.addOutcome_eq]
  | drain hstopped _ _ => exact ⟨_, h.drain hstopped⟩
  | finish _ =>
    refine ⟨dropped, Ledger.snapshot ?_ _ _⟩
    exact { h with }

theorem Ledger.move (h : Ledger keys s initial written refused lost dropped) (hm : Move keys settings s a t) :
    ∃ written' refused' dropped', Ledger keys t initial written' refused' (lost ++ s.lostBatches a) dropped' := by
  by_cases ha : ∃ j succeeds, a = .commit j succeeds
  · obtain ⟨j, succeeds, rfl⟩ := ha
    cases hm with
    | commit _ hw hphase =>
      obtain ⟨written', refused', hcommit⟩ := h.commit succeeds hw hphase
      exact ⟨written', refused', dropped, hcommit⟩
  · simp only [not_exists] at ha
    have hlost : s.lostBatches a = [] := by
      cases a <;> first | rfl | exact absurd rfl (ha _ _)
    obtain ⟨dropped', hother⟩ := h.move_other hm ha
    rw [hlost, List.append_nil]
    exact ⟨written, refused, dropped', hother⟩

theorem ledger_start {settings : ImportSettings} {archive : Archive} {input : List RawGame} {inputOpen : Bool} :
    Ledger keys (start settings archive input inputOpen) (start settings archive input inputOpen) [] [] [] [] where
  closed := nofun
  input := rfl
  games := by simp [start, carried, batched, DecodedGame.accepted, Decoder.carries, Writer.start]
  archive := rfl
  store := .nil
  ready _ := rfl
  imported := by simp [start, pending, Writer.start, WriterPhase.outcome, BatchOutcome.written]
  failed := by
    simp [start, pending, owed, Writer.start, WriterPhase.outcome, BatchOutcome.unwritten, Decoder.owes,
      DecodedGame.rejected]
  errors := by simp [start, errors, pending, Writer.start, WriterPhase.outcome, BatchOutcome.errors]
  discarded := rfl

/-- Every state of an import has its ledger, whatever the order of the steps, whenever it is cancelled, and whichever
    batches fail. -/
theorem Run.ledger {allows : ImportAction → Prop} {archive : Archive} {input : List RawGame} {inputOpen : Bool}
    (h : Run keys settings allows (ImportState.start settings archive input inputOpen) s) :
    ∃ written refused lost dropped,
      Ledger keys s (ImportState.start settings archive input inputOpen) written refused lost dropped := by
  induction h with
  | start => exact ⟨[], [], [], [], ledger_start⟩
  | step a _ _ hs ih =>
    obtain ⟨written, refused, lost, dropped, hl⟩ := ih
    obtain ⟨written', refused', dropped', hl'⟩ := hl.move (step_iff.mp hs).2
    exact ⟨written', refused', _, dropped', hl'⟩

end ImportState
end ChessArchive
