import ChessArchive.Import.Batching
import ChessArchive.Import.Counting
import ChessArchive.Proofs.Import.Conservation

/-! The batches of a writer. At the head of its loop the batch is short, and the state says whether there is one. Each
    transaction has between one game and a full batch, together they have the games that were received, in their order,
    and each that fails leaves one error. The writers of an import go through this loop, whatever the other workers do. -/

namespace ChessArchive

/-- The transaction failed. -/
def BatchOutcome.isFailed : BatchOutcome → Bool
  | .committed _ _ => false
  | .failed _ => true

theorem BatchOutcome.length_errors (o : BatchOutcome) : o.errors.length = if o.isFailed then 1 else 0 := by
  cases o <;> rfl

namespace Batching
variable {batchSize : Nat} {outcomes : Outcomes} {b c : Batching} {received : List DecodedGame}
  {events : List WriterEvent}

/-- What holds at the head of the loop. -/
structure AtHead (batchSize : Nat) (b : Batching) : Prop where
  short : b.batch.length < batchSize
  idle : b.state = .idle ↔ b.batch = []
  accumulating : b.state = .accumulating ↔ b.batch ≠ []

/-- What has become of the games that were received. -/
structure Accounts (batchSize : Nat) (received : List DecodedGame) (b : Batching) : Prop where
  sizes : ∀ t ∈ b.transactions, 1 ≤ t.games.length ∧ t.games.length ≤ batchSize
  games : b.transactions.flatMap (·.games) ++ b.batch = received
  errors : b.errors.length = b.transactions.countP (·.outcome.isFailed)

/-! ### One pass -/

theorem flush_eq (outcomes : Outcomes) (b : Batching) :
    b.flush outcomes = ⟨if b.state = .draining then .draining else .idle, [],
      b.transactions ++ [⟨b.batch, outcomes b.transactions.length b.batch⟩],
      b.errors ++ (outcomes b.transactions.length b.batch).errors⟩ := by
  unfold flush
  dsimp only
  cases outcomes b.transactions.length b.batch <;> simp [BatchOutcome.errors]

theorem Accounts.flush (h : b.Accounts batchSize received) (hsome : b.batch ≠ []) (hfits : b.batch.length ≤ batchSize) :
    (b.flush outcomes).Accounts batchSize received := by
  rw [flush_eq]
  refine ⟨fun t ht => ?_, ?_, ?_⟩
  · rcases List.mem_append.mp ht with ht | ht
    · exact h.sizes t ht
    · obtain rfl := List.mem_singleton.mp ht
      exact ⟨List.length_pos_iff.mpr hsome, hfits⟩
  · simpa using h.games
  · rw [List.length_append, h.errors, BatchOutcome.length_errors, List.countP_append, List.countP_singleton]

theorem Accounts.flushIfAny (h : b.Accounts batchSize received) (hfits : b.batch.length ≤ batchSize) :
    (b.flushIfAny outcomes).Accounts batchSize received := by
  unfold Batching.flushIfAny
  split
  · exact h
  · rename_i hsome
    exact h.flush (by simpa using hsome) hfits

theorem flushIfAny_batch (outcomes : Outcomes) (b : Batching) : (b.flushIfAny outcomes).batch = [] := by
  unfold flushIfAny
  split
  · rename_i hnone
    exact List.isEmpty_iff.mp hnone
  · rw [flush_eq]

theorem Accounts.inState (h : b.Accounts batchSize received) (state : WriterState) :
    ({ b with state } : Batching).Accounts batchSize received := ⟨h.sizes, h.games, h.errors⟩

theorem atHead_start (h : 1 ≤ batchSize) : start.AtHead batchSize := ⟨h, by simp [start], by simp [start]⟩

theorem accounts_start : start.Accounts batchSize [] := ⟨nofun, rfl, rfl⟩

theorem AtHead.flushIfAny (h : b.AtHead batchSize) (outcomes : Outcomes) :
    (b.flushIfAny outcomes).AtHead batchSize := by
  have hpos := Nat.zero_lt_of_lt h.short
  unfold Batching.flushIfAny
  split
  · exact h
  · rename_i hsome
    have hstate := h.accumulating.mpr (by simpa using hsome)
    rw [flush_eq, hstate]
    exact ⟨hpos, by simp, by simp⟩

/-- A batch with one more game is written if it is full, and is short otherwise. -/
theorem AtHead.take (h : b.AtHead batchSize) (outcomes : Outcomes) (g : DecodedGame) :
    (b.take batchSize outcomes g).AtHead batchSize := by
  have hpos := Nat.zero_lt_of_lt h.short
  unfold Batching.take
  dsimp only
  split
  · rw [flush_eq]
    exact ⟨hpos, by simp, by simp⟩
  · rename_i hshort
    exact ⟨Nat.lt_of_not_le hshort, by simp, by simp⟩

theorem Accounts.take (h : b.Accounts batchSize received) (hshort : b.batch.length < batchSize) (g : DecodedGame) :
    (b.take batchSize outcomes g).Accounts batchSize (received ++ [g]) := by
  have htaken : ({ b with batch := b.batch ++ [g], state := .accumulating } : Batching).Accounts batchSize
      (received ++ [g]) := by
    refine ⟨h.sizes, ?_, h.errors⟩
    rw [← h.games, List.append_assoc]
  unfold Batching.take
  dsimp only
  split
  · refine htaken.flush (by simp) ?_
    rw [List.length_append]
    exact hshort
  · exact htaken

theorem Accounts.drain (h : b.Accounts batchSize received) (hfits : b.batch.length ≤ batchSize) :
    (b.drain outcomes).Accounts batchSize received :=
  ((h.inState .draining).flushIfAny hfits).inState .done

/-! ### The whole loop -/

/-- From its head, the loop keeps account of what it receives until it is left, which only the two events do that
    end it. -/
theorem run_accounts (hhead : b.AtHead batchSize) (h : b.Accounts batchSize received) (outcomes : Outcomes)
    (events : List WriterEvent) :
    (∃ c, b.run batchSize outcomes events = .waiting c ∧ c.AtHead batchSize ∧
      c.Accounts batchSize (received ++ WriterEvent.received events) ∧ ∀ e ∈ events, e.ends = false) ∨
    (∃ c, b.run batchSize outcomes events = .returned c ∧ c.state = .done ∧ c.batch = [] ∧
      c.Accounts batchSize (received ++ WriterEvent.received events) ∧ ∃ e ∈ events, e.ends = true) := by
  induction events generalizing b received with
  | nil => exact Or.inl ⟨b, rfl, hhead, by simpa [WriterEvent.received] using h, by simp⟩
  | cons e events ih =>
    have hfits := Nat.le_of_lt hhead.short
    cases e with
    | game g =>
      have hnext := ih (hhead.take outcomes g) (h.take hhead.short g)
      simpa [run, pass, WriterEvent.received, WriterEvent.ends] using hnext
    | tick =>
      have hnext := ih (hhead.flushIfAny outcomes) (h.flushIfAny hfits)
      simpa [run, pass, WriterEvent.received, WriterEvent.ends] using hnext
    | cancelled | closed =>
      refine Or.inr ⟨b.drain outcomes, rfl, rfl, flushIfAny_batch _ _, ?_, _, List.mem_cons_self, rfl⟩
      simpa [WriterEvent.received] using h.drain hfits

theorem atHead_of_run (hb : 1 ≤ batchSize) (h : start.run batchSize outcomes events = .waiting b) :
    b.AtHead batchSize := by
  rcases run_accounts (atHead_start hb) accounts_start outcomes events with
    ⟨c, hc, hhead, -⟩ | ⟨c, hc, -⟩
  · cases h.symm.trans hc
    exact hhead
  · cases h.symm.trans hc

/-- Events that do not end the loop are followed by one more pass. -/
theorem run_append (h : b.run batchSize outcomes events = .waiting c) (e : WriterEvent) :
    b.run batchSize outcomes (events ++ [e]) = c.pass batchSize outcomes e := by
  induction events generalizing b with
  | nil =>
    cases h
    rw [List.nil_append, run]
    cases c.pass batchSize outcomes e <;> rfl
  | cons d events ih =>
    rw [run] at h
    rw [List.cons_append, run]
    split at h
    · exact ih h
    · cases h

/-- The outcomes are those of transactions that have been run. -/
def Outcomes.Match (outcomes : Outcomes) (transactions : List BatchTransaction) : Prop :=
  ∀ n t, transactions[n]? = some t → outcomes n t.games = t.outcome

theorem Outcomes.Match.append {transactions : List BatchTransaction} {t : BatchTransaction}
    (h : outcomes.Match (transactions ++ [t])) :
    outcomes.Match transactions ∧ outcomes transactions.length t.games = t.outcome := by
  constructor
  · intro n u hu
    obtain ⟨hlt, -⟩ := List.getElem?_eq_some_iff.mp hu
    exact h n u ((List.getElem?_append_left hlt).trans hu)
  · exact h _ t List.getElem?_concat_length

end Batching

/-! ### The writers of an import -/

open Batching

/-- Where a writer of an import is in its loop, once what is under way has been brought to its end. -/
def Writer.point (w : Writer) (outcomes : Outcomes) (transactions : List BatchTransaction) : Point :=
  match w.phase with
  | .idle => .waiting ⟨.idle, w.batch, transactions, w.errors⟩
  | .accumulating => .waiting ⟨.accumulating, w.batch, transactions, w.errors⟩
  | .flushing false => .waiting ((⟨.accumulating, w.batch, transactions, w.errors⟩ : Batching).flush outcomes)
  | .flushing true =>
    .returned { (⟨.draining, w.batch, transactions, w.errors⟩ : Batching).flush outcomes with state := .done }
  | .reporting outcome _ false => .waiting ⟨.idle, w.batch, transactions, w.errors ++ outcome.errors⟩
  | .reporting outcome _ true => .returned ⟨.done, w.batch, transactions, w.errors ++ outcome.errors⟩
  | .done => .returned ⟨.done, w.batch, transactions, w.errors⟩

namespace Writer
variable {w : Writer} {outcomes : Outcomes} {events : List WriterEvent} {transactions : List BatchTransaction}
  {batchSize : Nat}

theorem point_of_accumulating (outcomes : Outcomes) (transactions : List BatchTransaction)
    (h : w.phase = .accumulating) :
    w.point outcomes transactions = .waiting ⟨.accumulating, w.batch, transactions, w.errors⟩ := by
  rw [point, h]

theorem point_of_waits (outcomes : Outcomes) (transactions : List BatchTransaction) (h : w.waits = true) :
    ∃ state, w.point outcomes transactions = .waiting ⟨state, w.batch, transactions, w.errors⟩ := by
  rcases waits_iff.mp h with hp | hp
  · exact ⟨.idle, by rw [point, hp]⟩
  · exact ⟨.accumulating, point_of_accumulating outcomes transactions hp⟩

theorem point_push (w : Writer) (g : DecodedGame) (state : WriterState) :
    (w.push batchSize g).point outcomes transactions =
      .waiting ((⟨state, w.batch, transactions, w.errors⟩ : Batching).take batchSize outcomes g) := by
  simp only [push, Batching.take]
  split <;> rfl

theorem point_leave (w : Writer) (state : WriterState) :
    ({ w with phase := if w.batch.isEmpty then .done else .flushing true } : Writer).point outcomes transactions =
      .returned ((⟨state, w.batch, transactions, w.errors⟩ : Batching).drain outcomes) := by
  simp only [Batching.drain, Batching.flushIfAny]
  split <;> rfl

/-- A transaction that has been run brings the writer where it was to bring it. -/
theorem point_commit {last : Bool} {o : BatchOutcome} (hp : w.phase = .flushing last)
    (ho : outcomes transactions.length w.batch = o) (label : String) :
    (⟨.reporting o label last, [], w.errors⟩ : Writer).point outcomes (transactions ++ [⟨w.batch, o⟩]) =
      w.point outcomes transactions := by
  rw [point, point, hp]
  cases last <;> simp [flush_eq, ho]

theorem point_report {last : Bool} {o : BatchOutcome} {label : String} (hp : w.phase = .reporting o label last) :
    (⟨if last then .done else .idle, w.batch, w.errors ++ o.errors⟩ : Writer).point outcomes transactions =
      w.point outcomes transactions := by
  rw [point, point, hp]
  cases last <;> rfl

/-- These events bring the loop to where the writer is, if the transactions have the outcomes that they had. -/
def IsAt (w : Writer) (batchSize : Nat) (events : List WriterEvent) (transactions : List BatchTransaction) : Prop :=
  ∀ outcomes : Outcomes, outcomes.Match transactions →
    Batching.start.run batchSize outcomes events = w.point outcomes transactions

theorem isAt_start (batchSize : Nat) : Writer.start.IsAt batchSize [] [] := fun _ _ => rfl

theorem IsAt.push (h : w.IsAt batchSize events transactions) (hwaits : w.waits = true) (g : DecodedGame) :
    (w.push batchSize g).IsAt batchSize (events ++ [.game g]) transactions := by
  intro outcomes hmatch
  obtain ⟨state, hstate⟩ := point_of_waits outcomes transactions hwaits
  rw [run_append ((h outcomes hmatch).trans hstate), Batching.pass, point_push w g state]

theorem IsAt.tick (h : w.IsAt batchSize events transactions) (hb : 1 ≤ batchSize) (hp : w.phase = .accumulating) :
    ({ w with phase := .flushing false } : Writer).IsAt batchSize (events ++ [.tick]) transactions := by
  intro outcomes hmatch
  have hrun := (h outcomes hmatch).trans (point_of_accumulating outcomes transactions hp)
  -- A writer that accumulates has a batch, so the loop, too, writes it now.
  have hsome : w.batch.isEmpty = false := by
    simpa using (atHead_of_run hb hrun).accumulating.mp rfl
  rw [run_append hrun, Batching.pass, Batching.flushIfAny, hsome]
  rfl

theorem IsAt.leave (h : w.IsAt batchSize events transactions) (hwaits : w.waits = true) {e : WriterEvent}
    (he : e.ends = true) :
    ({ w with phase := if w.batch.isEmpty then .done else .flushing true } : Writer).IsAt batchSize (events ++ [e])
      transactions := by
  intro outcomes hmatch
  obtain ⟨state, hstate⟩ := point_of_waits outcomes transactions hwaits
  rw [run_append ((h outcomes hmatch).trans hstate), point_leave w state]
  cases e with
  | cancelled | closed => rfl
  | game | tick => cases he

theorem IsAt.commit {last : Bool} (h : w.IsAt batchSize events transactions) (hp : w.phase = .flushing last)
    (o : BatchOutcome) (label : String) :
    (⟨.reporting o label last, [], w.errors⟩ : Writer).IsAt batchSize events (transactions ++ [⟨w.batch, o⟩]) := by
  intro outcomes hmatch
  obtain ⟨hbefore, houtcome⟩ := hmatch.append
  rw [h outcomes hbefore, point_commit hp houtcome]

theorem IsAt.report {last : Bool} {o : BatchOutcome} {label : String} (h : w.IsAt batchSize events transactions)
    (hp : w.phase = .reporting o label last) :
    (⟨if last then .done else .idle, w.batch, w.errors ++ o.errors⟩ : Writer).IsAt batchSize events transactions := by
  intro outcomes hmatch
  rw [h outcomes hmatch, point_report hp]

end Writer

namespace ImportState

/-- What an action is for the loop of writer `j`. -/
def event? (j : Nat) (s : ImportState) : ImportAction → Option WriterEvent
  | .receive i => if i = j then s.queue.head?.map .game else none
  | .tick i => if i = j then some .tick else none
  | .leave i => if i = j then some (if s.cancelled then .cancelled else .closed) else none
  | _ => none

/-- The transaction of writer `j` that an action runs. -/
def transaction? (j : Nat) (s : ImportState) : ImportAction → Option BatchTransaction
  | .commit i succeeds =>
    if i = j then s.writers[j]?.map fun w => ⟨w.batch, (s.archive.writeBatch succeeds w.batch).1⟩ else none
  | _ => none

/-- What the actions of a run come to, one after the other. -/
def listed {α : Type} (keys : FingerprintKeys) (settings : ImportSettings) (f : ImportState → ImportAction → Option α)
    (s : ImportState) : List ImportAction → List α
  | [] => []
  | a :: rest => (f s a).toList ++ ((s.step keys settings a).map fun t => t.listed keys settings f rest).getD []

section
variable {keys : FingerprintKeys} {settings : ImportSettings} {s t : ImportState} {a : ImportAction} {j : Nat}
  {events : List WriterEvent} {transactions : List BatchTransaction}

/-- Writer `j` has come in its loop to where these events lead, with these transactions. -/
def Reaches (batchSize : Nat) (j : Nat) (events : List WriterEvent) (transactions : List BatchTransaction)
    (s : ImportState) : Prop :=
  ∃ w, s.writers[j]? = some w ∧ w.IsAt batchSize events transactions

theorem snapshot_writers (s : ImportState) (capacity : Nat) (label : String) :
    (s.snapshot capacity label).writers = s.writers := by
  obtain ⟨received, h⟩ := snapshot_frame s capacity label
  rw [h]

/-- What others do is nothing to writer `j`. -/
theorem Move.other (hm : Move keys settings s a t) (ha : a.worker ≠ .writer j) :
    t.writers[j]? = s.writers[j]? ∧ s.event? j a = none ∧ s.transaction? j a = none := by
  cases hm with
  | receive | tick | leave | commit | report =>
    have hne : _ ≠ j := fun h => ha (congrArg Worker.writer h)
    simp [event?, transaction?, setWriter, snapshot_writers, hne, List.getElem?_set_ne hne]
  | _ => simp [event?, transaction?, setDecoder, ImportState.drain, ImportState.finish, snapshot_writers]

theorem Reaches.other (h : s.Reaches settings.batchSize j events transactions) (hm : Move keys settings s a t)
    (ha : a.worker ≠ .writer j) :
    t.Reaches settings.batchSize j (events ++ (s.event? j a).toList) (transactions ++ (s.transaction? j a).toList) := by
  obtain ⟨hwriter, hevent, htransaction⟩ := hm.other ha
  obtain ⟨w, hw, hat⟩ := h
  refine ⟨w, hwriter.trans hw, ?_⟩
  simpa [hevent, htransaction] using hat

theorem Reaches.own (h : s.Reaches settings.batchSize j events transactions) (hb : 1 ≤ settings.batchSize)
    (hm : Move keys settings s a t) (ha : a.worker = .writer j) :
    t.Reaches settings.batchSize j (events ++ (s.event? j a).toList) (transactions ++ (s.transaction? j a).toList) := by
  obtain ⟨w, hw, hat⟩ := h
  have hwritten (v : Writer) : (s.writers.set j v)[j]? = some v := by
    obtain ⟨hlt, -⟩ := List.getElem?_eq_some_iff.mp hw
    exact List.getElem?_set_self hlt
  cases hm with
  | @receive i v g rest hv hwaits _ hq =>
    obtain rfl := Worker.writer.inj ha
    obtain rfl := Option.some.inj (hw.symm.trans hv)
    refine ⟨_, hwritten _, ?_⟩
    simpa [event?, transaction?, hq] using hat.push hwaits g
  | @tick i v hv hp _ =>
    obtain rfl := Worker.writer.inj ha
    obtain rfl := Option.some.inj (hw.symm.trans hv)
    refine ⟨_, hwritten _, ?_⟩
    simpa [event?, transaction?] using hat.tick hb hp
  | @leave i v hv hwaits _ =>
    obtain rfl := Worker.writer.inj ha
    obtain rfl := Option.some.inj (hw.symm.trans hv)
    have hends : (if s.cancelled then .cancelled else .closed : WriterEvent).ends = true := by
      split <;> rfl
    refine ⟨_, hwritten _, ?_⟩
    simpa only [event?, transaction?, if_true, Option.toList_some, Option.toList_none, List.append_nil] using
      hat.leave hwaits hends
  | @commit i v last succeeds hv hp =>
    obtain rfl := Worker.writer.inj ha
    obtain rfl := Option.some.inj (hw.symm.trans hv)
    refine ⟨_, hwritten _, ?_⟩
    simpa [event?, transaction?, hw] using hat.commit hp (s.archive.writeBatch succeeds w.batch).1 (batchLabel w.batch)
  | @report i v outcome label last hv hp =>
    obtain rfl := Worker.writer.inj ha
    obtain rfl := Option.some.inj (hw.symm.trans hv)
    refine ⟨_, (congrArg (·[i]?) (snapshot_writers _ _ _)).trans (hwritten _), ?_⟩
    simpa [event?, transaction?] using hat.report hp
  | _ => cases ha

theorem Reaches.move (h : s.Reaches settings.batchSize j events transactions) (hb : 1 ≤ settings.batchSize)
    (hm : Move keys settings s a t) :
    t.Reaches settings.batchSize j (events ++ (s.event? j a).toList) (transactions ++ (s.transaction? j a).toList) := by
  by_cases ha : a.worker = .writer j
  · exact h.own hb hm ha
  · exact h.other hm ha

theorem Reaches.perform (h : s.Reaches settings.batchSize j events transactions) (hb : 1 ≤ settings.batchSize)
    {actions : List ImportAction} (hs : s.perform keys settings actions = some t) :
    t.Reaches settings.batchSize j (events ++ s.listed keys settings (event? j) actions)
      (transactions ++ s.listed keys settings (transaction? j) actions) := by
  induction actions generalizing s events transactions with
  | nil =>
    cases hs
    simpa [listed] using h
  | cons a actions ih =>
    obtain ⟨u, hm, hu, ht⟩ := perform_cons hs
    simpa [listed, hu] using ih (h.move hb hm) ht

end
end ImportState

namespace Batching
open ImportState

/-- Batching is sound, whatever the events are and whichever transactions fail. Before an event that ends the loop, the
    writer is at its head, with a short batch and in the state that tells whether there is one; after it, the writer is
    done and has no batch. The transactions so far have between one game and a full batch each, together they have the
    games received and not in the batch, each once and in their order, and there are as many errors as of them failed.
    In an import each writer is where its loop is with the events that it has met and the outcomes that it has had. -/
theorem batching_sound {batchSize : Nat} (hb : 1 ≤ batchSize) :
    (∀ (outcomes : Outcomes) (events : List WriterEvent),
      (∃ b, start.run batchSize outcomes events = .waiting b ∧ b.AtHead batchSize ∧
        b.Accounts batchSize (WriterEvent.received events) ∧ ∀ e ∈ events, e.ends = false) ∨
      (∃ b, start.run batchSize outcomes events = .returned b ∧ b.state = .done ∧ b.batch = [] ∧
        b.Accounts batchSize (WriterEvent.received events) ∧ ∃ e ∈ events, e.ends = true)) ∧
    ∀ (keys : FingerprintKeys) (settings : ImportSettings) (s t : ImportState) (j : Nat) (actions : List ImportAction),
      settings.batchSize = batchSize → s.writers[j]? = some .start → s.perform keys settings actions = some t →
      ∃ w, t.writers[j]? = some w ∧
        ∀ outcomes : Outcomes, outcomes.Match (s.listed keys settings (transaction? j) actions) →
          start.run batchSize outcomes (s.listed keys settings (event? j) actions) =
            w.point outcomes (s.listed keys settings (transaction? j) actions) := by
  constructor
  · intro outcomes events
    exact run_accounts (atHead_start hb) accounts_start outcomes events
  · rintro keys settings s t j actions rfl hstart hs
    have hnone : s.Reaches settings.batchSize j [] [] := ⟨.start, hstart, Writer.isAt_start _⟩
    exact hnone.perform hb hs

/-- A tick without a batch, one with a batch, a full batch whose transaction fails, and a last game when the import is
    cancelled; and a writer of an import with the same games, whose transactions both fail. -/
theorem batching_sound_four_games :
    let g : DecodedGame := ⟨.ofTags ⟨[]⟩, [], none, []⟩
    let settings : ImportSettings := ⟨0, 1, 2, 1, 1, 1⟩
    let s : ImportState := { ImportState.start settings (.ofStore .empty) [] false with queue := [g, g, g] }
    (∃ b, start.run 2 (fun n _ => if n = 1 then .failed 2 else .committed 1 0)
        [.tick, .game g, .tick, .game g, .game g, .game g, .cancelled, .game g] = .returned b ∧
      b.transactions.map (·.games.length) = [1, 2, 1] ∧ b.errors = [.transaction] ∧
      b.transactions.flatMap (·.games) = [g, g, g, g]) ∧
    ∃ t w, s.perform ⟨.replicate keyCount 0⟩ settings [.receive 0, .tick 0, .commit 0 false, .report 0, .receive 0,
        .receive 0, .commit 0 false, .report 0, .leave 0] = some t ∧ t.writers[0]? = some w ∧
      start.run 2 (fun _ games => .failed games.length) [.game g, .tick, .game g, .game g, .closed] =
        w.point (fun _ games => .failed games.length) [⟨[g], .failed 1⟩, ⟨[g, g], .failed 2⟩] ∧
      w.errors = [.transaction, .transaction] := by
  intro g settings s
  obtain ⟨hloop, himport⟩ := batching_sound (Nat.le_succ 1)
  constructor
  · rcases hloop (fun n _ => if n = 1 then .failed 2 else .committed 1 0)
      [.tick, .game g, .tick, .game g, .game g, .game g, .cancelled, .game g] with
      ⟨b, hb, -⟩ | ⟨b, hb, -, hnone, haccounts, -⟩
    · cases hb
    · have hgames := haccounts.games
      rw [hnone, List.append_nil] at hgames
      refine ⟨b, hb, ?_, ?_, hgames⟩ <;> cases hb <;> rfl
  · obtain ⟨w, hw, hpoint⟩ := himport ⟨.replicate keyCount 0⟩ settings s _ 0 [.receive 0, .tick 0, .commit 0 false,
      .report 0, .receive 0, .receive 0, .commit 0 false, .report 0, .leave 0] rfl rfl rfl
    refine ⟨_, w, rfl, hw, hpoint _ ?_, ?_⟩
    · intro n t ht
      match n, ht with
      | 0, ht => cases ht; rfl
      | 1, ht => cases ht; rfl
      | n + 2, ht => cases ht
    · cases hw
      rfl

end Batching
end ChessArchive
