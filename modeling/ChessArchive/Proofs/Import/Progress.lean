import Mathlib.Algebra.GroupWithZero.Nat
import ChessArchive.Proofs.Import.Step

/-! Why an import comes to its end. A batch fits the phase of its writer, and unless the import is cancelled no worker
    stops while something is still to come. Every step that changes anything lowers a rank, and before the end there
    is always such a step, even if nothing is cancelled and no transaction fails. -/

namespace ChessArchive

/-- The action neither cancels the import nor lets a transaction fail. -/
def ImportAction.Smooth (a : ImportAction) : Prop := a ≠ .cancel ∧ ∀ j, a ≠ .commit j false

/-! ### Phases -/

/-- The batch of a writer fits its phase. -/
def Writer.Orderly (batchSize : Nat) (w : Writer) : Prop :=
  match w.phase with
  | .idle | .reporting _ _ _ | .done => w.batch = []
  | .accumulating => w.batch ≠ [] ∧ w.batch.length < batchSize
  | .flushing _ => w.batch ≠ [] ∧ w.batch.length ≤ batchSize

/-- The writer has received its last game. -/
def WriterPhase.isLast : WriterPhase → Bool
  | .flushing last | .reporting _ _ last => last
  | .done => true
  | _ => false

namespace Writer
variable {batchSize : Nat} {w : Writer}

theorem orderly_start : Writer.start.Orderly batchSize := rfl

theorem waits_iff : w.waits = true ↔ w.phase = .idle ∨ w.phase = .accumulating := by
  simp [waits]

theorem busy_of_waits (h : w.waits = true) : w.phase ≠ .done := by
  rcases waits_iff.mp h with hp | hp <;> simp [hp]

theorem Orderly.length_lt (h : w.Orderly batchSize) (hb : 0 < batchSize) (hw : w.waits = true) :
    w.batch.length < batchSize := by
  unfold Orderly at h
  rcases waits_iff.mp hw with hp | hp <;> rw [hp] at h
  · simpa [h] using hb
  · exact h.2

theorem Orderly.push (h : w.Orderly batchSize) (hb : 0 < batchSize) (hw : w.waits = true) (g : DecodedGame) :
    (w.push batchSize g).Orderly batchSize := by
  have hlt := h.length_lt hb hw
  simp only [Orderly, Writer.push]
  by_cases hfull : batchSize ≤ (w.batch ++ [g]).length
  · rw [if_pos hfull, List.length_append, List.length_singleton]
    exact ⟨by simp, hlt⟩
  · rw [if_neg hfull]
    exact ⟨by simp, Nat.lt_of_not_le hfull⟩

theorem Orderly.tick (h : w.Orderly batchSize) (hp : w.phase = .accumulating) :
    ({ w with phase := .flushing false } : Writer).Orderly batchSize := by
  rw [Orderly, hp] at h
  exact ⟨h.1, Nat.le_of_lt h.2⟩

theorem Orderly.leave (h : w.Orderly batchSize) (hb : 0 < batchSize) (hw : w.waits = true) :
    ({ w with phase := if w.batch.isEmpty then .done else .flushing true } : Writer).Orderly batchSize := by
  have hlt := h.length_lt hb hw
  cases hbatch : w.batch with
  | nil => simp [Orderly]
  | cons g gs => simpa [Orderly, hbatch] using Nat.le_of_lt hlt

theorem Orderly.flushing (h : w.Orderly batchSize) {last : Bool} (hp : w.phase = .flushing last) : w.batch ≠ [] := by
  rw [Orderly, hp] at h
  exact h.1

theorem Orderly.reporting (h : w.Orderly batchSize) {outcome : BatchOutcome} {label : String} {last : Bool}
    (hp : w.phase = .reporting outcome label last) : w.batch = [] := by
  rwa [Orderly, hp] at h

end Writer

namespace ImportState

/-! ### Nobody stops too early -/

/-- Batches fit the phases, and unless the import is cancelled, a decoder stops only when there is no more input and
    a writer receives its last game only when no more can come. -/
structure InOrder (settings : ImportSettings) (s : ImportState) : Prop where
  crew : s.decoders.length = settings.decodeWorkers ∧ s.writers.length = settings.writerWorkers
  writers : ∀ w ∈ s.writers, w.Orderly settings.batchSize
  stopped : s.cancelled = false → Decoder.stopped ∈ s.decoders → s.inputEnded = true
  last : s.cancelled = false → (∃ w ∈ s.writers, w.phase.isLast = true) → s.queueEnded = true
  closed : s.queueClosed = true → s.decodersStopped = true ∧ s.writersDone = true ∧ s.queue = []
  finished : s.finished = true → s.queueClosed = true

section
variable {keys : FingerprintKeys} {settings : ImportSettings} {s t : ImportState} {a : ImportAction}

theorem InOrder.decoder_moves (h : s.InOrder settings) {i : Nat} {d e : Decoder} (hd : s.decoders[i]? = some d)
    (hworks : d ≠ .stopped) (hdecoders : t.decoders = s.decoders.set i e) (hwriters : t.writers = s.writers)
    (hcancelled : t.cancelled = s.cancelled) (hclosed : t.queueClosed = s.queueClosed)
    (hinput : s.inputEnded = true → t.inputEnded = true)
    (hstops : e = .stopped → s.cancelled = true ∨ s.inputEnded = true) (hfinished : t.finished = false) :
    t.InOrder settings where
  crew := by
    rw [hdecoders, hwriters, List.length_set]
    exact h.crew
  writers := hwriters ▸ h.writers
  stopped hc hmem := by
    rw [hcancelled] at hc
    rw [hdecoders] at hmem
    rcases List.mem_or_eq_of_mem_set hmem with hmem | rfl
    · exact hinput (h.stopped hc hmem)
    · rcases hstops rfl with hcan | hend
      · simp [hc] at hcan
      · exact hinput hend
  last hc hlast := by
    rw [hcancelled] at hc
    rw [hwriters] at hlast
    have hend := h.last hc hlast
    rw [queueEnded, Bool.and_eq_true, decodersStopped_iff] at hend
    exact absurd (hend.2 d (List.mem_of_getElem? hd)) hworks
  closed hc := by
    rw [hclosed] at hc
    exact absurd (decodersStopped_iff.mp (h.closed hc).1 d (List.mem_of_getElem? hd)) hworks
  finished hf := by simp [hfinished] at hf

theorem InOrder.writer_moves (h : s.InOrder settings) {j : Nat} {w v : Writer} (hw : s.writers[j]? = some w)
    (hbusy : w.phase ≠ .done) (hwriters : t.writers = s.writers.set j v) (hdecoders : t.decoders = s.decoders)
    (hcancelled : t.cancelled = s.cancelled) (hclosed : t.queueClosed = s.queueClosed)
    (hinput : t.inputEnded = s.inputEnded) (hv : v.Orderly settings.batchSize)
    (hqueue : s.queueEnded = true → t.queueEnded = true)
    (hlast : v.phase.isLast = true → w.phase.isLast = true ∨ s.cancelled = true ∨ s.queueEnded = true)
    (hfinished : t.finished = false) : t.InOrder settings where
  crew := by
    rw [hdecoders, hwriters, List.length_set]
    exact h.crew
  writers x hx := by
    rw [hwriters] at hx
    rcases List.mem_or_eq_of_mem_set hx with hx | rfl
    · exact h.writers x hx
    · exact hv
  stopped hc hmem := by
    rw [hinput]
    exact h.stopped (hcancelled ▸ hc) (hdecoders ▸ hmem)
  last hc := by
    rintro ⟨x, hx, hxlast⟩
    rw [hcancelled] at hc
    rw [hwriters] at hx
    rcases List.mem_or_eq_of_mem_set hx with hx | rfl
    · exact hqueue (h.last hc ⟨x, hx, hxlast⟩)
    · rcases hlast hxlast with hwlast | hcan | hend
      · exact hqueue (h.last hc ⟨w, List.mem_of_getElem? hw, hwlast⟩)
      · simp [hc] at hcan
      · exact hqueue hend
  closed hc := by
    rw [hclosed] at hc
    exact absurd (writersDone_iff.mp (h.closed hc).2.1 w (List.mem_of_getElem? hw)) hbusy
  finished hf := by simp [hfinished] at hf

theorem InOrder.snapshot (h : s.InOrder settings) (capacity : Nat) (label : String) :
    (s.snapshot capacity label).InOrder settings := by
  obtain ⟨received, hframe⟩ := snapshot_frame s capacity label
  rw [hframe]
  exact ⟨h.crew, h.writers, h.stopped, h.last, h.closed, h.finished⟩

theorem inOrder_start {archive : Archive} {input : List RawGame} {inputOpen : Bool} :
    (start settings archive input inputOpen).InOrder settings where
  crew := ⟨List.length_replicate, List.length_replicate⟩
  writers w hw := by
    obtain rfl := List.eq_of_mem_replicate hw
    exact Writer.orderly_start
  stopped _ hmem := by cases List.eq_of_mem_replicate hmem
  last := by
    rintro - ⟨w, hw, hlast⟩
    obtain rfl := List.eq_of_mem_replicate hw
    cases hlast
  closed hc := by cases hc
  finished hf := by cases hf

theorem InOrder.move (h : s.InOrder settings) (hb : 0 < settings.batchSize) (hf : s.finished = false)
    (hm : Move keys settings s a t) : t.InOrder settings := by
  cases hm with
  | cancel => exact ⟨h.crew, h.writers, nofun, nofun, h.closed, h.finished⟩
  | closeInput =>
    refine ⟨h.crew, h.writers, fun hc hmem => ?_, h.last, h.closed, h.finished⟩
    have hend := h.stopped hc hmem
    rw [inputEnded, Bool.and_eq_true] at hend
    simpa [inputEnded] using hend.1
  | @take i raw rest hd _ hi =>
    refine h.decoder_moves hd nofun rfl rfl rfl rfl (fun hend => ?_) nofun hf
    simp [inputEnded, hi] at hend
  | stop hd hend =>
    rw [Bool.or_eq_true] at hend
    exact h.decoder_moves hd nofun rfl rfl rfl rfl id (fun _ => hend) hf
  | accept hd _ => exact h.decoder_moves hd nofun rfl rfl rfl rfl id nofun hf
  | reject hd _ =>
    refine InOrder.snapshot ?_ _ _
    exact h.decoder_moves hd nofun rfl rfl rfl rfl id nofun hf
  | send hd _ _ _ => exact h.decoder_moves hd nofun rfl rfl rfl rfl id nofun hf
  | discard hd hc => exact h.decoder_moves hd nofun rfl rfl rfl rfl id (fun _ => Or.inl hc) hf
  | abandon hd _ hclosed =>
    exact absurd (decodersStopped_iff.mp (h.closed hclosed).1 _ (List.mem_of_getElem? hd)) nofun
  | @receive j w g rest hw hwaits _ hq =>
    have horder := h.writers w (List.mem_of_getElem? hw)
    refine h.writer_moves hw (Writer.busy_of_waits hwaits) rfl rfl rfl rfl rfl (horder.push hb hwaits g)
      (fun hend => ?_) (fun hlast => ?_) hf
    · simp [queueEnded, hq] at hend
    · simp only [Writer.push] at hlast
      split at hlast <;> cases hlast
  | @tick j w hw hp _ =>
    have horder := h.writers w (List.mem_of_getElem? hw)
    exact h.writer_moves hw (by simp [hp]) rfl rfl rfl rfl rfl (horder.tick hp) id nofun hf
  | @leave j w hw hwaits hend =>
    have horder := h.writers w (List.mem_of_getElem? hw)
    rw [Bool.or_eq_true] at hend
    exact h.writer_moves hw (Writer.busy_of_waits hwaits) rfl rfl rfl rfl rfl (horder.leave hb hwaits) id
      (fun _ => Or.inr hend) hf
  | @commit j w last _ hw hp =>
    exact h.writer_moves hw (by simp [hp]) rfl rfl rfl rfl rfl rfl id (fun hlast => Or.inl (by rwa [hp])) hf
  | @report j w outcome label last hw hp =>
    have horder := h.writers w (List.mem_of_getElem? hw)
    refine InOrder.snapshot ?_ _ _
    refine h.writer_moves hw (by simp [hp]) rfl rfl rfl rfl rfl ?_ id (fun hlast => Or.inl ?_) hf
    · cases last <;> exact horder.reporting hp
    · rw [hp]
      cases last
      · cases hlast
      · rfl
  | drain hd hw _ =>
    refine ⟨h.crew, h.writers, h.stopped, fun _ _ => ?_, fun _ => ⟨hd, hw, rfl⟩, fun _ => rfl⟩
    exact Bool.and_eq_true_iff.mpr ⟨rfl, hd⟩
  | finish hclosed =>
    refine InOrder.snapshot ?_ _ _
    exact ⟨h.crew, h.writers, h.stopped, h.last, h.closed, fun _ => hclosed⟩

theorem Run.inOrder {allows : ImportAction → Prop} {archive : Archive} {input : List RawGame} {inputOpen : Bool}
    (hb : 0 < settings.batchSize)
    (h : Run keys settings allows (ImportState.start settings archive input inputOpen) s) : s.InOrder settings := by
  induction h with
  | start => exact inOrder_start
  | step a _ _ hs ih =>
    obtain ⟨hf, hm⟩ := step_iff.mp hs
    exact ih.move hb hf hm

end

end ImportState

/-! ### The rank -/

/-- More than the steps that a decoder can still make until it waits again or stops. -/
def Decoder.rank : Decoder → Nat
  | .idle => 1
  | .holding _ => 8
  | .ready _ => 7
  | .stopped => 0

def WriterPhase.rank : WriterPhase → Nat
  | .idle | .accumulating => 3
  | .flushing _ => 2
  | .reporting _ _ _ => 4
  | .done => 0

def Writer.rank (w : Writer) : Nat := 4 * w.batch.length + w.phase.rank

namespace ImportState

/-- A bound for the steps that can still change anything. -/
def rank (s : ImportState) : Nat :=
  8 * s.input.length + s.inputOpen.toNat + (!s.cancelled).toNat + (s.decoders.map Decoder.rank).sum +
    5 * s.queue.length + (s.writers.map Writer.rank).sum + (!s.queueClosed).toNat + (!s.finished).toNat

section
variable {keys : FingerprintKeys} {settings : ImportSettings} {s t : ImportState} {a : ImportAction}

theorem rank_snapshot (s : ImportState) (capacity : Nat) (label : String) :
    (s.snapshot capacity label).rank = s.rank := by
  obtain ⟨received, hframe⟩ := snapshot_frame s capacity label
  rw [hframe]
  rfl

theorem rank_of_waits {w : Writer} (h : w.waits = true) : w.phase.rank = 3 := by
  rcases Writer.waits_iff.mp h with hp | hp <;> rw [hp] <;> rfl

theorem rank_push (w : Writer) (batchSize : Nat) (g : DecodedGame) (hw : w.waits = true) :
    (w.push batchSize g).rank < w.rank + 5 := by
  have hrank := rank_of_waits hw
  simp only [Writer.push, Writer.rank, List.length_append, List.length_singleton, hrank]
  split <;> simp only [WriterPhase.rank] <;> omega

theorem rank_decoder {i : Nat} {d e : Decoder} (hd : s.decoders[i]? = some d)
    (hdecoders : t.decoders = s.decoders.set i e) (hwriters : t.writers = s.writers)
    (hopen : t.inputOpen = s.inputOpen) (hcancelled : t.cancelled = s.cancelled)
    (hclosed : t.queueClosed = s.queueClosed) (hfinished : t.finished = s.finished)
    (hlt : 8 * t.input.length + 5 * t.queue.length + e.rank < 8 * s.input.length + 5 * s.queue.length + d.rank) :
    t.rank < s.rank := by
  have hsum := sum_map_set hd e Decoder.rank
  rw [rank, rank, hdecoders, hwriters, hopen, hcancelled, hclosed, hfinished]
  omega

theorem rank_writer {j : Nat} {w v : Writer} (hw : s.writers[j]? = some w) (hwriters : t.writers = s.writers.set j v)
    (hdecoders : t.decoders = s.decoders) (hinput : t.input = s.input) (hopen : t.inputOpen = s.inputOpen)
    (hcancelled : t.cancelled = s.cancelled) (hclosed : t.queueClosed = s.queueClosed)
    (hfinished : t.finished = s.finished) (hlt : 5 * t.queue.length + v.rank < 5 * s.queue.length + w.rank) :
    t.rank < s.rank := by
  have hsum := sum_map_set hw v Writer.rank
  rw [rank, rank, hdecoders, hwriters, hinput, hopen, hcancelled, hclosed, hfinished]
  omega

/-- A step lowers the rank, unless it changes nothing; and every step of a worker changes something. -/
theorem Move.rank_lt (h : s.InOrder settings) (hf : s.finished = false) (hm : Move keys settings s a t) :
    (t = s ∧ (a = .cancel ∨ a = .closeInput)) ∨ t.rank < s.rank := by
  cases hm with
  | cancel =>
    cases hc : s.cancelled with
    | true =>
      left
      rw [← hc]
      exact ⟨rfl, Or.inl rfl⟩
    | false =>
      right
      simp [rank, hc]
  | closeInput =>
    cases hopen : s.inputOpen with
    | true =>
      right
      simp [rank, hopen]
    | false =>
      left
      rw [← hopen]
      exact ⟨rfl, Or.inr rfl⟩
  | @take i raw rest hd _ hi =>
    refine Or.inr (rank_decoder hd rfl rfl rfl rfl rfl rfl ?_)
    simp only [setDecoder, hi, List.length_cons, Decoder.rank]
    omega
  | stop hd _ => exact Or.inr (rank_decoder hd rfl rfl rfl rfl rfl rfl (Nat.lt_succ_self _))
  | accept hd _ => exact Or.inr (rank_decoder hd rfl rfl rfl rfl rfl rfl (Nat.lt_succ_self _))
  | reject hd _ =>
    rw [rank_snapshot]
    refine Or.inr (rank_decoder hd rfl rfl rfl rfl rfl rfl ?_)
    simp only [setDecoder, Decoder.rank]
    omega
  | send hd _ _ _ =>
    refine Or.inr (rank_decoder hd rfl rfl rfl rfl rfl rfl ?_)
    simp only [setDecoder, List.length_append, List.length_singleton, Decoder.rank]
    omega
  | discard hd _ =>
    refine Or.inr (rank_decoder hd rfl rfl rfl rfl rfl rfl ?_)
    simp only [setDecoder, Decoder.rank]
    omega
  | abandon hd _ hclosed =>
    exact absurd (decodersStopped_iff.mp (h.closed hclosed).1 _ (List.mem_of_getElem? hd)) nofun
  | @receive j w g rest hw hwaits _ hq =>
    have hpush := rank_push w settings.batchSize g hwaits
    refine Or.inr (rank_writer hw rfl rfl rfl rfl rfl rfl rfl ?_)
    simp only [setWriter, hq, List.length_cons]
    omega
  | tick hw hp _ =>
    refine Or.inr (rank_writer hw rfl rfl rfl rfl rfl rfl rfl ?_)
    simp only [setWriter, Writer.rank, hp, WriterPhase.rank]
    omega
  | @leave j w hw hwaits _ =>
    refine Or.inr (rank_writer hw rfl rfl rfl rfl rfl rfl rfl ?_)
    have hrank := rank_of_waits hwaits
    simp only [setWriter, Writer.rank, hrank]
    split <;> simp only [WriterPhase.rank] <;> omega
  | @commit j w last _ hw hp =>
    have hbatch := List.length_pos_of_ne_nil ((h.writers w (List.mem_of_getElem? hw)).flushing hp)
    refine Or.inr (rank_writer hw rfl rfl rfl rfl rfl rfl rfl ?_)
    simp only [setWriter, Writer.rank, hp, WriterPhase.rank, List.length_nil]
    omega
  | @report j w outcome label last hw hp =>
    rw [rank_snapshot]
    refine Or.inr (rank_writer hw rfl rfl rfl rfl rfl rfl rfl ?_)
    cases last <;> simp [setWriter, Writer.rank, hp, WriterPhase.rank]
  | drain _ _ hopen =>
    right
    simp only [ImportState.drain, rank, hopen, List.length_nil, Bool.not_true, Bool.not_false, Bool.toNat_true,
      Bool.toNat_false]
    omega
  | finish _ =>
    right
    rw [ImportState.finish, rank_snapshot]
    simp only [rank, hf, Bool.not_true, Bool.not_false, Bool.toNat_true, Bool.toNat_false]
    omega

/-! ### Before the end -/

/-- A writer that is not done goes on, unless it waits for a queue that is empty for now. -/
theorem exists_move_writer {j : Nat} {w : Writer} (hw : s.writers[j]? = some w) (hp : w.phase ≠ .done)
    (hq : s.queue ≠ [] ∨ s.queueEnded = true) :
    ∃ a t, Move keys settings s a t ∧ a.Smooth ∧ a ≠ .closeInput := by
  cases hphase : w.phase with
  | idle | accumulating =>
    have hwaits : w.waits = true := Writer.waits_iff.mpr (by simp [hphase])
    by_cases hend : (s.cancelled || s.queueEnded) = true
    · exact ⟨.leave j, _, .leave hw hwaits hend, ⟨nofun, nofun⟩, nofun⟩
    · simp only [Bool.or_eq_true, not_or, Bool.not_eq_true] at hend
      have hqueue := hq.resolve_right (by simp [hend.2])
      obtain ⟨g, rest, hqueue⟩ := List.exists_cons_of_ne_nil hqueue
      exact ⟨.receive j, _, .receive hw hwaits hend.1 hqueue, ⟨nofun, nofun⟩, nofun⟩
  | flushing last => exact ⟨.commit j true, _, .commit true hw hphase, ⟨nofun, nofun⟩, nofun⟩
  | reporting outcome label last => exact ⟨.report j, _, .report hw hphase, ⟨nofun, nofun⟩, nofun⟩
  | done => exact absurd hphase hp

theorem InOrder.exists_move_decoder (h : s.InOrder settings) (hcap : 0 < settings.queueCapacity)
    (hcrew : 0 < settings.writerWorkers) {i : Nat} {d : Decoder} (hd : s.decoders[i]? = some d)
    (hworks : d ≠ .stopped) :
    ∃ a t, Move keys settings s a t ∧ a.Smooth ∧ (a = .closeInput → s.inputOpen = true) := by
  cases d with
  | idle =>
    by_cases hend : (s.cancelled || s.inputEnded) = true
    · exact ⟨.stop i, _, .stop hd hend, ⟨nofun, nofun⟩, nofun⟩
    · simp only [Bool.or_eq_true, not_or, Bool.not_eq_true] at hend
      cases hinput : s.input with
      | nil =>
        refine ⟨.closeInput, _, .closeInput, ⟨nofun, nofun⟩, fun _ => ?_⟩
        simpa [inputEnded, hinput] using hend.2
      | cons raw rest => exact ⟨.take i, _, .take hd hend.1 hinput, ⟨nofun, nofun⟩, nofun⟩
  | holding raw =>
    cases hraw : DecodedGame.ofRaw keys raw with
    | ok g => exact ⟨.decode i, _, .accept hd hraw, ⟨nofun, nofun⟩, nofun⟩
    | error cause => exact ⟨.decode i, _, .reject hd hraw, ⟨nofun, nofun⟩, nofun⟩
  | ready g =>
    cases hc : s.cancelled with
    | true => exact ⟨.discard i, _, .discard hd hc, ⟨nofun, nofun⟩, nofun⟩
    | false =>
      by_cases hfull : s.queue.length < settings.queueCapacity
      · have hopen : s.queueClosed = false := by
          rw [Bool.eq_false_iff]
          intro hclosed
          exact absurd (decodersStopped_iff.mp (h.closed hclosed).1 _ (List.mem_of_getElem? hd)) nofun
        exact ⟨.send i, _, .send hd hc hopen hfull, ⟨nofun, nofun⟩, nofun⟩
      · -- The queue is full, so the first writer has something to receive, and it cannot be done yet.
        have hqueue : s.queue ≠ [] := by
          rintro hnil
          simp [hnil] at hfull
          omega
        obtain ⟨w, hw⟩ : ∃ w, s.writers[0]? = some w := ⟨_, List.getElem?_eq_getElem (h.crew.2 ▸ hcrew)⟩
        have hbusy : w.phase ≠ .done := fun hdone => by
          have hend := h.last hc ⟨w, List.mem_of_getElem? hw, by rw [hdone]; rfl⟩
          simp [queueEnded, hqueue] at hend
        obtain ⟨a, t, hm, hsmooth, hne⟩ := exists_move_writer hw hbusy (Or.inl hqueue)
        exact ⟨a, t, hm, hsmooth, fun ha => absurd ha hne⟩
  | stopped => exact absurd rfl hworks

/-- Before the end something can go on, though nothing is cancelled and no transaction fails. -/
theorem InOrder.progress (h : s.InOrder settings) (keys : FingerprintKeys) (hcap : 0 < settings.queueCapacity)
    (hcrew : 0 < settings.writerWorkers) (hf : s.finished = false) :
    ∃ a t, a.Smooth ∧ s.step keys settings a = some t ∧ t ≠ s := by
  suffices hmove : ∃ a t, Move keys settings s a t ∧ a.Smooth ∧ (a = .closeInput → s.inputOpen = true) by
    obtain ⟨a, t, hm, hsmooth, hopen⟩ := hmove
    refine ⟨a, t, hsmooth, move_step hf hm, fun hts => ?_⟩
    rcases hm.rank_lt h hf with ⟨-, rfl | rfl⟩ | hlt
    · exact hsmooth.1 rfl
    · cases hm
      have := congrArg ImportState.inputOpen hts
      simp [hopen rfl] at this
    · simp [hts] at hlt
  by_cases hdecoders : s.decodersStopped = true
  · by_cases hwriters : s.writersDone = true
    · cases hclosed : s.queueClosed with
      | true => exact ⟨.finish, _, .finish hclosed, ⟨nofun, nofun⟩, nofun⟩
      | false => exact ⟨.drain, _, .drain hdecoders hwriters hclosed, ⟨nofun, nofun⟩, nofun⟩
    · simp only [writersDone_iff, not_forall] at hwriters
      obtain ⟨w, hmem, hp⟩ := hwriters
      obtain ⟨j, hw⟩ := List.mem_iff_getElem?.mp hmem
      have hq : s.queue ≠ [] ∨ s.queueEnded = true := by
        by_cases hqueue : s.queue = []
        · exact Or.inr (by simp [queueEnded, hqueue, hdecoders])
        · exact Or.inl hqueue
      obtain ⟨a, t, hm, hsmooth, hne⟩ := exists_move_writer hw hp hq
      exact ⟨a, t, hm, hsmooth, fun ha => absurd ha hne⟩
  · simp only [decodersStopped_iff, not_forall] at hdecoders
    obtain ⟨d, hmem, hworks⟩ := hdecoders
    obtain ⟨i, hd⟩ := List.mem_iff_getElem?.mp hmem
    exact h.exists_move_decoder hcap hcrew hd hworks

end

end ImportState
end ChessArchive
