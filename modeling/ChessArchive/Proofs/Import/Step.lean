import Mathlib.Algebra.BigOperators.Group.List.Basic
import ChessArchive.Import

/-! What a step of an import can do, action by action, and sums over the workers of which one has moved. -/

namespace ChessArchive

/-- What a batch adds to the errors of its writer. -/
def BatchOutcome.errors : BatchOutcome → List ArchiveError
  | .committed _ _ => []
  | .failed _ => [.transaction]

namespace ImportState

/-- What the actions do where they are possible. -/
inductive Move (keys : FingerprintKeys) (settings : ImportSettings) (s : ImportState) :
    ImportAction → ImportState → Prop where
  | cancel : Move keys settings s .cancel { s with cancelled := true }
  | closeInput : Move keys settings s .closeInput { s with inputOpen := false }
  | take {i : Nat} {raw : RawGame} {rest : List RawGame} : s.decoders[i]? = some .idle → s.cancelled = false →
      s.input = raw :: rest → Move keys settings s (.take i)
        ({ s with input := rest, taken := raw :: s.taken }.setDecoder i (.holding raw))
  | stop {i : Nat} : s.decoders[i]? = some .idle → (s.cancelled || s.inputEnded) = true →
      Move keys settings s (.stop i) (s.setDecoder i .stopped)
  | accept {i : Nat} {raw : RawGame} {g : DecodedGame} : s.decoders[i]? = some (.holding raw) →
      DecodedGame.ofRaw keys raw = .ok g → Move keys settings s (.decode i) (s.setDecoder i (.ready g))
  | reject {i : Nat} {raw : RawGame} {cause : ArchiveError} : s.decoders[i]? = some (.holding raw) →
      DecodedGame.ofRaw keys raw = .error cause → Move keys settings s (.decode i)
        (({ s with counters.failed := s.counters.failed + 1 }.setDecoder i .idle).snapshot settings.progressCapacity
          raw.label)
  | send {i : Nat} {g : DecodedGame} : s.decoders[i]? = some (.ready g) → s.cancelled = false →
      s.queueClosed = false → s.queue.length < settings.queueCapacity → Move keys settings s (.send i)
        ({ s with queue := s.queue ++ [g] }.setDecoder i .idle)
  | discard {i : Nat} {g : DecodedGame} : s.decoders[i]? = some (.ready g) → s.cancelled = true →
      Move keys settings s (.discard i)
        ({ s with counters.discarded := s.counters.discarded + 1 }.setDecoder i .stopped)
  | abandon {i : Nat} {g : DecodedGame} : s.decoders[i]? = some (.ready g) → s.cancelled = false →
      s.queueClosed = true → Move keys settings s (.abandon i) (s.setDecoder i .stopped)
  | receive {j : Nat} {w : Writer} {g : DecodedGame} {rest : List DecodedGame} : s.writers[j]? = some w →
      w.waits = true → s.cancelled = false → s.queue = g :: rest → Move keys settings s (.receive j)
        ({ s with queue := rest }.setWriter j (w.push settings.batchSize g))
  | tick {j : Nat} {w : Writer} : s.writers[j]? = some w → w.phase = .accumulating → s.cancelled = false →
      Move keys settings s (.tick j) (s.setWriter j { w with phase := .flushing false })
  | leave {j : Nat} {w : Writer} : s.writers[j]? = some w → w.waits = true → (s.cancelled || s.queueEnded) = true →
      Move keys settings s (.leave j)
        (s.setWriter j { w with phase := if w.batch.isEmpty then .done else .flushing true })
  | commit {j : Nat} {w : Writer} {last : Bool} (succeeds : Bool) : s.writers[j]? = some w →
      w.phase = .flushing last → Move keys settings s (.commit j succeeds)
        ({ s with archive := (s.archive.writeBatch succeeds w.batch).2 }.setWriter j
          ⟨.reporting (s.archive.writeBatch succeeds w.batch).1 (batchLabel w.batch) last, [], w.errors⟩)
  | report {j : Nat} {w : Writer} {outcome : BatchOutcome} {label : String} {last : Bool} :
      s.writers[j]? = some w → w.phase = .reporting outcome label last → Move keys settings s (.report j)
        (({ s with counters := s.counters.addOutcome outcome }.setWriter j
          ⟨if last then .done else .idle, w.batch, w.errors ++ outcome.errors⟩).snapshot settings.progressCapacity
            label)
  | drain : s.decodersStopped = true → s.writersDone = true → s.queueClosed = false → Move keys settings s .drain s.drain
  | finish : s.queueClosed = true → Move keys settings s .finish (s.finish settings)

section
variable {keys : FingerprintKeys} {settings : ImportSettings} {s t : ImportState} {a : ImportAction}

theorem stepDecoder_move {i : Nat} {d : Decoder} (hd : s.decoders[i]? = some d)
    (ha : a = .take i ∨ a = .decode i ∨ a = .send i ∨ a = .discard i ∨ a = .abandon i ∨ a = .stop i)
    (h : stepDecoder keys settings s i d a = some t) : Move keys settings s a t := by
  unfold stepDecoder at h
  split at h
  case h_1 =>
    obtain rfl : _ = i := by simpa using ha
    split at h
    · cases h
      exact .take hd ‹_› ‹_›
    · cases h
  case h_2 =>
    obtain rfl : _ = i := by simpa using ha
    split at h
    · cases h
      exact .stop hd ‹_›
    · cases h
  case h_3 =>
    obtain rfl : _ = i := by simpa using ha
    split at h
    · cases h
      exact .accept hd ‹_›
    · cases h
      exact .reject hd ‹_›
  case h_4 =>
    obtain rfl : _ = i := by simpa using ha
    split at h
    · rename_i hfree
      cases h
      simp only [Bool.and_eq_true, Bool.not_eq_true', decide_eq_true_eq] at hfree
      exact .send hd hfree.1.1 hfree.1.2 hfree.2
    · cases h
  case h_5 =>
    obtain rfl : _ = i := by simpa using ha
    split at h
    · cases h
      exact .discard hd ‹_›
    · cases h
  case h_6 =>
    obtain rfl : _ = i := by simpa using ha
    split at h
    · rename_i hclosed
      cases h
      simp only [Bool.and_eq_true, Bool.not_eq_true'] at hclosed
      exact .abandon hd hclosed.1 hclosed.2
    · cases h
  case h_7 => cases h

theorem stepWriter_move {j : Nat} {w : Writer} (hw : s.writers[j]? = some w)
    (ha : a = .receive j ∨ a = .tick j ∨ a = .leave j ∨ (∃ b, a = .commit j b) ∨ a = .report j)
    (h : stepWriter settings s j w a = some t) : Move keys settings s a t := by
  unfold stepWriter at h
  split at h
  case h_1 =>
    obtain rfl : _ = j := by simpa using ha
    split at h
    · rename_i hwaits hqueue
      cases h
      simp only [Bool.and_eq_true, Bool.not_eq_true'] at hwaits
      exact .receive hw hwaits.1 hwaits.2 hqueue
    · cases h
  case h_2 =>
    obtain rfl : _ = j := by simpa using ha
    split at h
    · rename_i hphase
      cases h
      exact .tick hw hphase.1 (by simpa using hphase.2)
    · cases h
  case h_3 =>
    obtain rfl : _ = j := by simpa using ha
    split at h
    · rename_i hwaits
      cases h
      simp only [Bool.and_eq_true] at hwaits
      exact .leave hw hwaits.1 hwaits.2
    · cases h
  case h_4 =>
    obtain rfl : _ = j := by simpa using ha
    split at h
    · cases h
      exact .commit _ hw ‹_›
    · cases h
  case h_5 =>
    obtain rfl : _ = j := by simpa using ha
    split at h
    · rename_i outcome label last hphase
      cases h
      have hmove : Move keys settings s (.report _) _ := .report hw hphase
      cases outcome <;> simpa [BatchOutcome.errors] using hmove
    · cases h
  case h_6 => cases h

theorem move_step (hf : s.finished = false) (h : Move keys settings s a t) : s.step keys settings a = some t := by
  cases h with
  | cancel => simp [step, hf]
  | closeInput => simp [step, hf]
  | take hd hc hi => simp [step, hf, hd, stepDecoder, hc, hi]
  | stop hd hend => simp [step, hf, hd, stepDecoder, hend]
  | accept hd hg => simp [step, hf, hd, stepDecoder, hg]
  | reject hd hg => simp [step, hf, hd, stepDecoder, hg]
  | send hd hc hopen hq => simp [step, hf, hd, stepDecoder, hc, hopen, hq]
  | discard hd hc => simp [step, hf, hd, stepDecoder, hc]
  | abandon hd hc hclosed => simp [step, hf, hd, stepDecoder, hc, hclosed]
  | receive hw hwaits hc hq => simp [step, hf, hw, stepWriter, hwaits, hc, hq]
  | tick hw hphase hc => simp [step, hf, hw, stepWriter, hphase, hc]
  | leave hw hwaits hend => simp [step, hf, hw, stepWriter, hwaits, hend]
  | commit _ hw hphase => simp [step, hf, hw, stepWriter, hphase]
  | @report j w outcome label last hw hphase =>
    cases outcome <;> simp [step, hf, hw, stepWriter, hphase, BatchOutcome.errors]
  | drain hd hw hopen => simp [step, hf, hd, hw, hopen]
  | finish hclosed => simp [step, hf, hclosed]

/-- A step is one of the moves, and before the end every move is a step. -/
theorem step_iff : s.step keys settings a = some t ↔ s.finished = false ∧ Move keys settings s a t := by
  refine ⟨fun h => ?_, fun h => move_step h.1 h.2⟩
  unfold step at h
  split at h
  · cases h
  · rename_i hf
    refine ⟨by simpa using hf, ?_⟩
    split at h
    case h_1 =>
      cases h
      exact .cancel
    case h_2 =>
      cases h
      exact .closeInput
    case h_14 =>
      split at h
      · rename_i hend
        cases h
        simp only [Bool.and_eq_true, Bool.not_eq_true'] at hend
        exact .drain hend.1.1 hend.1.2 hend.2
      · cases h
    case h_15 =>
      split at h
      · rename_i hclosed
        cases h
        exact .finish hclosed
      · cases h
    all_goals
      obtain ⟨x, hx, h⟩ := Option.bind_eq_some_iff.mp h
      first
        | exact stepDecoder_move hx (by simp) h
        | exact stepWriter_move hx (by simp) h

end

/-! ### Workers that are through -/

section
variable {s : ImportState}

theorem decodersStopped_iff : s.decodersStopped = true ↔ ∀ d ∈ s.decoders, d = .stopped := by
  rw [decodersStopped, List.all_eq_true]
  refine forall₂_congr fun d _ => ?_
  cases d <;> simp

theorem writersDone_iff : s.writersDone = true ↔ ∀ w ∈ s.writers, w.phase = .done := by
  simp [writersDone]

end

/-! ### Snapshots -/

theorem snapshot_frame (s : ImportState) (capacity : Nat) (label : String) :
    ∃ received, s.snapshot capacity label = { s with snapshots := received } := by
  unfold snapshot
  split
  · exact ⟨_, rfl⟩
  · exact ⟨s.snapshots, rfl⟩

end ImportState

/-! ### Sums over the workers -/

theorem sum_map_set {α M : Type} [AddCommMonoid M] {l : List α} {i : Nat} {x : α} (h : l[i]? = some x) (y : α)
    (f : α → M) : ((l.set i y).map f).sum + f x = (l.map f).sum + f y := by
  induction l generalizing i with
  | nil => simp at h
  | cons z l ih =>
    cases i with
    | zero =>
      obtain rfl : z = x := by simpa using h
      simp only [List.set_cons_zero, List.map_cons, List.sum_cons]
      rw [add_comm (f y), add_right_comm, add_right_comm, add_comm (f z), add_right_comm]
    | succ i =>
      simp only [List.set_cons_succ, List.map_cons, List.sum_cons, add_assoc]
      rw [ih (by simpa using h)]

end ChessArchive
