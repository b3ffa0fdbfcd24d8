import ChessArchive.Archive
import ChessArchive.Settings

/-! Imports as a machine of many workers. Decoders take raw games from the input and put decoded ones into a
    queue; writers collect batches from the queue and write each in one transaction. `step` says what a worker may
    do in a state; the workers' steps may follow each other in any order. To look whether the import is cancelled and
    to act on it is one step. A counter moves only when the outcome of a game is final, and a game that cancelling
    keeps from a writer is counted as discarded. -/

namespace ChessArchive

structure ImportCounters where
  imported : Nat
  failed : Nat
  discarded : Nat
  deriving DecidableEq, Repr

/-- The counters as they were when a game was done with. -/
structure Snapshot where
  imported : Nat
  failed : Nat
  label : String
  deriving DecidableEq, Repr

/-- Games with a final outcome. -/
def Snapshot.processed (p : Snapshot) : Nat := p.imported + p.failed

inductive Decoder where
  | idle
  | holding (raw : RawGame)
  | ready (game : DecodedGame)
  | stopped

inductive WriterPhase where
  | idle
  | accumulating
  /-- A batch is to be written; `last` says that the writer stops after it. -/
  | flushing (last : Bool)
  /-- A batch has its outcome, which is yet to be counted. -/
  | reporting (outcome : BatchOutcome) (label : String) (last : Bool)
  | done
  deriving DecidableEq, Repr

structure Writer where
  phase : WriterPhase
  batch : List DecodedGame
  /-- The errors of the transactions that failed. -/
  errors : List ArchiveError

def Writer.start : Writer := ⟨.idle, [], []⟩

structure ImportState where
  /-- Raw games that no decoder has taken. -/
  input : List RawGame
  inputOpen : Bool
  /-- Raw games that decoders took, newest first. -/
  taken : List RawGame
  decoders : List Decoder
  queue : List DecodedGame
  /-- The queue takes no more games; to send one is an error. -/
  queueClosed : Bool
  writers : List Writer
  archive : Archive
  counters : ImportCounters
  /-- The snapshots that were received, newest first. -/
  snapshots : List Snapshot
  cancelled : Bool
  finished : Bool

inductive ImportAction where
  | cancel
  | closeInput
  /-- A decoder takes a game. -/
  | take (decoder : Nat)
  /-- A decoder replays the game that it holds. -/
  | decode (decoder : Nat)
  /-- A decoder puts its game into the queue. -/
  | send (decoder : Nat)
  /-- A decoder gives its game up, for the import was cancelled. -/
  | discard (decoder : Nat)
  /-- A decoder drops its game, for the queue is closed. Nothing counts the game. -/
  | abandon (decoder : Nat)
  /-- A decoder stops. -/
  | stop (decoder : Nat)
  /-- A writer takes a game from the queue. -/
  | receive (writer : Nat)
  /-- A writer's timer fires. -/
  | tick (writer : Nat)
  /-- A writer receives no more. -/
  | leave (writer : Nat)
  /-- A writer runs its transaction, which may fail. -/
  | commit (writer : Nat) (succeeds : Bool)
  /-- A writer counts the outcome of its transaction. -/
  | report (writer : Nat)
  /-- The queue is closed, and what is left in it is discarded. -/
  | drain
  /-- The import ends. -/
  | finish
  deriving DecidableEq, Repr

namespace ImportState

/-- An import into an archive before its first step. -/
def start (settings : ImportSettings) (archive : Archive) (input : List RawGame) (inputOpen : Bool) :
    ImportState where
  input
  inputOpen
  taken := []
  decoders := .replicate settings.decodeWorkers .idle
  queue := []
  queueClosed := false
  writers := .replicate settings.writerWorkers .start
  archive
  counters := ⟨0, 0, 0⟩
  snapshots := []
  cancelled := false
  finished := false

/-- Every decoder has stopped. -/
def decodersStopped (s : ImportState) : Bool :=
  s.decoders.all fun
    | .stopped => true
    | _ => false

/-- Every writer is done. -/
def writersDone (s : ImportState) : Bool := s.writers.all (·.phase = .done)

/-- A decoder that waits for a game has none to wait for. -/
def inputEnded (s : ImportState) : Bool := s.input.isEmpty && !s.inputOpen

/-- A writer that waits for a game has none to wait for. -/
def queueEnded (s : ImportState) : Bool := s.queue.isEmpty && s.decodersStopped

def setDecoder (s : ImportState) (i : Nat) (d : Decoder) : ImportState := { s with decoders := s.decoders.set i d }

def setWriter (s : ImportState) (j : Nat) (w : Writer) : ImportState := { s with writers := s.writers.set j w }

/-- Sends a snapshot of the counters, which is lost if there is no room for it. -/
def snapshot (s : ImportState) (capacity : Nat) (label : String) : ImportState :=
  if s.snapshots.length < capacity then
    { s with snapshots := ⟨s.counters.imported, s.counters.failed, label⟩ :: s.snapshots }
  else s

end ImportState

/-- A writer with one more game, which flushes when its batch is full. -/
def Writer.push (w : Writer) (batchSize : Nat) (g : DecodedGame) : Writer :=
  let batch := w.batch ++ [g]
  { w with batch, phase := if batchSize ≤ batch.length then .flushing false else .accumulating }

/-- A writer waits for games. -/
def Writer.waits (w : Writer) : Bool := w.phase = .idle || w.phase = .accumulating

/-- The label of a batch: that of its last game. -/
def batchLabel (games : List DecodedGame) : String := (games.getLast?.map (·.metadata.label)).getD ""

namespace ImportCounters

/-- Counts the outcome of a batch. -/
def addOutcome (c : ImportCounters) : BatchOutcome → ImportCounters
  | .committed written refused => { c with imported := c.imported + written, failed := c.failed + refused }
  | .failed size => { c with failed := c.failed + size }

end ImportCounters

namespace ImportState

/-! ### The steps -/

/-- What decoder `i` may do. -/
def stepDecoder (keys : FingerprintKeys) (settings : ImportSettings) (s : ImportState) (i : Nat) :
    Decoder → ImportAction → Option ImportState
  | .idle, .take _ =>
    match s.cancelled, s.input with
    | false, raw :: rest => some ({ s with input := rest, taken := raw :: s.taken }.setDecoder i (.holding raw))
    | _, _ => none
  | .idle, .stop _ => if s.cancelled || s.inputEnded then some (s.setDecoder i .stopped) else none
  | .holding raw, .decode _ =>
    match DecodedGame.ofRaw keys raw with
    | .ok g => some (s.setDecoder i (.ready g))
    | .error _ =>
      let counted := { s with counters.failed := s.counters.failed + 1 }.setDecoder i .idle
      some (counted.snapshot settings.progressCapacity raw.label)
  | .ready g, .send _ =>
    if !s.cancelled && !s.queueClosed && s.queue.length < settings.queueCapacity then
      some ({ s with queue := s.queue ++ [g] }.setDecoder i .idle)
    else none
  | .ready _, .discard _ =>
    if s.cancelled then
      some ({ s with counters.discarded := s.counters.discarded + 1 }.setDecoder i .stopped)
    else none
  | .ready _, .abandon _ => if !s.cancelled && s.queueClosed then some (s.setDecoder i .stopped) else none
  | _, _ => none

/-- What writer `j` may do. -/
def stepWriter (settings : ImportSettings) (s : ImportState) (j : Nat) (w : Writer) : ImportAction → Option ImportState
  | .receive _ =>
    match w.waits && !s.cancelled, s.queue with
    | true, g :: rest => some ({ s with queue := rest }.setWriter j (w.push settings.batchSize g))
    | _, _ => none
  | .tick _ =>
    if w.phase = .accumulating ∧ !s.cancelled then some (s.setWriter j { w with phase := .flushing false }) else none
  | .leave _ =>
    if w.waits && (s.cancelled || s.queueEnded) then
      some (s.setWriter j { w with phase := if w.batch.isEmpty then .done else .flushing true })
    else none
  | .commit _ succeeds =>
    match w.phase with
    | .flushing last =>
      let (outcome, archive) := s.archive.writeBatch succeeds w.batch
      some ({ s with archive }.setWriter j ⟨.reporting outcome (batchLabel w.batch) last, [], w.errors⟩)
    | _ => none
  | .report _ =>
    match w.phase with
    | .reporting outcome label last =>
      let errors := match outcome with
        | .committed _ _ => w.errors
        | .failed _ => w.errors ++ [.transaction]
      let counted := { s with counters := s.counters.addOutcome outcome }
      some ((counted.setWriter j ⟨if last then .done else .idle, w.batch, errors⟩).snapshot settings.progressCapacity label)
    | _ => none
  | _ => none

/-- Closes the queue; what is left in it is discarded. -/
def drain (s : ImportState) : ImportState :=
  { s with counters.discarded := s.counters.discarded + s.queue.length, queue := [], queueClosed := true }

/-- The end of an import. -/
def finish (settings : ImportSettings) (s : ImportState) : ImportState :=
  { s with finished := true }.snapshot settings.progressCapacity ""

/-- One step of an import; none if the action is not possible. Nothing happens after the end. -/
def step (keys : FingerprintKeys) (settings : ImportSettings) (s : ImportState) (a : ImportAction) :
    Option ImportState :=
  if s.finished then none else match a with
  | .cancel => some { s with cancelled := true }
  | .closeInput => some { s with inputOpen := false }
  | .take i | .decode i | .send i | .discard i | .abandon i | .stop i =>
    s.decoders[i]?.bind fun d => stepDecoder keys settings s i d a
  | .receive j | .tick j | .leave j | .commit j _ | .report j =>
    s.writers[j]?.bind fun w => stepWriter settings s j w a
  | .drain => if s.decodersStopped && s.writersDone && !s.queueClosed then some s.drain else none
  | .finish => if s.queueClosed then some (s.finish settings) else none

/-- The states that an import can come to by actions of a kind, in any order. -/
inductive Run (keys : FingerprintKeys) (settings : ImportSettings) (allows : ImportAction → Prop)
    (initial : ImportState) : ImportState → Prop where
  | start : Run keys settings allows initial initial
  | step {s next : ImportState} (a : ImportAction) : Run keys settings allows initial s → allows a →
      s.step keys settings a = some next → Run keys settings allows initial next

end ImportState

/-! ### What an import comes to -/

inductive ImportStatus where
  | completed
  | cancelled
  | failed (cause : ArchiveError)
  deriving DecidableEq, Repr

structure ImportSummary where
  status : ImportStatus
  counters : ImportCounters
  deriving DecidableEq, Repr

namespace ImportState

/-- The errors of all writers. -/
def errors (s : ImportState) : List ArchiveError := s.writers.flatMap (·.errors)

/-- An error outweighs that the import was cancelled. -/
def status (s : ImportState) : ImportStatus :=
  match s.errors with
  | e :: _ => .failed e
  | [] => if s.cancelled then .cancelled else .completed

def summary (s : ImportState) : ImportSummary := ⟨s.status, s.counters⟩

end ImportState
end ChessArchive
