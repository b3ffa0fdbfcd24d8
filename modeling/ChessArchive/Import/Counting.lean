import ChessArchive.Import

/-! Imports with their counting taken apart. The counters are shared: a worker adds to one of them at a time, and a
    snapshot reads one after the other, while all other workers go on. A worker does what it has to count before it acts
    again, and the queue is closed when every worker has counted. -/

namespace ChessArchive

/-- Who acts. -/
inductive Worker where
  | decoder (i : Nat)
  | writer (j : Nat)
  /-- The import itself. -/
  | runner
  | outside
  deriving DecidableEq, Repr

def ImportAction.worker : ImportAction → Worker
  | .cancel | .closeInput => .outside
  | .take i | .decode i | .send i | .discard i | .abandon i | .stop i => .decoder i
  | .receive j | .tick j | .leave j | .commit j _ | .report j => .writer j
  | .drain | .finish => .runner

/-- One access to the counters, or the sending of a snapshot. -/
inductive CounterStep where
  | addImported (n : Nat)
  | addFailed (n : Nat)
  | addDiscarded (n : Nat)
  /-- Begins a snapshot: reads how many games are imported. -/
  | report (label : String)
  /-- Makes a snapshot: reads how many games failed. -/
  | complete (imported : Nat) (label : String)
  | send (snapshot : Snapshot)
  deriving DecidableEq, Repr

/-- How an outcome is counted. -/
def BatchOutcome.counting : BatchOutcome → List CounterStep
  | .committed written refused => [.addImported written, .addFailed refused]
  | .failed size => [.addFailed size]

/-- The counting that belongs to an action, in its order. -/
def ImportState.counting (keys : FingerprintKeys) (s : ImportState) : ImportAction → List CounterStep
  | .decode i =>
    match s.decoders[i]? with
    | some (.holding raw) =>
      match DecodedGame.ofRaw keys raw with
      | .ok _ => []
      | .error _ => [.addFailed 1, .report raw.label]
    | _ => []
  | .discard _ => [.addDiscarded 1]
  | .report j =>
    match s.writers[j]? with
    | some ⟨.reporting outcome label _, _, _⟩ => outcome.counting ++ [.report label]
    | _ => []
  | .drain => [.addDiscarded s.queue.length]
  | .finish => [.report ""]
  | _ => []

structure CountingState where
  /-- The import with the counters as they are and the snapshots that were received. -/
  pipeline : ImportState
  /-- The snapshots that were made, newest first. -/
  made : List Snapshot
  /-- For each action so far who took it and what is left of its counting. -/
  tasks : List (Worker × List CounterStep)

inductive CountingAction where
  /-- An action, apart from its counting. -/
  | act (action : ImportAction)
  /-- The next step in the counting of action number `k`. -/
  | count (k : Nat)
  deriving DecidableEq, Repr

/-- What a step does, with the step that has to follow it. -/
def CounterStep.run (capacity : Nat) (s : CountingState) : CounterStep → CountingState × Option CounterStep
  | .addImported n => ({ s with pipeline.counters.imported := s.pipeline.counters.imported + n }, none)
  | .addFailed n => ({ s with pipeline.counters.failed := s.pipeline.counters.failed + n }, none)
  | .addDiscarded n => ({ s with pipeline.counters.discarded := s.pipeline.counters.discarded + n }, none)
  | .report label => (s, some (.complete s.pipeline.counters.imported label))
  | .complete imported label =>
    let p := ⟨imported, s.pipeline.counters.failed, label⟩
    ({ s with made := p :: s.made }, some (.send p))
  | .send p =>
    if s.pipeline.snapshots.length < capacity then
      ({ s with pipeline.snapshots := p :: s.pipeline.snapshots }, none)
    else (s, none)

namespace CountingState

def ofPipeline (s : ImportState) : CountingState := ⟨s, [], []⟩

/-- A worker has something to count. -/
def isCounting (s : CountingState) (w : Worker) : Bool := s.tasks.any fun (v, left) => v = w && !left.isEmpty

/-- Who takes the action is free to do so. -/
def isFree (s : CountingState) : ImportAction → Bool
  | .drain => s.tasks.all fun (_, left) => left.isEmpty
  | a => !s.isCounting a.worker

/-- One step; none if the action is not possible. -/
def step (keys : FingerprintKeys) (settings : ImportSettings) (s : CountingState) :
    CountingAction → Option CountingState
  | .act a =>
    if s.isFree a then
      (s.pipeline.step keys settings a).map fun next =>
        { s with
          pipeline := { next with counters := s.pipeline.counters, snapshots := s.pipeline.snapshots }
          tasks := s.tasks ++ [(a.worker, s.pipeline.counting keys a)] }
    else none
  | .count k =>
    match s.tasks[k]? with
    | some (w, c :: rest) =>
      let (next, more) := c.run settings.progressCapacity s
      some { next with tasks := s.tasks.set k (w, more.toList ++ rest) }
    | _ => none

/-- The state that actions lead to, if each of them is possible in its turn. -/
def perform (keys : FingerprintKeys) (settings : ImportSettings) (s : CountingState) :
    List CountingAction → Option CountingState
  | [] => some s
  | a :: rest => (s.step keys settings a).bind fun t => t.perform keys settings rest

end CountingState
end ChessArchive
