import ChessArchive.Import

/-! The loop of one writer by itself. It waits for the next game, for its timer, for the import to be cancelled, and for
    the queue to come to its end, whichever is first. A batch is written when it is full, when the timer fires, and when
    the loop is left. After that it is empty, whether its transaction succeeded or not. What is counted and reported of a
    batch can be read off its transaction. -/

namespace ChessArchive

/-- What a writer waits for. -/
inductive WriterEvent where
  | game (g : DecodedGame)
  | tick
  | cancelled
  /-- The queue is closed, and nothing is left in it. -/
  | closed

namespace WriterEvent

/-- The loop is left. -/
def ends : WriterEvent → Bool
  | cancelled | closed => true
  | _ => false

/-- The games among events, up to the one that ends the loop. -/
def received : List WriterEvent → List DecodedGame
  | [] => []
  | game g :: events => g :: received events
  | tick :: events => received events
  | _ :: _ => []

end WriterEvent

/-- What a writer is doing. -/
inductive WriterState where
  | idle
  | accumulating
  | flushing
  | draining
  | done
  deriving DecidableEq, Repr

/-- The games that a transaction was to write, and what became of it. -/
structure BatchTransaction where
  games : List DecodedGame
  outcome : BatchOutcome

structure Batching where
  state : WriterState
  batch : List DecodedGame
  /-- The transactions so far, in their order. -/
  transactions : List BatchTransaction
  /-- The errors of the transactions that failed. -/
  errors : List ArchiveError

namespace Batching

def start : Batching := ⟨.idle, [], [], []⟩

/-- Where a writer is: at the head of its loop, or beyond it. -/
inductive Point where
  | waiting (b : Batching)
  | returned (b : Batching)

/-- What becomes of the transactions, by their number and the games that they are to write. -/
abbrev Outcomes := Nat → List DecodedGame → BatchOutcome

/-- Writes the batch in one transaction. -/
def flush (outcomes : Outcomes) (b : Batching) : Batching :=
  let draining := b.state = .draining
  let b := { b with state := .flushing }
  let transaction := ⟨b.batch, outcomes b.transactions.length b.batch⟩
  let errors := match transaction.outcome with
    | .committed _ _ => b.errors
    | .failed _ => b.errors ++ [.transaction]
  let b := { b with batch := [], transactions := b.transactions ++ [transaction], errors }
  { b with state := if draining then .draining else .idle }

/-- Writes the batch if there is any. -/
def flushIfAny (outcomes : Outcomes) (b : Batching) : Batching :=
  if b.batch.isEmpty then b else b.flush outcomes

/-- Leaves the loop. -/
def drain (outcomes : Outcomes) (b : Batching) : Batching :=
  { ({ b with state := .draining } : Batching).flushIfAny outcomes with state := .done }

/-- Takes a game into the batch, which is written when it is full. -/
def take (batchSize : Nat) (outcomes : Outcomes) (b : Batching) (g : DecodedGame) : Batching :=
  let b := { b with batch := b.batch ++ [g], state := .accumulating }
  if batchSize ≤ b.batch.length then b.flush outcomes else b

/-- One pass of the loop. -/
def pass (batchSize : Nat) (outcomes : Outcomes) (b : Batching) : WriterEvent → Point
  | .cancelled | .closed => .returned (b.drain outcomes)
  | .tick => .waiting (b.flushIfAny outcomes)
  | .game g => .waiting (b.take batchSize outcomes g)

/-- Where the loop comes to with events, from its head. -/
def run (batchSize : Nat) (outcomes : Outcomes) (b : Batching) : List WriterEvent → Point
  | [] => .waiting b
  | e :: events =>
    match b.pass batchSize outcomes e with
    | .waiting b => b.run batchSize outcomes events
    | .returned b => .returned b

end Batching
end ChessArchive
