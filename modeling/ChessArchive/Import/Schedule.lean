import ChessArchive.Import

/-! One schedule of an import among all possible ones: a game that has been taken is brought to its end before the
    next one is taken. The input may be interrupted at a given point. -/

namespace ChessArchive

/-- What happens to an import from outside. -/
inductive Interruption where
  /-- The input is complete and closed from the start. -/
  | none
  /-- The import is cancelled while its game number `n` is replayed, or before the first if `n` is 0. -/
  | cancelDuring (n : Nat)
  /-- The input stays open until every game has its outcome, and is closed then. -/
  | closeWhenSettled
  /-- The input stays open until every game has its outcome; then the import is cancelled. -/
  | cancelWhenSettled
  deriving DecidableEq, Repr

namespace Interruption

/-- The input is open at the start. -/
def holdsOpen : Interruption → Bool
  | closeWhenSettled | cancelWhenSettled => true
  | _ => false

/-- Some decoder holds a game. -/
def someHolding (s : ImportState) : Bool :=
  s.decoders.any fun
    | .holding _ => true
    | _ => false

/-- It is time to cancel. -/
def cancelsNow (e : Interruption) (s : ImportState) : Bool :=
  match e with
  | cancelDuring 0 => !s.cancelled
  | cancelDuring n => !s.cancelled && s.taken.length = n && someHolding s
  | _ => false

/-- What ends an import that nothing else moves. -/
def ending : Interruption → List ImportAction
  | closeWhenSettled => [.closeInput]
  | cancelWhenSettled => [.cancel]
  | _ => []

end Interruption

/-- What a decoder does with a game that it has. -/
def Decoder.actions (i : Nat) : Decoder → List ImportAction
  | .holding _ => [.decode i]
  | .ready _ => [.discard i, .send i]
  | _ => []

/-- A decoder waits for a game. -/
def Decoder.isIdle : Decoder → Bool
  | .idle => true
  | _ => false

/-- What a writer does with a batch that is full. -/
def Writer.actions (j : Nat) (w : Writer) : List ImportAction :=
  match w.phase with
  | .flushing _ => [.commit j true]
  | .reporting _ _ _ => [.report j]
  | _ => []

namespace ImportState

/-- The actions of the workers in the order in which the schedule tries them: what is at hand comes before what is
    new. Of the workers that wait, the first one goes on. -/
def workerActions (s : ImportState) : List ImportAction :=
  let idle := (s.decoders.findIdx? (·.isIdle)).toList
  let waiting := (s.writers.findIdx? (·.waits)).toList
  s.writers.zipIdx.flatMap (fun (w, j) => w.actions j) ++ waiting.map .receive
    ++ s.decoders.zipIdx.flatMap (fun (d, i) => d.actions i)
    ++ idle.map .take ++ idle.map .stop ++ waiting.map .leave ++ [.drain, .finish]

/-- What the schedule does when no worker can go on by itself: the timers fire, and then the input ends. -/
def outerActions (e : Interruption) (s : ImportState) : List ImportAction :=
  (s.writers.findIdx? (·.phase = .accumulating)).toList.map .tick ++ e.ending

/-- The next state of the schedule, if there is one. -/
def next? (keys : FingerprintKeys) (settings : ImportSettings) (e : Interruption) (s : ImportState) :
    Option ImportState :=
  if e.cancelsNow s then s.step keys settings .cancel
  else (s.workerActions ++ s.outerActions e).findSome? (s.step keys settings)

/-- Follows the schedule for at most the given number of steps. -/
def follow (keys : FingerprintKeys) (settings : ImportSettings) (e : Interruption) : Nat → ImportState → ImportState
  | 0, s => s
  | n + 1, s =>
    match s.next? keys settings e with
    | some s => follow keys settings e n s
    | Option.none => s

/-- More steps than the schedule has: seven for each game, four for each worker, and four for the whole. -/
def stepBound (s : ImportState) : Nat := 7 * s.input.length + 4 * (s.decoders.length + s.writers.length) + 4

end ImportState

/-- Runs an import to its end, unless it is too large to be set up. Sizes of zero count as one. -/
def Archive.importGames? (a : Archive) (keys : FingerprintKeys) (settings : ImportSettings) (e : Interruption)
    (games : List RawGame) : Option ImportState :=
  if settings.fits then
    let s := ImportState.start settings.normalized a games e.holdsOpen
    some (s.follow keys settings.normalized e s.stepBound)
  else Option.none

end ChessArchive
