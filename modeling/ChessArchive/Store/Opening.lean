import ChessArchive.Store.Keys

/-! Opening the key table of one store from several sides at once. An opener reads the table; if there is none it
    draws one, stores it in a single transaction as far as slots are free, and reads again. The steps of the openers may
    follow each other in any order. -/

namespace ChessArchive

inductive KeyOpener where
  /-- The table is yet to be read. If there is none, `fresh` is drawn. -/
  | starting (fresh : FingerprintKeys)
  /-- There was no table, and `fresh` has been drawn. -/
  | drawn (fresh : FingerprintKeys)
  /-- What was drawn has been stored, and the table is yet to be read again. -/
  | stored
  | done (result : Except ArchiveError FingerprintKeys)

/-- The next step of an opener, with the store that it leaves; none if the opener has returned. -/
def KeyOpener.step (s : Store) : KeyOpener → Option (KeyOpener × Store)
  | .starting fresh =>
    match s.loadKeys with
    | .ok (some k) => some (.done (.ok k), s)
    | .ok none => some (.drawn fresh, s)
    | .error e => some (.done (.error e), s)
  | .drawn fresh => some (.stored, s.offerKeys fresh)
  | .stored =>
    match s.loadKeys with
    | .ok (some k) => some (.done (.ok k), s)
    | .ok none => some (.done (.error (.corruptKeys 0)), s)
    | .error e => some (.done (.error e), s)
  | .done _ => none

structure KeyOpening where
  store : Store
  openers : List KeyOpener

namespace KeyOpening

/-- Openers of a store before their first steps, each with the table that it would draw. -/
def start (s : Store) (tables : List FingerprintKeys) : KeyOpening := ⟨s, tables.map .starting⟩

/-- Opener `i` takes its next step. -/
def step (s : KeyOpening) (i : Nat) : Option KeyOpening :=
  s.openers[i]?.bind fun o => (o.step s.store).map fun (next, t) => ⟨t, s.openers.set i next⟩

/-- The states that openers can come to, whatever the order of their steps. -/
inductive Run (initial : KeyOpening) : KeyOpening → Prop where
  | start : Run initial initial
  | step {s t : KeyOpening} (i : Nat) : Run initial s → s.step i = some t → Run initial t

end KeyOpening
end ChessArchive
