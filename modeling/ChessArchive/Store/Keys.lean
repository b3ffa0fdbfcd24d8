import ChessArchive.Store

/-! The stored key table. It is drawn once, when it is first asked for, and from then on read back as it is: a
    table with any slot missing or too many is refused. -/

namespace ChessArchive
namespace Store

/-- The slots of a whole table. -/
def keySlots : List Int := (List.range keyCount).map Int.ofNat

/-- The stored keys by slot. -/
def keysBySlot (s : Store) : List StoredKey := s.keys.mergeSort fun a b => a.slot ≤ b.slot

/-- Reads the stored table; none if there is not a single key. -/
def loadKeys (s : Store) : Except ArchiveError (Option FingerprintKeys) :=
  if s.keys.isEmpty then .ok none
  else if s.keysBySlot.map (·.slot) = keySlots then
    match FingerprintKeys.ofWords? (s.keysBySlot.map (·.key.toUInt64)) with
    | some k => .ok (some k)
    | none => .error (.corruptKeys s.keys.length)
  else .error (.corruptKeys s.keys.length)

/-- Stores a key unless its slot is taken. -/
def offerKey (s : Store) (k : StoredKey) : Store :=
  if s.keys.any (·.slot = k.slot) then s else { s with keys := k :: s.keys }

/-- Stores the words of a table in the slots that are free. -/
def offerKeys (s : Store) (k : FingerprintKeys) : Store :=
  (k.toWords.zipIdx.map fun (w, i) => StoredKey.mk (Int.ofNat i) w.toInt64).foldl offerKey s

/-- Reads the stored table, having stored the fresh one if there was none. -/
def openKeys (s : Store) (fresh : FingerprintKeys) : Except ArchiveError (FingerprintKeys × Store) := do
  match ← s.loadKeys with
  | some k => return (k, s)
  | none =>
    let s := s.offerKeys fresh
    match ← s.loadKeys with
    | some k => return (k, s)
    | none => throw (.corruptKeys 0)

/-- A store without games that holds a table. -/
def ofKeys (k : FingerprintKeys) : Store := empty.offerKeys k

end Store
end ChessArchive
