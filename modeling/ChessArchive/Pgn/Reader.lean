import ChessArchive.Pgn.Stream

/-! Reading a file of games one record at a time. The source gives its bytes in portions, which may end anywhere. The
    reader takes one line after the other, and keeps the tag line that ended a record for the next record. -/

namespace ChessArchive
namespace Pgn

/-- What is left of a source of bytes: its portions, and how it ends after them. An attempt that is interrupted is made
    again, and shows as an empty portion. -/
structure ByteSource where
  portions : List (List UInt8)
  ending : Ending

namespace ByteSource

def bytes (s : ByteSource) : List UInt8 := s.portions.flatten

/-- Takes bytes up to a line feed, from as many portions as that needs, and gives the portions after it. If there is no
    line feed it takes all bytes, and there are no portions left. -/
def takeLine : List (List UInt8) → List UInt8 × Option (List (List UInt8))
  | [] => ([], none)
  | portion :: rest =>
    match portion.dropWhile (· != 10) with
    | feed :: more => (portion.takeWhile (· != 10) ++ [feed], some (more :: rest))
    | [] =>
      let (line, left) := takeLine rest
      (portion ++ line, left)

/-- Reads a line, with its line feed if it has one; at the end of the source that is an empty one. A failure of the
    source before the line feed is all that is left of a line. -/
def readLine (s : ByteSource) : Except String (List UInt8) × ByteSource :=
  match takeLine s.portions with
  | (line, some left) => (.ok line, { s with portions := left })
  | (line, none) =>
    match s.ending with
    | .finished => (.ok line, { s with portions := [] })
    | .failed cause => (.error cause, { s with portions := [] })

theorem takeLine_bytes (portions : List (List UInt8)) :
    (takeLine portions).1 ++ ((takeLine portions).2.getD []).flatten = portions.flatten := by
  induction portions with
  | nil => rfl
  | cons portion rest ih =>
    have hsplit : portion.takeWhile (· != 10) ++ portion.dropWhile (· != 10) = portion := List.takeWhile_append_dropWhile
    rw [takeLine]
    cases hfeed : portion.dropWhile (· != 10) with
    | nil => rw [List.append_assoc, ih, List.flatten_cons]
    | cons feed more =>
      rw [hfeed] at hsplit
      rw [Option.getD_some, List.flatten_cons, List.flatten_cons, List.append_assoc, List.singleton_append,
        ← List.cons_append, ← List.append_assoc, hsplit]

theorem readLine_bytes {s t : ByteSource} {line : List UInt8} (h : s.readLine = (.ok line, t)) :
    line ++ t.bytes = s.bytes := by
  have hbytes := takeLine_bytes s.portions
  unfold readLine at h
  split at h
  · rename_i htake
    cases h
    rwa [htake] at hbytes
  · rename_i htake
    split at h
    · cases h
      rwa [htake] at hbytes
    · cases h

theorem length_readLine_lt {s t : ByteSource} {b : UInt8} {line : List UInt8} (h : s.readLine = (.ok (b :: line), t)) :
    t.bytes.length < s.bytes.length := by
  rw [← readLine_bytes h, List.length_append, List.length_cons]
  omega

end ByteSource

structure Reader where
  source : ByteSource
  /-- The tag line that the next record begins with. -/
  pending : Option (List Char)
  /-- The source has come to its end. -/
  done : Bool

namespace Reader

/-- A reader before its first call. -/
def start (s : ByteSource) : Reader := ⟨s, none, false⟩

/-- Takes lines up to a tag line after movetext; `chunk` is the text of the record so far, and `moving` says that
    there has been movetext. -/
def collect (chunk : List Char) (moving : Bool) (r : Reader) : Except String (List Char) × Reader :=
  match _h : r.source.readLine with
  | (.error cause, source) => (.error cause, { r with source })
  | (.ok [], source) => (.ok chunk, { r with source, done := true })
  | (.ok (b :: bytes), source) =>
    let line := Text.decodeUtf8 (b :: bytes)
    if moving && isTagLine line then (.ok chunk, { r with source, pending := some line })
    else collect (chunk ++ line) (moving || isMoveLine line) { r with source }
termination_by r.source.bytes.length
decreasing_by exact ByteSource.length_readLine_lt _h

/-- One call: the text of the next record, or a failure of the source. At the end there is none, and a blank text is
    none either. -/
def advance (r : Reader) : Option (Except String (List Char)) × Reader :=
  if r.done && r.pending.isNone then (none, r)
  else
    match collect (r.pending.getD []) false { r with pending := none } with
    | (.ok text, next) => (if Text.allBlank text then none else some (.ok text), next)
    | (.error cause, next) => (some (.error cause), { next with pending := none, done := true })

/-- What is made of a text or a failure. -/
def item : Except String (List Char) → Except PgnError PgnGame
  | .ok text => parse text
  | .error cause => .error (.unreadable cause)

/-- One call, with the text read. -/
def next (r : Reader) : Option (Except PgnError PgnGame) × Reader := (r.advance.1.map item, r.advance.2)

/-- The reader after a number of calls. -/
def after (r : Reader) : Nat → Reader
  | 0 => r
  | n + 1 => r.next.2.after n

end Reader
end Pgn
end ChessArchive
