import ChessArchive.Game.Metadata
import ChessArchive.Query.Like

/-! Header filters: conditions on the metadata of games. A text that is blank is no condition, and a text that is
    not counts without the blanks around it. Missing metadata meets no condition. -/

namespace ChessArchive

structure GameFilter where
  white : Option String
  black : Option String
  /-- Either player. -/
  player : Option String
  eco : Option String
  opening : Option String
  result : Option String
  dateFrom : Option String
  dateTo : Option String
  minElo : Option Nat
  maxElo : Option Nat
  deriving DecidableEq, Repr

/-- One condition on a game. -/
inductive GameCondition where
  | white (term : String)
  | black (term : String)
  | opening (term : String)
  | player (term : String)
  | eco (value : String)
  | result (value : String)
  | dateFrom (value : String)
  | dateTo (value : String)
  | minElo (value : Nat)
  | maxElo (value : Nat)
  deriving DecidableEq, Repr

namespace GameFilter

def empty : GameFilter := ⟨none, none, none, none, none, none, none, none, none, none⟩

/-- A text that counts. -/
def nonBlank (field : Option String) : Option String := (field.map Text.trimmed).filter (· ≠ "")

/-- The conditions of a filter, in the order of a statement. -/
def conditions (f : GameFilter) : List GameCondition :=
  ((nonBlank f.white).map .white).toList ++ ((nonBlank f.black).map .black).toList
    ++ ((nonBlank f.opening).map .opening).toList ++ ((nonBlank f.player).map .player).toList
    ++ ((nonBlank f.eco).map .eco).toList ++ ((nonBlank f.result).map .result).toList
    ++ ((nonBlank f.dateFrom).map .dateFrom).toList ++ ((nonBlank f.dateTo).map .dateTo).toList
    ++ (f.minElo.map .minElo).toList ++ (f.maxElo.map .maxElo).toList

/-- No text of the filter counts and no rating is given. -/
def isEmpty (f : GameFilter) : Bool :=
  [f.white, f.black, f.player, f.eco, f.opening, f.result, f.dateFrom, f.dateTo].all (fun field =>
    (nonBlank field).isNone)
  && f.minElo.isNone && f.maxElo.isNone

end GameFilter

/-- A game with the given metadata meets a condition. -/
def GameCondition.holds (m : Metadata) : GameCondition → Bool
  | white t => Like.holds (Like.containing t) m.white
  | black t => Like.holds (Like.containing t) m.black
  | opening t => m.opening.any (Like.holds (Like.containing t))
  | player t => Like.holds (Like.containing t) m.white || Like.holds (Like.containing t) m.black
  | eco v => m.eco = some v
  | result v => m.result = v
  | dateFrom v => m.date.any (v ≤ ·)
  | dateTo v => m.date.any (· ≤ v)
  | minElo n => m.whiteElo.any ((n : Int) ≤ ·) || m.blackElo.any ((n : Int) ≤ ·)
  | maxElo n => m.whiteElo.any (· ≤ (n : Int)) && m.blackElo.any (· ≤ (n : Int))

/-- The term that a condition looks for inside a text. -/
def GameCondition.term? : GameCondition → Option String
  | white t | black t | opening t | player t => some t
  | _ => none

/-- A condition looks for a term that the LIKE operator does not take. -/
def GameCondition.isTooLong (c : GameCondition) : Bool :=
  c.term?.any fun t => Like.maxPatternSize < (Like.containing t).utf8ByteSize

/-- Testing the conditions one after the other comes to one that is too long. -/
def GameFilter.comesToTooLong (m : Metadata) : List GameCondition → Bool
  | [] => false
  | c :: rest => c.isTooLong || c.holds m && comesToTooLong m rest

/-- A game with the given metadata passes a filter. -/
def GameFilter.passes (f : GameFilter) (m : Metadata) : Bool := f.conditions.all (·.holds m)

end ChessArchive
