import ChessArchive.Material
import ChessArchive.Pattern

/-! Search plans: which positions a search selects. A plan may be written as any tree of conjunctions; a plan in
    normal form is a list of conditions that all have to hold, and the empty list selects nothing. -/

namespace ChessArchive

/-- One condition on a position. -/
inductive Condition where
  /-- The square holds a piece of the set. -/
  | lookup (square : Square) (allowed : PieceSet)
  | fingerprint (value : UInt64)
  | material (signature : String)
  | side (color : Color)
  deriving DecidableEq

/-- A plan as written. A conjunction of nothing selects nothing. -/
inductive PlanNode where
  | nothing
  | leaf (condition : Condition)
  | all (children : List PlanNode)

/-- A plan in normal form. -/
structure Plan where
  conditions : List Condition
  deriving DecidableEq

namespace Plan

/-- The plan that selects no position. -/
def nothing : Plan := ⟨[]⟩

def isNothing (p : Plan) : Bool := p.conditions.isEmpty

/-- A plan in normal form, written as a tree. -/
def toNode (p : Plan) : PlanNode :=
  match p.conditions with
  | [] => .nothing
  | [c] => .leaf c
  | cs => .all (cs.map .leaf)

end Plan

namespace PlanNode

mutual
/-- The conditions of a tree; none if they cannot all hold. A look-up in the empty set cannot. -/
def conditions : PlanNode → List Condition
  | .nothing => []
  | .leaf (.lookup s allowed) => if allowed.isEmpty then [] else [.lookup s allowed]
  | .leaf c => [c]
  | .all children => (conjoin children).getD []

/-- The conditions of several trees together, unless one of the trees selects nothing. -/
def conjoin : List PlanNode → Option (List Condition)
  | [] => some []
  | n :: ns =>
    match conditions n with
    | [] => none
    | c :: cs => (conjoin ns).map (c :: cs ++ ·)
end

/-- The normal form of a tree. -/
def normalize (n : PlanNode) : Plan := ⟨n.conditions⟩

end PlanNode

namespace Plan

/-- The plan of a pattern: one look-up per constraint. -/
def ofPattern (p : Pattern) : Plan :=
  (PlanNode.all (p.constraints.map fun c => .leaf (.lookup c.square c.allowed))).normalize

def ofFingerprint (value : UInt64) : Plan := (PlanNode.leaf (.fingerprint value)).normalize

def ofMaterial (m : Material) : Plan := (PlanNode.leaf (.material m.signature)).normalize

/-- Adds a side to move. -/
def withSide (p : Plan) (c : Color) : Plan := (PlanNode.all [p.toNode, .leaf (.side c)]).normalize

end Plan
end ChessArchive
