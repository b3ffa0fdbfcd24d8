import ChessArchive.Query.Plan

/-! What plans mean, given what their conditions mean. A conjunction holds if it has children and all of them hold, and
    the normal form of a tree holds exactly where the tree does. -/

namespace ChessArchive

section
variable {holds : Condition → Prop}

mutual
/-- A tree holds, given which conditions do. -/
def PlanNode.Holds (holds : Condition → Prop) : PlanNode → Prop
  | .nothing => False
  | .leaf c => holds c
  | .all children => children ≠ [] ∧ PlanNode.AllHold holds children

/-- All of several trees hold. -/
def PlanNode.AllHold (holds : Condition → Prop) : List PlanNode → Prop
  | [] => True
  | n :: ns => n.Holds holds ∧ PlanNode.AllHold holds ns
end

/-- A plan in normal form holds if it has conditions and all of them hold. -/
def Plan.Holds (holds : Condition → Prop) (p : Plan) : Prop := p.conditions ≠ [] ∧ ∀ c ∈ p.conditions, holds c

namespace PlanNode

theorem allHold_iff {ns : List PlanNode} : AllHold holds ns ↔ ∀ n ∈ ns, n.Holds holds := by
  induction ns with
  | nil => simp [AllHold]
  | cons n ns ih => simp [AllHold, ih]

theorem holds_all {ns : List PlanNode} : (all ns).Holds holds ↔ ns ≠ [] ∧ ∀ n ∈ ns, n.Holds holds := by
  rw [Holds, allHold_iff]

theorem conditions_leaf (hempty : ∀ s, ¬ holds (.lookup s .empty)) (c : Condition) :
    ((leaf c).conditions ≠ [] ∧ ∀ d ∈ (leaf c).conditions, holds d) ↔ holds c := by
  cases c with
  | lookup s allowed =>
    rw [conditions]
    split
    · rename_i hnone
      obtain rfl : allowed = .empty := by
        cases allowed
        simpa [PieceSet.isEmpty, PieceSet.empty] using hnone
      simp [hempty s]
    · simp
  | _ => simp [conditions]

theorem conjoin_cons {n : PlanNode} {ns : List PlanNode} {cs : List Condition} :
    conjoin (n :: ns) = some cs ↔ n.conditions ≠ [] ∧ ∃ rest, conjoin ns = some rest ∧ n.conditions ++ rest = cs := by
  rw [conjoin]
  cases n.conditions <;> simp

mutual
/-- The conditions of a tree all hold exactly where the tree holds, unless there are none. -/
theorem conditions_holds (hempty : ∀ s, ¬ holds (.lookup s .empty)) :
    ∀ n : PlanNode, (n.conditions ≠ [] ∧ ∀ c ∈ n.conditions, holds c) ↔ n.Holds holds
  | .nothing => by simp [conditions, Holds]
  | .leaf c => by rw [conditions_leaf hempty, Holds]
  | .all [] => by simp [conditions, conjoin, Holds]
  | .all (n :: ns) => by
    rw [Holds, ← conjoin_holds hempty (n :: ns), conditions]
    cases hc : conjoin (n :: ns) with
    | none => simp
    | some cs =>
      obtain ⟨hne, rest, -, rfl⟩ := conjoin_cons.mp hc
      simp [hne]

theorem conjoin_holds (hempty : ∀ s, ¬ holds (.lookup s .empty)) :
    ∀ ns : List PlanNode, (∃ cs, conjoin ns = some cs ∧ ∀ c ∈ cs, holds c) ↔ AllHold holds ns
  | [] => by simp [conjoin, AllHold]
  | n :: ns => by
    rw [AllHold, ← conditions_holds hempty n, ← conjoin_holds hempty ns]
    constructor
    · rintro ⟨cs, hcs, hall⟩
      obtain ⟨hne, rest, hrest, rfl⟩ := conjoin_cons.mp hcs
      rw [List.forall_mem_append] at hall
      exact ⟨⟨hne, hall.1⟩, rest, hrest, hall.2⟩
    · rintro ⟨⟨hne, hfirst⟩, rest, hrest, hlater⟩
      exact ⟨_, conjoin_cons.mpr ⟨hne, rest, hrest, rfl⟩, List.forall_mem_append.mpr ⟨hfirst, hlater⟩⟩
end

end PlanNode

namespace Plan

theorem normalize_holds (hempty : ∀ s, ¬ holds (.lookup s .empty)) (n : PlanNode) :
    n.normalize.Holds holds ↔ n.Holds holds := PlanNode.conditions_holds hempty n

theorem toNode_holds (p : Plan) : p.toNode.Holds holds ↔ p.Holds holds := by
  unfold toNode Plan.Holds
  split
  · rename_i hnone
    simp [hnone, PlanNode.Holds]
  · rename_i hone
    simp [hone, PlanNode.Holds]
  · rw [PlanNode.holds_all]
    simp [PlanNode.Holds]

/-- The plan of a pattern holds where all look-ups of its constraints do, unless there are none. -/
theorem ofPattern_holds (hempty : ∀ s, ¬ holds (.lookup s .empty)) (p : Pattern) :
    (ofPattern p).Holds holds ↔ p.constraints ≠ [] ∧ ∀ c ∈ p.constraints, holds (.lookup c.square c.allowed) := by
  rw [ofPattern, normalize_holds hempty, PlanNode.holds_all]
  simp [PlanNode.Holds]

theorem withSide_holds (hempty : ∀ s, ¬ holds (.lookup s .empty)) (p : Plan) (c : Color) :
    (p.withSide c).Holds holds ↔ p.Holds holds ∧ holds (.side c) := by
  rw [withSide, normalize_holds hempty, PlanNode.holds_all]
  simp [toNode_holds, PlanNode.Holds]

end Plan

end

end ChessArchive
