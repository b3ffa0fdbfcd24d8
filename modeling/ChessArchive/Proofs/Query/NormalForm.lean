import ChessArchive.Proofs.Search.Selection

/-! The normal form of plans. Normalizing a tree leaves where it holds as it is, and what comes out is nothing at all, a
    single condition, or one conjunction of at least two. The trees of that form are those that normalizing leaves
    alone. -/

namespace ChessArchive

/-- No look-up in the empty set, which nothing can meet. -/
def Condition.IsProper (c : Condition) : Prop := ∀ s, c ≠ .lookup s .empty

namespace PlanNode

/-- A tree holds of a position, by what is on its board. -/
def HoldsOf (p : StoredPosition) (n : PlanNode) : Prop := n.Holds fun c => c.holds p = true

def IsProperLeaf (n : PlanNode) : Prop := ∃ c, n = .leaf c ∧ c.IsProper

/-- Nothing only as the whole, and no conjunction inside another or with fewer than two children. -/
inductive IsNormal : PlanNode → Prop where
  | nothing : IsNormal .nothing
  | leaf {n : PlanNode} : n.IsProperLeaf → IsNormal n
  | all {ns : List PlanNode} : 2 ≤ ns.length → (∀ n ∈ ns, n.IsProperLeaf) → IsNormal (.all ns)

/-! ### The conditions of a tree -/

theorem conditions_of_isProper {c : Condition} (h : c.IsProper) : (leaf c).conditions = [c] := by
  cases c with
  | lookup s allowed =>
    have hsome : allowed.isEmpty = false := by
      rw [Bool.eq_false_iff]
      intro hempty
      apply h s
      rw [show allowed = .empty from congrArg PieceSet.mk (eq_of_beq hempty)]
    simp [conditions, hsome]
  | _ => rfl

theorem isProper_of_mem_leaf {c d : Condition} (h : d ∈ (leaf c).conditions) : d.IsProper := by
  cases c with
  | lookup s allowed =>
    rw [conditions] at h
    split at h
    · simp at h
    · rename_i hsome
      obtain rfl := List.mem_singleton.mp h
      intro t heq
      cases heq
      exact hsome rfl
  | _ =>
    obtain rfl := List.mem_singleton.mp h
    intro t
    nofun

mutual
theorem isProper_of_mem : ∀ (n : PlanNode), ∀ c ∈ n.conditions, c.IsProper
  | .nothing => by simp [conditions]
  | .leaf _ => fun _ h => isProper_of_mem_leaf h
  | .all ns => by
    intro c hc
    rw [conditions] at hc
    cases hcs : conjoin ns with
    | none => simp [hcs] at hc
    | some cs =>
      rw [hcs, Option.getD_some] at hc
      exact isProper_of_mem_conjoin ns hcs c hc

theorem isProper_of_mem_conjoin : ∀ (ns : List PlanNode) {cs : List Condition}, conjoin ns = some cs →
    ∀ c ∈ cs, c.IsProper
  | [], _, h => by
    obtain rfl := Option.some.inj h
    simp
  | n :: ns, _, h => by
    obtain ⟨-, rest, hrest, rfl⟩ := conjoin_cons.mp h
    exact List.forall_mem_append.mpr ⟨isProper_of_mem n, isProper_of_mem_conjoin ns hrest⟩
end

theorem conjoin_leaves {cs : List Condition} (h : ∀ c ∈ cs, c.IsProper) : conjoin (cs.map .leaf) = some cs := by
  induction cs with
  | nil => rfl
  | cons c cs ih =>
    rw [List.forall_mem_cons] at h
    have hleaf := conditions_of_isProper h.1
    rw [List.map_cons]
    refine conjoin_cons.mpr ⟨?_, cs, ih h.2, ?_⟩ <;> rw [hleaf]
    · exact List.cons_ne_nil c []
    · rfl

end PlanNode

/-! ### Plans as trees -/

section
open PlanNode

theorem Plan.toNode_isNormal {plan : Plan} (h : ∀ c ∈ plan.conditions, c.IsProper) : plan.toNode.IsNormal := by
  rcases plan with ⟨_ | ⟨c, _ | ⟨d, ds⟩⟩⟩
  · exact .nothing
  · exact .leaf ⟨c, rfl, h c List.mem_cons_self⟩
  · refine .all (by simp) fun n hn => ?_
    obtain ⟨e, he, rfl⟩ := List.mem_map.mp hn
    exact ⟨e, rfl, h e he⟩

theorem Plan.toNode_normalize {plan : Plan} (h : ∀ c ∈ plan.conditions, c.IsProper) :
    plan.toNode.normalize = plan := by
  rcases plan with ⟨_ | ⟨c, _ | ⟨d, ds⟩⟩⟩
  · rfl
  · exact congrArg Plan.mk (conditions_of_isProper (h c List.mem_cons_self))
  · have hconjoin := conjoin_leaves h
    have hconditions : (all ((c :: d :: ds).map .leaf)).conditions = c :: d :: ds := by
      rw [PlanNode.conditions, hconjoin, Option.getD_some]
    exact congrArg Plan.mk hconditions

theorem PlanNode.normalize_isNormal (n : PlanNode) : n.normalize.toNode.IsNormal :=
  Plan.toNode_isNormal (isProper_of_mem n)

/-- A tree in normal form is left alone. -/
theorem PlanNode.IsNormal.toNode_normalize {n : PlanNode} (h : n.IsNormal) : n.normalize.toNode = n := by
  cases h with
  | nothing => rfl
  | leaf hleaf =>
    obtain ⟨c, rfl, hc⟩ := hleaf
    rw [normalize, conditions_of_isProper hc]
    rfl
  | all htwo hleaves =>
    obtain ⟨cs, rfl, hcs⟩ := exists_map_eq hleaves
    rw [normalize, PlanNode.conditions, conjoin_leaves hcs, Option.getD_some]
    rw [List.length_map] at htwo
    rcases cs with _ | ⟨c, _ | ⟨d, ds⟩⟩
    · simp at htwo
    · simp at htwo
    · rfl

end

namespace PlanNode

/-- Normalizing a tree of any depth changes nothing about where it holds and reaches the normal form, whose trees are
    those that it leaves as they are; so a second time it changes nothing. A plan with a side to move holds where the
    plan does and that side is to move. -/
theorem normalize_meaning (n : PlanNode) (plan : Plan) (p : StoredPosition) :
    (n.normalize.toNode.HoldsOf p ↔ n.HoldsOf p) ∧
      n.normalize.toNode.IsNormal ∧
      (n.normalize.toNode = n ↔ n.IsNormal) ∧
      n.normalize.toNode.normalize = n.normalize ∧
      ∀ c, (plan.withSide c).toNode.HoldsOf p ↔ plan.toNode.HoldsOf p ∧ p.side = c := by
  have hempty := Condition.not_holds_empty p
  refine ⟨?_, n.normalize_isNormal, ⟨fun h => ?_, fun h => h.toNode_normalize⟩, ?_, fun c => ?_⟩
  · rw [HoldsOf, Plan.toNode_holds, Plan.normalize_holds hempty, HoldsOf]
  · rw [← h]
    exact n.normalize_isNormal
  · exact Plan.toNode_normalize (isProper_of_mem n)
  · rw [HoldsOf, Plan.toNode_holds, Plan.withSide_holds hempty, HoldsOf, Plan.toNode_holds]
    simp [Condition.holds]

end PlanNode
end ChessArchive
