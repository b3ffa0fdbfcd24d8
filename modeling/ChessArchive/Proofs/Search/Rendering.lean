import ChessArchive.Proofs.Query.Binding
import ChessArchive.Search.Sql

/-! The statements of a search are those that are sent: written out, each has the same text as the one that a plan or a
    filter gives, letter by letter, and the same values in the same places. -/

namespace ChessArchive

namespace Statement

/-- Two statements with the same text and the same values, however they are cut into fragments. -/
structure Agrees (s t : Statement) : Prop where
  sql : s.sql = t.sql
  params : s.params = t.params

/-- Fragments letter by letter, with the values in their places. -/
def spelling (xs : List Fragment) : List (Char ⊕ Param) :=
  xs.flatMap fun
    | .text t => t.toList.map .inl
    | .value p => [.inr p]

@[simp] theorem spelling_nil : spelling [] = [] := rfl

@[simp] theorem spelling_text (t : String) (xs : List Fragment) :
    spelling (.text t :: xs) = t.toList.map .inl ++ spelling xs := rfl

@[simp] theorem spelling_value (p : Param) (xs : List Fragment) : spelling (.value p :: xs) = .inr p :: spelling xs := rfl

@[simp] theorem spelling_append (xs ys : List Fragment) : spelling (xs ++ ys) = spelling xs ++ spelling ys :=
  List.flatMap_append

@[simp] theorem spelling_intercalate (sep : List Fragment) (xss : List (List Fragment)) :
    spelling (sep.intercalate xss) = (spelling sep).intercalate (xss.map spelling) := by
  induction xss with
  | nil => rfl
  | cons xs rest ih =>
    cases rest with
    | nil => simp
    | cons ys rest =>
      rw [List.intercalate_cons_cons, spelling_append, spelling_append, ih]
      exact (List.intercalate_cons_cons ..).symm

/-- The spelling says it all. -/
theorem agrees_of_spelling {s t : Statement} (h : spelling s.fragments = spelling t.fragments) : s.Agrees t := by
  have hchars : ∀ xs, chars xs = (spelling xs).map (Sum.elim id fun _ => '?') := by
    intro xs
    rw [chars, spelling, List.map_flatMap]
    refine List.flatMap_congr fun x _ => ?_
    cases x <;> simp
  have hparams : ∀ xs, params ⟨xs⟩ = (spelling xs).filterMap Sum.getRight? := by
    intro xs
    induction xs with
    | nil => rfl
    | cons x xs ih => cases x <;> simp [ih, List.filterMap_map]
  constructor
  · rw [← String.toList_inj, toList_sql, toList_sql, hchars, hchars, h]
  · exact (hparams _).trans ((congrArg _ h).trans (hparams _).symm)

end Statement

namespace Sql
open Statement (spelling spelling_text spelling_append)

/-! ### Tests -/

theorem spelling_test (c : Condition) :
    (testOf? c).map (spelling ·.fragments) = (Statement.comparison? c).map spelling := by
  cases c <;> rfl

theorem spelling_gameTest (c : GameCondition) :
    spelling (gameTest c).fragments = spelling (Statement.gameComparison c) := by
  cases c <;> rfl

theorem spelling_whereAll {tests : List Test} {comparisons : List (List Fragment)}
    (h : tests.map (spelling ·.fragments) = comparisons.map spelling) :
    spelling (.text " WHERE " :: allOf (whereAll tests)) = spelling (Statement.whereAll comparisons) := by
  have hnone : comparisons = [] ↔ tests.isEmpty = true := by
    rw [List.isEmpty_iff, ← List.map_eq_nil_iff (f := spelling), ← h, List.map_eq_nil_iff]
  unfold whereAll Statement.whereAll
  by_cases htests : tests.isEmpty = true
  · rw [if_pos htests, if_pos (hnone.mpr htests)]
    rfl
  · rw [if_neg htests, if_neg (hnone.not.mpr htests), spelling_text, spelling_text, allOf,
      Statement.spelling_intercalate, Statement.spelling_intercalate, List.map_map, ← h]
    rfl

/-! ### Joins -/

theorem text_locations (k : Nat) : (Table.locations k).text = s!"piece_locations l{k}" := rfl

theorem spelling_join {c : Condition} {k : Nat} {j : Join} (h : joinOf? (c, k) = some j) :
    spelling j.fragments = spelling (Statement.joins [(c, k)]) := by
  cases c with
  | lookup s allowed =>
    cases h
    simp [Statement.joins, Statement.joinOf, Join.fragments, allOf, Test.fragments, Column.text, LocationColumn.name,
      PositionColumn.name, Operator.text, text_locations, ToString.toString]
  | _ => cases h

theorem spelling_joins (cs : List (Condition × Nat)) :
    spelling ((cs.filterMap joinOf?).flatMap Join.fragments) = spelling (Statement.joins cs) := by
  induction cs with
  | nil => rfl
  | cons e cs ih =>
    have hcons : Statement.joins (e :: cs) = Statement.joins [e] ++ Statement.joins cs := by simp [Statement.joins]
    rw [hcons, spelling_append, ← ih]
    obtain ⟨c, k⟩ := e
    cases hjoin : joinOf? (c, k) with
    | none =>
      rw [List.filterMap_cons_none hjoin]
      cases c with
      | lookup => cases hjoin
      | _ => rfl
    | some j =>
      rw [List.filterMap_cons_some hjoin, List.flatMap_cons, spelling_append, spelling_join hjoin]

/-! ### Sources -/

theorem spelling_source (q : Source) (joins : List Fragment) {wheres : List Fragment}
    (hjoins : spelling (q.joins.flatMap Join.fragments) = spelling joins)
    (hwheres : spelling (.text " WHERE " :: allOf q.tests) = spelling wheres) :
    spelling q.fragments = spelling (.text s!"FROM {q.table.text}" :: joins ++ wheres) := by
  rw [Source.fragments, spelling_append, spelling_append, hwheres, spelling_text, spelling_text, hjoins]

theorem spelling_candidates (p : Plan) (f : GameFilter) :
    spelling (candidates p f).fragments = spelling (Statement.candidates p f) := by
  unfold candidates Statement.candidates
  split
  · rfl
  · refine spelling_source _ (Statement.joins p.conditions.zipIdx ++ _) ?_ (spelling_whereAll ?_)
    · rw [List.flatMap_append, spelling_append, spelling_append, spelling_joins]
      cases f.isEmpty <;> rfl
    · have hcomparisons : (p.conditions.filterMap testOf?).map (spelling ·.fragments) =
          (p.conditions.filterMap Statement.comparison?).map spelling := by
        rw [List.map_filterMap, List.map_filterMap]
        exact List.filterMap_congr fun c _ => spelling_test c
      rw [List.map_append, List.map_append, hcomparisons]
      split
      · rfl
      · rw [List.map_map, List.map_map]
        exact congrArg _ (List.map_congr_left fun c _ => spelling_gameTest c)

/-- One test more. -/
theorem allOf_concat {tests : List Test} (h : tests ≠ []) (t : Test) :
    allOf (tests ++ [t]) = allOf tests ++ .text " AND " :: t.fragments := by
  induction tests with
  | nil => exact absurd rfl h
  | cons u tests ih =>
    cases tests with
    | nil => simp [allOf, List.intercalate_cons_cons]
    | cons v tests =>
      have hlater := ih (List.cons_ne_nil _ _)
      simp only [allOf, List.cons_append, List.map_cons, List.intercalate_cons_cons] at hlater ⊢
      rw [hlater]
      simp only [List.append_assoc]

theorem whereAll_ne_nil (tests : List Test) : whereAll tests ≠ [] := by
  cases tests <;> exact List.cons_ne_nil _ _

theorem candidates_tests_ne_nil (p : Plan) (f : GameFilter) : (candidates p f).tests ≠ [] := by
  unfold candidates
  split
  · exact List.cons_ne_nil _ _
  · exact whereAll_ne_nil _

theorem spelling_filtered (f : GameFilter) :
    spelling (filtered f).fragments =
      spelling (.text "FROM games g" :: Statement.whereAll (f.conditions.map Statement.gameComparison)) := by
  refine spelling_source _ [] rfl (spelling_whereAll ?_)
  rw [List.map_map, List.map_map]
  exact List.map_congr_left fun c _ => spelling_gameTest c

/-! ### Statements -/

/-- A page of one column, newest games first. -/
theorem spelling_page (distinct : Bool) (column : Column) (q : Source) (w : Window) :
    spelling (Select.statement ⟨distinct, [column], q, [(column, .descending)], bound w⟩).fragments =
      spelling (.text (if distinct then s!"SELECT DISTINCT {column.text} " else s!"SELECT {column.text} ") ::
        q.fragments ++ Statement.paged column.text w) := by
  have hlimit : (bound w).limit = w.limit := rfl
  have hoffset : ((bound w).offset : Int) = min (w.offset : Int) (Statement.maxOffset : Int) := by
    simp only [bound]
    omega
  cases distinct <;> simp [Select.statement, Statement.paged, hlimit, hoffset, orderText, Direction.text,
    ToString.toString]

/-- What is sent for a page of games and for their number is what is meant. -/
theorem search_agrees (f : GameFilter) (w : Window) :
    (∀ p, (countOf f (some p)).statement.Agrees (Statement.ofPlan p f w).count ∧
      (gamesOf f w (some p)).statement.Agrees (Statement.ofPlan p f w).games) ∧
    (countOf f none).statement.Agrees (Statement.ofFilter f w).count ∧
      (gamesOf f w none).statement.Agrees (Statement.ofFilter f w).games := by
  refine ⟨fun p => ⟨Statement.agrees_of_spelling ?_, Statement.agrees_of_spelling ?_⟩, Statement.agrees_of_spelling ?_,
    Statement.agrees_of_spelling ?_⟩
  · exact congrArg (_ ++ ·) (spelling_candidates p f)
  · rw [gamesOf, spelling_page]
    simp only [Statement.ofPlan, spelling_append, spelling_text, spelling_candidates]
    rfl
  · simp only [Count.statement, countOf, Statement.ofFilter, spelling_text, spelling_filtered]
    rfl
  · rw [gamesOf, spelling_page]
    simp only [Statement.ofFilter, spelling_append, spelling_text, spelling_filtered]
    rfl

/-- So is what is sent for the positions. -/
theorem positions_agrees (p : Plan) (ids : List Id) :
    (positionsOf p ids).statement.Agrees (Statement.positionsIn p ids) := by
  refine Statement.agrees_of_spelling ?_
  have hsource : (positionsOf p ids).source.fragments =
      (candidates p .empty).fragments ++ .text " AND " :: (Test.among (.position .game) (ids.map .int)).fragments := by
    simp only [positionsOf, Source.fragments, allOf_concat (candidates_tests_ne_nil p .empty), List.append_assoc,
      List.cons_append]
  simp only [Select.statement, Statement.positionsIn, spelling_append, spelling_text, hsource, spelling_candidates]
  simp [positionsOf, orderText, Direction.text, Test.fragments, Column.text, PositionColumn.name, ToString.toString]

end Sql
end ChessArchive
