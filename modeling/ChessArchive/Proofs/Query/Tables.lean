import ChessArchive.Proofs.Query.Binding
import ChessArchive.Proofs.Text.Blank

/-! How many tables a statement reads: the one after FROM, and one more for each word JOIN. These are the positions, the
    pieces on a square for each look-up, and the games if they are filtered. -/

namespace ChessArchive

namespace Plan

/-- The number of look-ups. -/
def lookups (p : Plan) : Nat :=
  p.conditions.countP fun
    | .lookup _ _ => true
    | _ => false

theorem joinedTables_eq (p : Plan) (f : GameFilter) :
    Statement.joinedTables p f = 1 + p.lookups + if f.isEmpty then 0 else 1 := rfl

theorem joinedTables_empty_le (p : Plan) (f : GameFilter) :
    Statement.joinedTables p .empty ≤ Statement.joinedTables p f := by
  rw [joinedTables_eq, joinedTables_eq]
  exact Nat.add_le_add_left (Nat.zero_le _) _

end Plan

namespace Statement

/-- The tables that a statement reads. -/
def tables (s : Statement) : Nat := 1 + (Text.fields s.sql.toList).count "JOIN".toList

/-! ### Texts -/

/-- A text in which a number of joins begin. The letter J is in no other word. -/
inductive Joins : Nat → List Char → Prop
  | none {cs : List Char} (h : 'J' ∉ cs) : Joins 0 cs
  | join {n : Nat} {before cs : List Char} (h : 'J' ∉ before) (k : Joins n cs) :
    Joins (n + 1) (before ++ ' ' :: ("JOIN".toList ++ ' ' :: cs))

variable {n : Nat} {cs : List Char} {xs ys : List Fragment}

theorem count_of_not_mem (h : 'J' ∉ cs) : (Text.fields cs).count "JOIN".toList = 0 := by
  rw [List.count_eq_zero]
  intro hword
  have hflat : 'J' ∈ (Text.fields cs).flatten := List.mem_flatten.mpr ⟨_, hword, by decide⟩
  rw [Text.flatten_fields] at hflat
  exact h (List.mem_of_mem_filter hflat)

theorem Joins.count (h : Joins n cs) : (Text.fields cs).count "JOIN".toList = n := by
  have hblank : Text.isBlank ' ' = true := by decide
  induction h with
  | none h => exact count_of_not_mem h
  | join h _ ih =>
    have hone : Text.fields "JOIN".toList = ["JOIN".toList] := by decide
    rw [Text.fields_append_blank hblank, Text.fields_append_blank hblank, List.count_append, List.count_append,
      count_of_not_mem h, ih, hone, List.count_singleton_self, Nat.zero_add, Nat.add_comm]

theorem Joins.prepend {before : List Char} (h : 'J' ∉ before) (k : Joins n cs) : Joins n (before ++ cs) := by
  cases k with
  | none k => exact .none (by simp [h, k])
  | join hbefore k =>
    rw [← List.append_assoc]
    exact .join (by simp [h, hbefore]) k

/-! ### Fragments without joins -/

def joinless : Fragment → Bool
  | .text t => !t.toList.contains 'J'
  | .value _ => true

theorem not_mem_chars (h : xs.all joinless = true) : 'J' ∉ chars xs := by
  intro hmem
  obtain ⟨x, hx, hc⟩ := List.mem_flatMap.mp hmem
  have hless := List.all_eq_true.mp h x hx
  cases x with
  | text t => simp [joinless, hc] at hless
  | value p => exact absurd (List.mem_singleton.mp hc) (by decide)

theorem Joins.skip (h : xs.all joinless = true) (k : Joins n (chars ys)) : Joins n (chars (xs ++ ys)) := by
  rw [chars_append]
  exact .prepend (not_mem_chars h) k

theorem all_joinless_intercalate {separator : List Fragment} {xss : List (List Fragment)}
    (hseparator : separator.all joinless = true) (h : ∀ xs ∈ xss, xs.all joinless = true) :
    (separator.intercalate xss).all joinless = true := by
  simp only [List.all_eq_true] at hseparator h ⊢
  exact Text.forall_mem_intercalate hseparator h

theorem joinless_values (ps : List Param) : (values ps).all joinless = true := by
  refine all_joinless_intercalate rfl fun xs hxs => ?_
  obtain ⟨p, -, rfl⟩ := List.mem_map.mp hxs
  rfl

theorem joinless_whereAll {xss : List (List Fragment)} (h : ∀ xs ∈ xss, xs.all joinless = true) :
    (whereAll xss).all joinless = true := by
  unfold whereAll
  split
  · rfl
  · rw [List.all_cons, all_joinless_intercalate rfl h]
    rfl

theorem joinless_comparisons (conditions : List Condition) :
    ∀ xs ∈ conditions.filterMap comparison?, xs.all joinless = true := by
  intro xs hxs
  obtain ⟨c, -, hc⟩ := List.mem_filterMap.mp hxs
  cases c <;> cases hc <;> rfl

theorem joinless_games (conditions : List GameCondition) :
    ∀ xs ∈ conditions.map gameComparison, xs.all joinless = true := by
  intro xs hxs
  obtain ⟨c, -, rfl⟩ := List.mem_map.mp hxs
  cases c <;> rfl

/-! ### Joins -/

theorem joins_joinOf (k : Nat) (s : Square) (allowed : PieceSet) (h : Joins n (chars ys)) :
    Joins (n + 1) (chars (joinOf k s allowed ++ ys)) := by
  have hdigits : 'J' ∉ Nat.toDigits 10 k := by
    intro hmem
    have hdigit : 'J'.isDigit = true := Nat.isDigit_of_mem_toDigits (by decide) (by decide) hmem
    cases hdigit
  let letters := values (allowed.toList.map fun p => .text (String.singleton p.symbol))
  have htext : chars (joinOf k s allowed ++ ys) = [] ++ ' ' :: ("JOIN".toList ++ ' ' :: ("piece_locations l".toList ++
      Nat.toDigits 10 k ++ " ON l".toList ++ Nat.toDigits 10 k ++ ".position_id = p.id AND l".toList ++
      Nat.toDigits 10 k ++ ".square = ? AND l".toList ++ Nat.toDigits 10 k ++ ".piece IN (".toList ++ chars letters ++
      ')' :: chars ys)) := by
    simp [joinOf, chars_append, letters, ToString.toString]
  have hletters : 'J' ∉ chars letters := not_mem_chars (joinless_values _)
  have hbracket : 'J' ∉ [')'] := by decide
  rw [htext]
  refine .join List.not_mem_nil (.prepend ?_ (.prepend hbracket h))
  simp [hdigits, hletters]

theorem joins_lookups (conditions : List Condition) (k : Nat) (h : Joins n (chars ys)) :
    Joins ((⟨conditions⟩ : Plan).lookups + n) (chars (joins (conditions.zipIdx k) ++ ys)) := by
  induction conditions generalizing k with
  | nil => simpa [Plan.lookups, joins] using h
  | cons c conditions ih =>
    rw [List.zipIdx_cons, joins, List.flatMap_cons, List.append_assoc]
    cases c with
    | lookup s allowed =>
      have hlookups : (⟨.lookup s allowed :: conditions⟩ : Plan).lookups = (⟨conditions⟩ : Plan).lookups + 1 :=
        List.countP_cons_of_pos rfl
      rw [hlookups, Nat.add_right_comm]
      exact joins_joinOf k s allowed (ih (k + 1))
    | fingerprint => exact ih (k + 1)
    | material => exact ih (k + 1)
    | side => exact ih (k + 1)

theorem joins_filter (f : GameFilter) (h : Joins 0 (chars ys)) : Joins (if f.isEmpty then 0 else 1)
    (chars ((if f.isEmpty then [] else [.text " JOIN games g ON g.id = p.game_id"]) ++ ys)) := by
  have htext : chars ([.text " JOIN games g ON g.id = p.game_id"] ++ ys) =
      [] ++ ' ' :: ("JOIN".toList ++ ' ' :: ("games g ON g.id = p.game_id".toList ++ chars ys)) := by
    simp
  split
  · exact h
  · rw [htext]
    exact .join List.not_mem_nil (.prepend (by decide) h)

theorem joins_candidates (p : Plan) (f : GameFilter) (h : ys.all joinless = true) :
    Joins (if p.isNothing then 0 else p.lookups + if f.isEmpty then 0 else 1) (chars (candidates p f ++ ys)) := by
  have hend : ∀ xs : List Fragment, xs.all joinless = true → Joins 0 (chars (xs ++ ys)) := by
    intro xs hxs
    exact .none (not_mem_chars (by rw [List.all_append, hxs, h]; rfl))
  unfold candidates
  split
  · exact hend _ rfl
  · have hcomparisons : ∀ xs ∈ p.conditions.filterMap comparison? ++ (if f.isEmpty then [] else
        f.conditions.map gameComparison), xs.all joinless = true := by
      refine List.forall_mem_append.mpr ⟨joinless_comparisons _, ?_⟩
      split
      · exact List.forall_mem_nil _
      · exact joinless_games _
    have hwhere := hend _ (joinless_whereAll hcomparisons)
    have hfrom : [Fragment.text "FROM positions p"].all joinless = true := rfl
    rw [List.append_assoc, List.append_assoc, List.cons_append]
    exact .skip hfrom (joins_lookups p.conditions 0 (joins_filter f hwhere))

/-! ### Whole statements -/

theorem tables_of_joins (h : Joins n (chars xs)) : tables ⟨xs⟩ = 1 + n := by
  rw [tables, toList_sql, h.count]

/-- The candidates of a plan are taken from the tables that are joined. A plan for nothing joins none. -/
theorem tables_candidates {t : String} (ht : [Fragment.text t].all joinless = true) (h : ys.all joinless = true)
    (p : Plan) (f : GameFilter) :
    tables ⟨[.text t] ++ (candidates p f ++ ys)⟩ = if p.isNothing then 1 else joinedTables p f := by
  rw [tables_of_joins (Joins.skip ht (joins_candidates p f h)), Plan.joinedTables_eq, Nat.add_assoc]
  split <;> rfl

theorem tables_games (p : Plan) (f : GameFilter) (w : Window) :
    (ofPlan p f w).games.tables = if p.isNothing then 1 else joinedTables p f :=
  tables_candidates (t := "SELECT DISTINCT p.game_id ") rfl rfl p f

theorem tables_count (p : Plan) (f : GameFilter) (w : Window) :
    (ofPlan p f w).count.tables = if p.isNothing then 1 else joinedTables p f := by
  have hend : ([] : List Fragment).all joinless = true := rfl
  have hcount := tables_candidates (t := "SELECT COUNT(DISTINCT p.game_id) ") rfl hend p f
  rwa [List.append_nil] at hcount

theorem tables_positionsIn (p : Plan) (ids : List Id) :
    (positionsIn p ids).tables = if p.isNothing then 1 else joinedTables p .empty := by
  have hids : (Fragment.text " AND p.game_id IN (" :: values (ids.map Param.int) ++
      [Fragment.text ") ORDER BY p.game_id DESC, p.move_number ASC"]).all joinless = true := by
    rw [List.all_append, List.all_cons, joinless_values]
    rfl
  have hfirst : [Fragment.text "SELECT p.game_id, p.move_number, p.move_san "].all joinless = true := rfl
  have htext : positionsIn p ids = ⟨[.text "SELECT p.game_id, p.move_number, p.move_san "] ++ (candidates p .empty ++
      (.text " AND p.game_id IN (" :: values (ids.map .int) ++
        [.text ") ORDER BY p.game_id DESC, p.move_number ASC"]))⟩ := by
    simp [positionsIn]
  rw [htext]
  exact tables_candidates hfirst hids p .empty

theorem tables_filtered (f : GameFilter) (w : Window) :
    (ofFilter f w).games.tables = 1 ∧ (ofFilter f w).count.tables = 1 := by
  have hwhere := joinless_whereAll (joinless_games f.conditions)
  have hcount : (Fragment.text "SELECT COUNT(*) FROM games g" :: whereAll (f.conditions.map gameComparison)).all
      joinless = true := by
    rw [List.all_cons, hwhere]
    rfl
  have hgames : (Fragment.text "SELECT g.id FROM games g" :: whereAll (f.conditions.map gameComparison) ++
      paged "g.id" w).all joinless = true := by
    rw [List.all_append, List.all_cons, hwhere]
    rfl
  exact ⟨tables_of_joins (.none (not_mem_chars hgames)), tables_of_joins (.none (not_mem_chars hcount))⟩

end Statement
end ChessArchive
