import Mathlib.Data.List.Forall2
import ChessArchive.Proofs.Search.Pages

/-! What the statements of two searches have in common. If the searches are of one shape, the texts are the same, letter
    by letter, and everything in which the searches differ is among the values that are bound: two searches of one shape
    that bind the same values are the same. -/

namespace ChessArchive

/-! ### Searches of one shape -/

/-- Two conditions of one kind. Of a set only the size shows. -/
inductive Condition.Alike : Condition → Condition → Prop where
  | lookup {s t : Square} {allowed other : PieceSet} : allowed.size = other.size →
      Alike (.lookup s allowed) (.lookup t other)
  | fingerprint {v w : UInt64} : Alike (.fingerprint v) (.fingerprint w)
  | material {m n : String} : Alike (.material m) (.material n)
  | side {c d : Color} : Alike (.side c) (.side d)

/-- Two conditions on the same field. -/
inductive GameCondition.Alike : GameCondition → GameCondition → Prop where
  | white {t u : String} : Alike (.white t) (.white u)
  | black {t u : String} : Alike (.black t) (.black u)
  | opening {t u : String} : Alike (.opening t) (.opening u)
  | player {t u : String} : Alike (.player t) (.player u)
  | eco {t u : String} : Alike (.eco t) (.eco u)
  | result {t u : String} : Alike (.result t) (.result u)
  | dateFrom {t u : String} : Alike (.dateFrom t) (.dateFrom u)
  | dateTo {t u : String} : Alike (.dateTo t) (.dateTo u)
  | minElo {m n : Nat} : Alike (.minElo m) (.minElo n)
  | maxElo {m n : Nat} : Alike (.maxElo m) (.maxElo n)

/-- Which fields of a filter count: the texts that are not blank, and the ratings that are given. -/
def GameFilter.given (f : GameFilter) : List Bool :=
  [f.white, f.black, f.player, f.eco, f.opening, f.result, f.dateFrom, f.dateTo].map (fun field =>
    (nonBlank field).isSome) ++ [f.minElo.isSome, f.maxElo.isSome]

theorem forall₂_option {α : Type} {F : α → GameCondition} (halike : ∀ a b, (F a).Alike (F b)) {x y : Option α}
    (h : x.isSome = y.isSome) : List.Forall₂ GameCondition.Alike (x.map F).toList (y.map F).toList := by
  cases x <;> cases y <;> simp_all

namespace GameFilter
variable {f g : GameFilter}

theorem isEmpty_congr (h : f.given = g.given) : f.isEmpty = g.isEmpty := by
  have hgiven (f : GameFilter) : f.isEmpty = f.given.all (!·) := by
    simp [isEmpty, given, Bool.and_assoc]
  rw [hgiven, hgiven, h]

theorem conditions_alike (h : f.given = g.given) : List.Forall₂ GameCondition.Alike f.conditions g.conditions := by
  simp only [given, List.map_cons, List.map_nil, List.cons_append, List.nil_append, List.cons.injEq] at h
  obtain ⟨hwhite, hblack, hplayer, heco, hopening, hresult, hfrom, hto, hmin, hmax, -⟩ := h
  refine List.rel_append (List.rel_append (List.rel_append (List.rel_append (List.rel_append (List.rel_append
    (List.rel_append (List.rel_append (List.rel_append ?_ ?_) ?_) ?_) ?_) ?_) ?_) ?_) ?_) ?_
  · exact forall₂_option (fun _ _ => .white) hwhite
  · exact forall₂_option (fun _ _ => .black) hblack
  · exact forall₂_option (fun _ _ => .opening) hopening
  · exact forall₂_option (fun _ _ => .player) hplayer
  · exact forall₂_option (fun _ _ => .eco) heco
  · exact forall₂_option (fun _ _ => .result) hresult
  · exact forall₂_option (fun _ _ => .dateFrom) hfrom
  · exact forall₂_option (fun _ _ => .dateTo) hto
  · exact forall₂_option (fun _ _ => .minElo) hmin
  · exact forall₂_option (fun _ _ => .maxElo) hmax

end GameFilter

/-! ### Texts -/

/-- The same text, or two values in the same place. -/
inductive Fragment.Alike : Fragment → Fragment → Prop where
  | text (t : String) : Alike (.text t) (.text t)
  | value (p q : Param) : Alike (.value p) (.value q)

namespace Statement

/-- Fragments that differ in their values alone. -/
abbrev SameText : List Fragment → List Fragment → Prop := List.Forall₂ Fragment.Alike

theorem SameText.sql {xs ys : List Fragment} (h : SameText xs ys) :
    Statement.sql ⟨xs⟩ = Statement.sql ⟨ys⟩ := by
  unfold Statement.sql
  congr 1
  induction h with
  | nil => rfl
  | cons hxy _ ih => cases hxy <;> simpa using ih

theorem SameText.intercalate {sep : List Fragment} (hsep : SameText sep sep) {xs ys : List (List Fragment)}
    (h : List.Forall₂ SameText xs ys) : SameText (sep.intercalate xs) (sep.intercalate ys) := by
  induction h with
  | nil => exact .nil
  | cons hxy hrest ih =>
    cases hrest with
    | nil => simpa using hxy
    | cons hnext hmore =>
      rw [List.intercalate_cons_cons, List.intercalate_cons_cons]
      exact List.rel_append (List.rel_append hxy hsep) ih

theorem sameText_values {ps qs : List Param} (h : ps.length = qs.length) : SameText (values ps) (values qs) := by
  refine SameText.intercalate (.cons (.text _) .nil) ?_
  rw [List.forall₂_map_left_iff, List.forall₂_map_right_iff]
  exact List.forall₂_iff_zip.mpr ⟨h, fun _ => .cons (.value _ _) .nil⟩

theorem sameText_joins {cs ds : List Condition} (h : List.Forall₂ Condition.Alike cs ds) (k : Nat) :
    SameText (joins (cs.zipIdx k)) (joins (ds.zipIdx k)) := by
  induction h generalizing k with
  | nil => exact .nil
  | cons hcd _ ih =>
    rw [List.zipIdx_cons, List.zipIdx_cons, joins, joins, List.flatMap_cons, List.flatMap_cons]
    refine List.rel_append ?_ (ih (k + 1))
    cases hcd with
    | lookup hsize =>
      refine .cons (.text _) (.cons (.value _ _) (.cons (.text _) (List.rel_append ?_ (.cons (.text _) .nil))))
      exact sameText_values (by simpa [PieceSet.size] using hsize)
    | fingerprint => exact .nil
    | material => exact .nil
    | side => exact .nil

theorem sameText_comparisons {cs ds : List Condition} (h : List.Forall₂ Condition.Alike cs ds) :
    List.Forall₂ SameText (cs.filterMap comparison?) (ds.filterMap comparison?) := by
  refine List.rel_filterMap (fun c d hcd => ?_) h
  cases hcd with
  | lookup => exact .none
  | fingerprint => exact .some (.cons (.text _) (.cons (.value _ _) .nil))
  | material => exact .some (.cons (.text _) (.cons (.value _ _) .nil))
  | side => exact .some (.cons (.text _) (.cons (.value _ _) .nil))

theorem sameText_gameComparisons {cs ds : List GameCondition} (h : List.Forall₂ GameCondition.Alike cs ds) :
    List.Forall₂ SameText (cs.map gameComparison) (ds.map gameComparison) := by
  refine List.rel_map (fun c d hcd => ?_) h
  cases hcd <;> repeat first | exact .nil | refine .cons (.text _) ?_ | refine .cons (.value _ _) ?_

theorem sameText_whereAll {xs ys : List (List Fragment)} (h : List.Forall₂ SameText xs ys) :
    SameText (whereAll xs) (whereAll ys) := by
  cases h with
  | nil => exact .cons (.text _) .nil
  | cons hxy hrest =>
    rw [whereAll, if_neg (List.cons_ne_nil _ _), whereAll, if_neg (List.cons_ne_nil _ _)]
    exact .cons (.text _) (SameText.intercalate (.cons (.text _) .nil) (.cons hxy hrest))

section
variable {p q : Plan} {f g : GameFilter} (hplan : List.Forall₂ Condition.Alike p.conditions q.conditions)
  (hfilter : f.given = g.given)
include hplan

theorem isNothing_congr : p.isNothing = q.isNothing := by
  have hlength := hplan.length_eq
  cases hp : p.conditions <;> cases hq : q.conditions <;> simp_all [Plan.isNothing]

include hfilter in
theorem sameText_candidates : SameText (candidates p f) (candidates q g) := by
  unfold candidates
  rw [isNothing_congr hplan, GameFilter.isEmpty_congr hfilter]
  split
  · exact .cons (.text _) .nil
  · refine List.rel_append (List.rel_append (.cons (.text _) (sameText_joins hplan 0)) ?_) (sameText_whereAll ?_)
    · split
      · exact .nil
      · exact .cons (.text _) .nil
    · refine List.rel_append (sameText_comparisons hplan) ?_
      split
      · exact .nil
      · exact sameText_gameComparisons (GameFilter.conditions_alike hfilter)

end

theorem sameText_paged (column : String) (w v : Window) : SameText (paged column w) (paged column v) :=
  .cons (.text _) (.cons (.value _ _) (.cons (.text _) (.cons (.value _ _) .nil)))

end Statement

/-! ### Values -/

namespace Param

theorem square_inj {s t : Square} : int s.val = int t.val ↔ s = t := by
  rw [int.injEq, Int.natCast_inj, Fin.val_inj]

theorem piece_inj {p q : Piece} :
    text (String.singleton p.symbol) = text (String.singleton q.symbol) ↔ p = q := by
  rw [text.injEq, String.singleton_inj]
  exact ⟨Piece.symbol_injective, congrArg Piece.symbol⟩

theorem color_inj {c d : Color} :
    text (String.singleton c.letter) = text (String.singleton d.letter) ↔ c = d := by
  rw [text.injEq, String.singleton_inj]
  exact ⟨Color.letter_injective, congrArg Color.letter⟩

theorem word_inj {v w : UInt64} : int v.toInt64.toInt = int w.toInt64.toInt ↔ v = w := by
  rw [int.injEq, Int64.toInt_inj]
  constructor
  · intro h
    rw [← v.toUInt64_toInt64, h, w.toUInt64_toInt64]
  · exact congrArg UInt64.toInt64

end Param

namespace Condition

/-- The values in the join of a look-up: the square and the letters of the pieces. -/
def joinValues : Condition → List Param
  | .lookup s allowed => .int s.val :: allowed.toList.map fun p => .text (String.singleton p.symbol)
  | _ => []

/-- The value that a condition is compared with if it needs no join. -/
def comparisonValues : Condition → List Param
  | .lookup _ _ => []
  | .fingerprint v => [.int v.toInt64.toInt]
  | .material s => [.text s]
  | .side c => [.text (String.singleton c.letter)]

end Condition

def GameCondition.values : GameCondition → List Param
  | .white t | .black t | .opening t => [.text (Like.containing t)]
  | .player t => [.text (Like.containing t), .text (Like.containing t)]
  | .eco v | .result v | .dateFrom v | .dateTo v => [.text v]
  | .minElo n | .maxElo n => [.int n, .int n]

/-- A page as it is bound. -/
def Window.values (w : Window) : List Param := [.int w.limit, .int (min w.offset Statement.maxOffset)]

namespace Statement

@[simp] theorem params_nil : params ⟨[]⟩ = [] := rfl

@[simp] theorem params_text (t : String) (xs : List Fragment) : params ⟨.text t :: xs⟩ = params ⟨xs⟩ := rfl

@[simp] theorem params_value (p : Param) (xs : List Fragment) :
    params ⟨.value p :: xs⟩ = p :: params ⟨xs⟩ := rfl

@[simp] theorem params_append (xs ys : List Fragment) : params ⟨xs ++ ys⟩ = params ⟨xs⟩ ++ params ⟨ys⟩ :=
  List.filterMap_append

theorem params_intercalate {sep : List Fragment} (hsep : params ⟨sep⟩ = []) (xs : List (List Fragment)) :
    params ⟨sep.intercalate xs⟩ = xs.flatMap fun x => params ⟨x⟩ := by
  induction xs with
  | nil => rfl
  | cons x xs ih =>
    cases xs with
    | nil => simp
    | cons y ys =>
      rw [List.intercalate_cons_cons, params_append, params_append, hsep, List.append_nil, ih]
      rfl

@[simp] theorem params_values (ps : List Param) : params ⟨values ps⟩ = ps := by
  rw [values, params_intercalate rfl, List.flatMap_map]
  exact List.flatMap_pure_eq_map id ps |>.trans (List.map_id ps)

theorem params_joins (cs : List Condition) (k : Nat) :
    params ⟨joins (cs.zipIdx k)⟩ = cs.flatMap Condition.joinValues := by
  induction cs generalizing k with
  | nil => rfl
  | cons c cs ih =>
    rw [List.zipIdx_cons, joins, List.flatMap_cons, params_append, List.flatMap_cons, ← ih (k + 1), joins]
    congr 1
    cases c <;> simp [joinOf, Condition.joinValues]

theorem params_whereAll (xs : List (List Fragment)) :
    params ⟨whereAll xs⟩ = xs.flatMap fun x => params ⟨x⟩ := by
  unfold whereAll
  split
  · rename_i hnone
    rw [hnone]
    rfl
  · rw [params_text, params_intercalate rfl]

theorem params_comparisons (cs : List Condition) :
    ((cs.filterMap comparison?).flatMap fun x => params ⟨x⟩) = cs.flatMap Condition.comparisonValues := by
  induction cs with
  | nil => rfl
  | cons c cs ih =>
    rw [List.flatMap_cons, List.filterMap_cons]
    cases c <;> simpa [comparison?, Condition.comparisonValues] using ih

theorem params_gameComparisons (cs : List GameCondition) :
    ((cs.map gameComparison).flatMap fun x => params ⟨x⟩) = cs.flatMap GameCondition.values := by
  rw [List.flatMap_map]
  refine List.flatMap_congr fun c _ => ?_
  cases c <;> rfl

theorem params_candidates (p : Plan) (f : GameFilter) :
    params ⟨candidates p f⟩ = if p.isNothing then [] else
      p.conditions.flatMap Condition.joinValues ++
        (p.conditions.flatMap Condition.comparisonValues ++ f.conditions.flatMap GameCondition.values) := by
  unfold candidates
  split
  · rfl
  · cases hempty : f.isEmpty with
    | true =>
      simp [params_joins, params_whereAll, params_comparisons, GameFilter.conditions_of_isEmpty hempty]
    | false =>
      simp [params_joins, params_whereAll, params_comparisons, params_gameComparisons]

theorem params_games (p : Plan) (f : GameFilter) (w : Window) :
    (ofPlan p f w).games.params = params ⟨candidates p f⟩ ++ w.values := by
  simp only [ofPlan, params_append, params_text]
  rfl

theorem params_filteredCount (f : GameFilter) (w : Window) :
    (ofFilter f w).count.params = f.conditions.flatMap GameCondition.values := by
  rw [ofFilter, params_text, params_whereAll, params_gameComparisons]

theorem params_filtered (f : GameFilter) (w : Window) :
    (ofFilter f w).games.params = f.conditions.flatMap GameCondition.values ++ w.values := by
  rw [← params_filteredCount f w]
  simp only [ofFilter, params_append, params_text]
  rfl

theorem params_positionsIn (p : Plan) (ids : List Id) :
    (positionsIn p ids).params = params ⟨candidates p .empty⟩ ++ ids.map .int := by
  simp only [positionsIn, params_append, params_text, params_values, params_nil, List.append_nil]

end Statement

/-! ### Equal values -/

section
variable {α β : Type} {R : α → α → Prop} {F : α → List β} {xs ys : List α}
  (hlength : ∀ a b, R a b → (F a).length = (F b).length)
include hlength

theorem length_flatMap_congr (h : List.Forall₂ R xs ys) : (xs.flatMap F).length = (ys.flatMap F).length := by
  induction h with
  | nil => rfl
  | cons hxy _ ih =>
    rw [List.flatMap_cons, List.flatMap_cons, List.length_append, List.length_append, ih, hlength _ _ hxy]

theorem forall₂_of_flatMap_eq (h : List.Forall₂ R xs ys) (heq : xs.flatMap F = ys.flatMap F) :
    List.Forall₂ (fun a b => R a b ∧ F a = F b) xs ys := by
  induction h with
  | nil => exact .nil
  | cons hxy _ ih =>
    obtain ⟨hhead, htail⟩ := List.append_inj heq (hlength _ _ hxy)
    exact .cons ⟨hxy, hhead⟩ (ih htail)

end

theorem eq_of_forall₂ {α : Type} {R : α → α → Prop} {xs ys : List α} (himp : ∀ a b, R a b → a = b)
    (h : List.Forall₂ R xs ys) : xs = ys :=
  List.forall₂_eq_eq_eq ▸ h.imp himp

namespace Condition
variable {c d : Condition}

theorem Alike.length_joinValues (c d : Condition) (h : c.Alike d) : c.joinValues.length = d.joinValues.length := by
  cases h with
  | lookup hsize => simpa [joinValues, PieceSet.size] using hsize
  | fingerprint => rfl
  | material => rfl
  | side => rfl

theorem Alike.length_comparisonValues (c d : Condition) (h : c.Alike d) :
    c.comparisonValues.length = d.comparisonValues.length := by
  cases h <;> simp only [comparisonValues, List.length_cons]

theorem Alike.eq_of_values (h : c.Alike d) (hjoin : c.joinValues = d.joinValues)
    (hcomparison : c.comparisonValues = d.comparisonValues) : c = d := by
  cases h with
  | @lookup s t allowed other _ =>
    obtain ⟨hsquare, hletters⟩ := List.cons.inj hjoin
    have hs : s = t := Param.square_inj.mp hsquare
    have hallowed : allowed = other :=
      PieceSet.toList_injective ((List.map_inj_right fun _ _ => Param.piece_inj.mp).mp hletters)
    rw [hs, hallowed]
  | fingerprint =>
    rw [Param.word_inj.mp (List.head_eq_of_cons_eq hcomparison)]
  | material =>
    rw [Param.text.inj (List.head_eq_of_cons_eq hcomparison)]
  | side =>
    rw [Param.color_inj.mp (List.head_eq_of_cons_eq hcomparison)]

end Condition

namespace GameCondition
variable {c d : GameCondition}

theorem Alike.length_values (c d : GameCondition) (h : c.Alike d) : c.values.length = d.values.length := by
  cases h <;> simp only [values, List.length_cons]

theorem Alike.eq_of_values (h : c.Alike d) (hvalues : c.values = d.values) : c = d := by
  cases h with
  | white | black | opening | player =>
    rw [Like.containing_injective (Param.text.inj (List.head_eq_of_cons_eq hvalues))]
  | eco | result | dateFrom | dateTo =>
    rw [Param.text.inj (List.head_eq_of_cons_eq hvalues)]
  | minElo | maxElo =>
    rw [Int.ofNat.inj (Param.int.inj (List.head_eq_of_cons_eq hvalues))]

end GameCondition

namespace Statement
variable {p q : Plan} {f g : GameFilter}

-- The joins of a plan bind their values first, so two passes over the conditions are needed: one for the values of the
-- joins, and one for those of the comparisons.
theorem conditions_eq_of_values {cs ds : List Condition} (h : List.Forall₂ Condition.Alike cs ds)
    (hjoin : cs.flatMap Condition.joinValues = ds.flatMap Condition.joinValues)
    (hcomparison : cs.flatMap Condition.comparisonValues = ds.flatMap Condition.comparisonValues) : cs = ds := by
  have hjoins := forall₂_of_flatMap_eq Condition.Alike.length_joinValues h hjoin
  have hboth := forall₂_of_flatMap_eq (fun _ _ h => Condition.Alike.length_comparisonValues _ _ h.1) hjoins
    hcomparison
  exact eq_of_forall₂ (fun _ _ ⟨⟨halike, hj⟩, hc⟩ => halike.eq_of_values hj hc) hboth

theorem gameConditions_eq_of_values {cs ds : List GameCondition} (h : List.Forall₂ GameCondition.Alike cs ds)
    (hvalues : cs.flatMap GameCondition.values = ds.flatMap GameCondition.values) : cs = ds := by
  have hboth := forall₂_of_flatMap_eq GameCondition.Alike.length_values h hvalues
  exact eq_of_forall₂ (fun _ _ ⟨halike, hv⟩ => halike.eq_of_values hv) hboth

theorem append_window_eq_iff {is js : List Param} {w v : Window} (hlength : is.length = js.length) :
    is ++ w.values = js ++ v.values ↔
      is = js ∧ w.limit = v.limit ∧ min w.offset maxOffset = min v.offset maxOffset := by
  have hwindow : w.values = v.values ↔ w.limit = v.limit ∧ min w.offset maxOffset = min v.offset maxOffset := by
    simp only [Window.values, List.cons.injEq, Param.int.injEq, and_true]
    omega
  rw [← hwindow]
  constructor
  · exact fun h => List.append_inj h hlength
  · rintro ⟨hvalues, hpage⟩
    rw [hvalues, hpage]

theorem gameValues_eq_iff (h : f.given = g.given) :
    f.conditions.flatMap GameCondition.values = g.conditions.flatMap GameCondition.values ↔
      f.conditions = g.conditions :=
  ⟨gameConditions_eq_of_values (GameFilter.conditions_alike h), fun h => by rw [h]⟩

section
variable (hplan : List.Forall₂ Condition.Alike p.conditions q.conditions) (hfilter : f.given = g.given)
include hplan hfilter

theorem length_params_candidates : (params ⟨candidates p f⟩).length = (params ⟨candidates q g⟩).length := by
  rw [params_candidates, params_candidates, isNothing_congr hplan]
  split
  · rfl
  · simp only [List.length_append,
      length_flatMap_congr Condition.Alike.length_joinValues hplan,
      length_flatMap_congr Condition.Alike.length_comparisonValues hplan,
      length_flatMap_congr GameCondition.Alike.length_values (GameFilter.conditions_alike hfilter)]

theorem params_candidates_eq_iff : params ⟨candidates p f⟩ = params ⟨candidates q g⟩ ↔
    p = q ∧ (p.isNothing = true ∨ f.conditions = g.conditions) := by
  have hsame : p = q ↔ p.conditions = q.conditions := by
    cases p
    cases q
    exact Plan.mk.injEq _ _ ▸ Iff.rfl
  rw [params_candidates, params_candidates, ← isNothing_congr hplan, hsame]
  by_cases hnothing : p.isNothing = true
  · have hp : p.conditions = [] := List.isEmpty_iff.mp hnothing
    have hq : q.conditions = [] := List.isEmpty_iff.mp ((isNothing_congr hplan).symm.trans hnothing)
    simp [hnothing, hp, hq]
  · rw [if_neg hnothing, if_neg hnothing, or_iff_right hnothing]
    constructor
    · intro h
      obtain ⟨hjoin, hrest⟩ := List.append_inj h
        (length_flatMap_congr Condition.Alike.length_joinValues hplan)
      obtain ⟨hcomparison, hgame⟩ := List.append_inj hrest
        (length_flatMap_congr Condition.Alike.length_comparisonValues hplan)
      exact ⟨conditions_eq_of_values hplan hjoin hcomparison,
        gameConditions_eq_of_values (GameFilter.conditions_alike hfilter) hgame⟩
    · rintro ⟨hconditions, hgame⟩
      rw [hconditions, hgame]

end

/-- Of two searches of one shape all texts are equal, and each statement binds the same values only if the searches
    agree in all that the statement depends on. -/
theorem statements_apart_from_values {ids others : List Id} (w v : Window)
    (hplan : List.Forall₂ Condition.Alike p.conditions q.conditions) (hfilter : f.given = g.given)
    (hids : ids.length = others.length) :
    ((ofPlan p f w).games.sql = (ofPlan q g v).games.sql ∧ (ofPlan p f w).count.sql = (ofPlan q g v).count.sql ∧
      (ofFilter f w).games.sql = (ofFilter g v).games.sql ∧ (ofFilter f w).count.sql = (ofFilter g v).count.sql ∧
      (positionsIn p ids).sql = (positionsIn q others).sql) ∧
    ((ofPlan p f w).games.params = (ofPlan q g v).games.params ↔
      (p = q ∧ (p.isNothing = true ∨ f.conditions = g.conditions)) ∧
        w.limit = v.limit ∧ min w.offset maxOffset = min v.offset maxOffset) ∧
    ((ofPlan p f w).count.params = (ofPlan q g v).count.params ↔
      p = q ∧ (p.isNothing = true ∨ f.conditions = g.conditions)) ∧
    ((ofFilter f w).games.params = (ofFilter g v).games.params ↔
      f.conditions = g.conditions ∧ w.limit = v.limit ∧ min w.offset maxOffset = min v.offset maxOffset) ∧
    ((ofFilter f w).count.params = (ofFilter g v).count.params ↔ f.conditions = g.conditions) ∧
    ((positionsIn p ids).params = (positionsIn q others).params ↔ p = q ∧ ids = others) := by
  have hconditions := GameFilter.conditions_alike hfilter
  have hcandidates := sameText_candidates hplan hfilter
  have hwhere := sameText_whereAll (sameText_gameComparisons hconditions)
  have hplace := sameText_candidates hplan (rfl : GameFilter.empty.given = GameFilter.empty.given)
  have hnumbers : SameText (values (ids.map .int)) (values (others.map .int)) := sameText_values (by simpa using hids)
  refine ⟨⟨?_, ?_, ?_, ?_, ?_⟩, ?_, ?_, ?_, ?_, ?_⟩
  · exact SameText.sql (List.rel_append (.cons (.text _) hcandidates) (sameText_paged _ w v))
  · exact SameText.sql (.cons (.text _) hcandidates)
  · exact SameText.sql (List.rel_append (.cons (.text _) hwhere) (sameText_paged _ w v))
  · exact SameText.sql (.cons (.text _) hwhere)
  · exact SameText.sql (List.rel_append (.cons (.text _) (List.rel_append hplace (.cons (.text _) hnumbers)))
      (.cons (.text _) .nil))
  · rw [params_games, params_games, append_window_eq_iff (length_params_candidates hplan hfilter),
      params_candidates_eq_iff hplan hfilter]
  · exact params_candidates_eq_iff hplan hfilter
  · have hlength := length_flatMap_congr GameCondition.Alike.length_values hconditions
    rw [params_filtered, params_filtered, append_window_eq_iff hlength, gameValues_eq_iff hfilter]
  · rw [params_filteredCount, params_filteredCount, gameValues_eq_iff hfilter]
  · have hlength := length_params_candidates hplan (rfl : GameFilter.empty.given = GameFilter.empty.given)
    rw [params_positionsIn, params_positionsIn]
    constructor
    · intro h
      obtain ⟨hvalues, hgames⟩ := List.append_inj h hlength
      exact ⟨((params_candidates_eq_iff hplan rfl).mp hvalues).1,
        (List.map_inj_right fun _ _ => Param.int.inj).mp hgames⟩
    · rintro ⟨hp, hgames⟩
      rw [hp, hgames]

/-- Quotes, question marks and escapes leave the text as it is. -/
theorem statements_apart_from_hostile_values :
    (ofPlan ⟨[.lookup 4 (.single ⟨.white, .king⟩), .material "' OR 1 = 1; --"]⟩
        { GameFilter.empty with white := some "?\\%\"", minElo := some 2000 } ⟨10, 0⟩).games.sql =
      (ofPlan ⟨[.lookup 60 (.single ⟨.black, .king⟩), .material "?"]⟩
        { GameFilter.empty with white := some "Tal", minElo := some 0 } ⟨50, 100⟩).games.sql ∧
    (positionsIn ⟨[.lookup 4 (.single ⟨.white, .king⟩), .material "' OR 1 = 1; --"]⟩ [1, 2]).params ≠
      (positionsIn ⟨[.lookup 60 (.single ⟨.black, .king⟩), .material "?"]⟩ [1, 3]).params := by
  have hids : ([1, 2] : List Id).length = ([1, 3] : List Id).length := rfl
  obtain ⟨⟨hgames, -⟩, -, -, -, -, hpositions⟩ := statements_apart_from_values ⟨10, 0⟩ ⟨50, 100⟩
    (p := ⟨[.lookup 4 (.single ⟨.white, .king⟩), .material "' OR 1 = 1; --"]⟩)
    (q := ⟨[.lookup 60 (.single ⟨.black, .king⟩), .material "?"]⟩)
    (f := { GameFilter.empty with white := some "?\\%\"", minElo := some 2000 })
    (g := { GameFilter.empty with white := some "Tal", minElo := some 0 })
    (.cons (.lookup (by decide)) (.cons .material .nil)) (by decide +kernel) hids
  exact ⟨hgames, fun h => absurd (hpositions.mp h).2 (by decide)⟩

end Statement
end ChessArchive
