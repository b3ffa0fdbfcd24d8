import ChessArchive.Proofs.Query.Statement

/-! Which value goes where. The text of a statement is read from left to right, and each question mark belongs to the
    comparison that it stands in: the column, or LIMIT or OFFSET, and the operator that were read last. Every comparison
    is given its own value, although the values of the joins are collected apart from the others. -/

namespace ChessArchive

/-- A reader of the text of a statement. It has the word that it is in, and the comparison that the next value is for. -/
structure SqlReader where
  word : List Char
  comparison : List Char
  deriving DecidableEq

namespace SqlReader

def start : SqlReader := ⟨[], []⟩

def separators : List Char := [' ', '(', ')', ',']

/-- A character that belongs to a word. -/
def isPlain (c : Char) : Bool := !separators.contains c && c != '?'

/-- The name of a column has a dot. -/
def isOperand (w : List Char) : Bool := w.contains '.' || ["LIMIT".toList, "OFFSET".toList].contains w

def isOperator (w : List Char) : Bool := ["=".toList, ">=".toList, "<=".toList, "LIKE".toList, "IN".toList].contains w

/-- Other words are passed over. -/
def endWord (r : SqlReader) : SqlReader :=
  ⟨[], if isOperand r.word then r.word else if isOperator r.word then r.comparison ++ ' ' :: r.word else r.comparison⟩

def step (r : SqlReader) (c : Char) : SqlReader :=
  if separators.contains c then r.endWord else if c = '?' then r else ⟨r.word ++ [c], r.comparison⟩

def after (r : SqlReader) (cs : List Char) : SqlReader := cs.foldl step r

/-- The comparisons of the question marks, from left to right. -/
def placeholders (r : SqlReader) : List Char → List String
  | [] => []
  | c :: cs => (if c = '?' then [String.ofList r.comparison] else []) ++ placeholders (r.step c) cs

example : start.placeholders "g.date >= ? AND p.game_id IN (?, ?) LIMIT ?".toList =
    ["g.date >=", "p.game_id IN", "p.game_id IN", "LIMIT"] := by decide

variable {r : SqlReader}

theorem after_append (xs ys : List Char) : r.after (xs ++ ys) = (r.after xs).after ys := List.foldl_append

theorem placeholders_append (xs ys : List Char) :
    r.placeholders (xs ++ ys) = r.placeholders xs ++ (r.after xs).placeholders ys := by
  induction xs generalizing r with
  | nil => rfl
  | cons c xs ih =>
    rw [List.cons_append, placeholders, placeholders, ih, List.append_assoc]
    rfl

theorem length_placeholders (cs : List Char) : (r.placeholders cs).length = cs.count '?' := by
  induction cs generalizing r with
  | nil => rfl
  | cons c cs ih =>
    rw [placeholders, List.length_append, ih, List.count_cons, Nat.add_comm]
    by_cases hc : c = '?' <;> simp [hc]

theorem placeholders_mark (cs : List Char) :
    r.placeholders ('?' :: cs) = String.ofList r.comparison :: r.placeholders cs := by
  have hstep : r.step '?' = r := by simp [step, separators]
  rw [placeholders, hstep, if_pos rfl, List.singleton_append]

theorem placeholders_eq_nil {cs : List Char} (h : '?' ∉ cs) : r.placeholders cs = [] := by
  rw [← List.length_eq_zero_iff, length_placeholders, List.count_eq_zero]
  exact h

/-- A word is read to its end. -/
theorem after_word {w : List Char} (h : ∀ c ∈ w, isPlain c = true) (before comparison : List Char) :
    after ⟨before, comparison⟩ w = ⟨before ++ w, comparison⟩ := by
  induction w generalizing before with
  | nil => simp [after]
  | cons c w ih =>
    obtain ⟨hplain, hrest⟩ := List.forall_mem_cons.mp h
    have hstep : step ⟨before, comparison⟩ c = ⟨before ++ [c], comparison⟩ := by
      simp only [isPlain, Bool.and_eq_true, Bool.not_eq_true', bne_iff_ne] at hplain
      simp only [step, hplain.1, Bool.false_eq_true, if_false, if_neg hplain.2]
    have hlater := ih hrest (before ++ [c])
    rw [List.append_assoc] at hlater
    rwa [after, List.foldl_cons, hstep]

/-- Some operand is read to its end. -/
def settles : List Char → List Char → Bool
  | _, [] => false
  | w, c :: cs =>
    if separators.contains c then isOperand w || settles [] cs
    else if c = '?' then settles w cs else settles (w ++ [c]) cs

/-- An operand takes the place of whatever was read before it. -/
theorem after_congr {w cs : List Char} (h : settles w cs = true) (comparison other : List Char) :
    after ⟨w, comparison⟩ cs = after ⟨w, other⟩ cs := by
  -- Up to the end of the operand the two readers are in the same word, and only their comparisons differ.
  induction cs generalizing w comparison other with
  | nil => cases h
  | cons c cs ih =>
    simp only [settles] at h
    simp only [after, List.foldl_cons, step] at ih ⊢
    split at h
    · rename_i hseparator
      rw [if_pos hseparator, if_pos hseparator]
      rcases Bool.or_eq_true_iff.mp h with hoperand | hrest
      · simp only [endWord, if_pos hoperand]
      · exact ih hrest _ _
    · rename_i hseparator
      rw [if_neg hseparator, if_neg hseparator]
      split at h
      · rename_i hmark
        rw [if_pos hmark, if_pos hmark]
        exact ih h _ _
      · rename_i hmark
        rw [if_neg hmark, if_neg hmark]
        exact ih h _ _

theorem after_column {w : List Char} (h : ∀ c ∈ w, isPlain c = true) (hdot : '.' ∈ w) (before cs : List Char) :
    r.after (before ++ ' ' :: (w ++ ' ' :: cs)) = after ⟨[], w⟩ cs := by
  have hblank : (r.after before).after (' ' :: (w ++ ' ' :: cs)) = after (r.after before).endWord (w ++ ' ' :: cs) := rfl
  have hoperand : isOperand w = true := by simp [isOperand, hdot]
  rw [after_append, hblank, after_append, endWord, after_word h, List.nil_append]
  exact congrArg (fun comparison => after ⟨[], comparison⟩ cs) (if_pos hoperand)

end SqlReader

/-! ### Own values -/

namespace Condition

/-- What the join of a look-up is given, as condition number `k` of its plan. -/
def joinBindings (k : Nat) : Condition → List (String × Param)
  | .lookup s allowed => (s!"l{k}.square =", .int s.val) ::
      allowed.toList.map fun p => (s!"l{k}.piece IN", .text (String.singleton p.symbol))
  | _ => []

/-- What the comparison of a condition is given that needs no join. -/
def comparisonBinding? : Condition → Option (String × Param)
  | .lookup _ _ => none
  | .fingerprint v => some ("p.fingerprint =", .int v.toInt64.toInt)
  | .material s => some ("p.material_signature =", .text s)
  | .side c => some ("p.side_to_move =", .text (String.singleton c.letter))

end Condition

/-- What the comparisons of a condition on a game are given. -/
def GameCondition.bindings : GameCondition → List (String × Param)
  | white t => [("g.white LIKE", .text (Like.containing t))]
  | black t => [("g.black LIKE", .text (Like.containing t))]
  | opening t => [("g.opening LIKE", .text (Like.containing t))]
  | player t => [("g.white LIKE", .text (Like.containing t)), ("g.black LIKE", .text (Like.containing t))]
  | eco v => [("g.eco =", .text v)]
  | result v => [("g.result =", .text v)]
  | dateFrom v => [("g.date >=", .text v)]
  | dateTo v => [("g.date <=", .text v)]
  | minElo n => [("g.white_elo >=", .int n), ("g.black_elo >=", .int n)]
  | maxElo n => [("g.white_elo <=", .int n), ("g.black_elo <=", .int n)]

namespace GameFilter

/-- What the comparisons of a filter are given, field by field. -/
def bindings (f : GameFilter) : List (String × Param) :=
  List.flatten [
    (nonBlank f.white).toList.flatMap fun t => [("g.white LIKE", .text (Like.containing t))],
    (nonBlank f.black).toList.flatMap fun t => [("g.black LIKE", .text (Like.containing t))],
    (nonBlank f.opening).toList.flatMap fun t => [("g.opening LIKE", .text (Like.containing t))],
    (nonBlank f.player).toList.flatMap fun t =>
      [("g.white LIKE", .text (Like.containing t)), ("g.black LIKE", .text (Like.containing t))],
    (nonBlank f.eco).toList.flatMap fun v => [("g.eco =", .text v)],
    (nonBlank f.result).toList.flatMap fun v => [("g.result =", .text v)],
    (nonBlank f.dateFrom).toList.flatMap fun v => [("g.date >=", .text v)],
    (nonBlank f.dateTo).toList.flatMap fun v => [("g.date <=", .text v)],
    f.minElo.toList.flatMap fun n : Nat => [("g.white_elo >=", .int n), ("g.black_elo >=", .int n)],
    f.maxElo.toList.flatMap fun n : Nat => [("g.white_elo <=", .int n), ("g.black_elo <=", .int n)]]

theorem flatMap_bindings (f : GameFilter) : f.conditions.flatMap GameCondition.bindings = f.bindings := by
  have hone : ∀ {α : Type} (x : Option α) (F : α → GameCondition),
      (x.map F).toList.flatMap GameCondition.bindings = x.toList.flatMap fun a => (F a).bindings := by
    intro α x F
    cases x <;> rfl
  simp only [conditions, bindings, List.flatMap_append, hone, List.flatten_cons, List.flatten_nil, List.append_nil,
    List.append_assoc]
  rfl

end GameFilter

/-- What a page is given. -/
def Window.bindings (w : Window) : List (String × Param) :=
  [("LIMIT", .int w.limit), ("OFFSET", .int (min w.offset Statement.maxOffset))]

/-- What the statements of a plan are given for the positions and the filter: first the joins, then the comparisons. A
    plan for nothing is given nothing. -/
def Plan.bindings (p : Plan) (f : GameFilter) : List (String × Param) :=
  if p.isNothing then []
  else p.conditions.zipIdx.flatMap (fun e => e.1.joinBindings e.2)
    ++ p.conditions.filterMap Condition.comparisonBinding? ++ f.bindings

namespace Statement

/-- The text of fragments, character by character. -/
def chars (xs : List Fragment) : List Char :=
  xs.flatMap fun
    | .text t => t.toList
    | .value _ => ['?']

theorem toList_sql (xs : List Fragment) : (sql ⟨xs⟩).toList = chars xs := by
  rw [sql, String.toList_join, List.flatMap_map]
  refine List.flatMap_congr fun x _ => ?_
  cases x with
  | text t => rfl
  | value p => exact String.toList_singleton '?'

@[simp] theorem chars_text (t : String) (xs : List Fragment) : chars (.text t :: xs) = t.toList ++ chars xs := rfl

@[simp] theorem chars_value (p : Param) (xs : List Fragment) : chars (.value p :: xs) = '?' :: chars xs := rfl

theorem chars_append (xs ys : List Fragment) : chars (xs ++ ys) = chars xs ++ chars ys := List.flatMap_append

/-- The comparisons of the question marks in the text of a statement, each with the value that it is given. -/
def bindings (s : Statement) : List (String × Param) := (SqlReader.start.placeholders s.sql.toList).zip s.params

/-! ### Reading fragments -/

/-- A reader meets comparisons with their values in some fragments. -/
structure Reads (r : SqlReader) (xs : List Fragment) (bs : List (String × Param)) : Prop where
  placeholders : r.placeholders (chars xs) = bs.map (·.1)
  params : params ⟨xs⟩ = bs.map (·.2)

section
variable {r : SqlReader} {xs ys : List Fragment} {bs cs : List (String × Param)}

theorem Reads.append (h : Reads r xs bs) (k : Reads (r.after (chars xs)) ys cs) : Reads r (xs ++ ys) (bs ++ cs) where
  placeholders := by
    rw [chars_append, SqlReader.placeholders_append, h.placeholders, k.placeholders, List.map_append]
  params := by
    rw [params_append, h.params, k.params, List.map_append]

/-- What a reader meets on a whole statement are its bindings, and then it has as many question marks as values. -/
theorem Reads.bindings {s : Statement} (h : Reads .start s.fragments bs) :
    s.sql.toList.count '?' = s.params.length ∧ s.bindings = bs := by
  obtain ⟨fragments⟩ := s
  rw [Statement.bindings, toList_sql, ← SqlReader.length_placeholders (r := .start), h.placeholders, h.params,
    List.length_map, List.length_map]
  exact ⟨rfl, (List.zip_of_prod rfl rfl).symm⟩

theorem Reads.nil : Reads r [] [] := ⟨rfl, rfl⟩

theorem Reads.skip {t : String} (h : '?' ∉ t.toList) (k : Reads (r.after t.toList) ys cs) :
    Reads r (.text t :: ys) cs where
  placeholders := by
    rw [chars_text, SqlReader.placeholders_append, SqlReader.placeholders_eq_nil h, List.nil_append, k.placeholders]
  params := k.params

theorem Reads.take (p : Param) (k : Reads r ys cs) :
    Reads r (.value p :: ys) ((String.ofList r.comparison, p) :: cs) where
  placeholders := by
    rw [chars_value, SqlReader.placeholders_mark, k.placeholders, List.map_cons]
  params := by
    rw [params_value, k.params, List.map_cons]

/-- A text leads up to a comparison with a value. -/
theorem Reads.lead {t c : String} (h : '?' ∉ t.toList) (hlead : r.after t.toList = ⟨[], c.toList⟩) (p : Param)
    (k : Reads ⟨[], c.toList⟩ ys cs) : Reads r (.text t :: .value p :: ys) ((c, p) :: cs) := by
  have htake := k.take p
  rw [String.ofList_toList] at htake
  exact .skip h (hlead ▸ htake)

/-- Values between commas all belong to the comparison that they come after. -/
theorem Reads.values {c : String} (h : Reads ⟨[], c.toList⟩ ys cs) (ps : List Param) :
    Reads ⟨[], c.toList⟩ (values ps ++ ys) (ps.map (fun p => (c, p)) ++ cs) := by
  induction ps with
  | nil => exact h
  | cons p ps ih =>
    cases ps with
    | nil =>
      have htake := h.take p
      rwa [String.ofList_toList] at htake
    | cons q ps =>
      have hvalues : Statement.values (p :: q :: ps) ++ ys =
          .value p :: .text ", " :: (Statement.values (q :: ps) ++ ys) := by
        simp [Statement.values, List.intercalate_cons_cons]
      have hcomma : Reads ⟨[], c.toList⟩ (.text ", " :: (Statement.values (q :: ps) ++ ys)) _ := .skip (by decide) ih
      have htake := hcomma.take p
      rw [String.ofList_toList] at htake
      rw [hvalues]
      exact htake

/-- A comparison is read alike wherever it begins a word, whatever stands before it. -/
def ReadsAfresh (xs : List Fragment) (bs : List (String × Param)) : Prop := ∀ r : SqlReader, r.word = [] → Reads r xs bs

theorem ReadsAfresh.after_blank {t : String} (h : ReadsAfresh xs bs) (before : List Char)
    (ht : t.toList = before ++ [' ']) (hmark : '?' ∉ t.toList) : Reads r (.text t :: xs) bs := by
  refine .skip hmark ?_
  rw [ht, SqlReader.after_append]
  exact h _ rfl

theorem ReadsAfresh.intercalate {xss : List (List Fragment)} {bss : List (List (String × Param))}
    (h : List.Forall₂ ReadsAfresh xss bss) : ReadsAfresh ([Fragment.text " AND "].intercalate xss) bss.flatten := by
  induction h with
  | nil => exact fun _ _ => .nil
  | cons hx hrest ih =>
    intro r hr
    cases hrest with
    | nil => simpa using hx r hr
    | cons _ _ =>
      rw [List.intercalate_cons_cons, List.flatten_cons, List.append_assoc]
      exact (hx r hr).append (ih.after_blank " AND".toList rfl (by decide))

theorem Reads.whereAll {xss : List (List Fragment)} {bss : List (List (String × Param))}
    (h : List.Forall₂ ReadsAfresh xss bss) (hbs : bss.flatten = bs) : Reads r (whereAll xss) bs := by
  subst hbs
  unfold Statement.whereAll
  split
  · rename_i hnone
    subst hnone
    cases h
    exact .skip (by decide) .nil
  · exact (ReadsAfresh.intercalate h).after_blank " WHERE".toList rfl (by decide)

/-- A text leads up to a comparison, whatever comparison it stands after. -/
def Leads (t c : String) : Prop :=
  '?' ∉ t.toList ∧ SqlReader.settles [] t.toList = true ∧ SqlReader.start.after t.toList = ⟨[], c.toList⟩

instance (t c : String) : Decidable (Leads t c) := inferInstanceAs (Decidable (_ ∧ _ ∧ _))

theorem Leads.after {t c : String} (h : Leads t c) (hr : r.word = []) : r.after t.toList = ⟨[], c.toList⟩ := by
  obtain ⟨word, comparison⟩ := r
  subst hr
  exact (SqlReader.after_congr h.2.1 comparison []).trans h.2.2

theorem Leads.reads {t c : String} (h : Leads t c) (hr : r.word = []) (p : Param) (k : Reads ⟨[], c.toList⟩ ys cs) :
    Reads r (.text t :: .value p :: ys) ((c, p) :: cs) :=
  .lead h.1 (h.after hr) p k

theorem Leads.readsAfresh {t c : String} (h : Leads t c) (p : Param) : ReadsAfresh [.text t, .value p] [(c, p)] :=
  fun _ hr => h.reads hr p .nil

theorem readsAfresh_like {column c : String} (h : Leads s!"g.{column} LIKE " c) (term : String) :
    ReadsAfresh (likeOn column term) [(c, .text (Like.containing term))] :=
  fun _ hr => h.reads hr _ (.skip (by decide) .nil)

/-- Two comparisons with one value, between brackets. -/
theorem readsAfresh_pair {t t' c c' : String} (h : Leads t c) (h' : Leads t' c') (p : Param) :
    ReadsAfresh [.text t, .value p, .text t', .value p, .text ")"] [(c, p), (c', p)] := by
  intro r hr
  exact h.reads hr p (h'.reads rfl p (.skip (by decide) .nil))

theorem readsAfresh_comparisons (cs : List Condition) :
    List.Forall₂ ReadsAfresh (cs.filterMap comparison?) ((cs.filterMap Condition.comparisonBinding?).map ([·])) := by
  induction cs with
  | nil => exact .nil
  | cons c cs ih =>
    cases c with
    | lookup => exact ih
    | fingerprint v => exact .cons (Leads.readsAfresh (by decide) _) ih
    | material m => exact .cons (Leads.readsAfresh (by decide) _) ih
    | side d => exact .cons (Leads.readsAfresh (by decide) _) ih

theorem readsAfresh_game (c : GameCondition) : ReadsAfresh (gameComparison c) c.bindings := by
  cases c with
  | white t => exact readsAfresh_like (by decide) t
  | black t => exact readsAfresh_like (by decide) t
  | opening t => exact readsAfresh_like (by decide) t
  | player t =>
    have hwhite : ReadsAfresh (likeOn "white" t) _ := readsAfresh_like (c := "g.white LIKE") (by decide) t
    have hblack : ReadsAfresh (likeOn "black" t) _ := readsAfresh_like (c := "g.black LIKE") (by decide) t
    intro r hr
    have hfirst : Reads r (.text "(" :: likeOn "white" t) _ := .skip (by decide) (hwhite _ rfl)
    exact (hfirst.append (hblack.after_blank " OR".toList rfl (by decide))).append (.skip (by decide) .nil)
  | eco v => exact Leads.readsAfresh (by decide) _
  | result v => exact Leads.readsAfresh (by decide) _
  | dateFrom v => exact Leads.readsAfresh (by decide) _
  | dateTo v => exact Leads.readsAfresh (by decide) _
  | minElo n => exact readsAfresh_pair (by decide) (by decide) _
  | maxElo n => exact readsAfresh_pair (by decide) (by decide) _

/-- A blank ends whatever word the reader is in. -/
theorem Reads.of_blank {t : String} {rest : List Char} (ht : t.toList = ' ' :: rest)
    (h : ReadsAfresh (.text t :: ys) bs) : Reads r (.text t :: ys) bs where
  placeholders := by
    have hread := (h r.endWord rfl).placeholders
    rw [chars_text, ht] at hread ⊢
    exact hread
  params := (h .start rfl).params

theorem Reads.paged {column : String} (h : Leads s!" ORDER BY {column} DESC LIMIT " "LIMIT") (w : Window) :
    Reads r (paged column w) w.bindings := by
  have hoffset : Leads " OFFSET " "OFFSET" := by decide
  have hblank : s!" ORDER BY {column} DESC LIMIT ".toList =
      ' ' :: ("ORDER BY ".toList ++ column.toList ++ " DESC LIMIT ".toList) := by
    simp only [String.toList_append]
    rfl
  exact .of_blank hblank fun _ hr => h.reads hr _ (hoffset.reads rfl _ .nil)

/-! ### Joins -/

/-- The column of the join of condition number `k`. -/
def aliased (k : Nat) (column : String) : List Char := 'l' :: (Nat.toDigits 10 k ++ '.' :: column.toList)

theorem isPlain_digit {c : Char} {k : Nat} (h : c ∈ Nat.toDigits 10 k) : SqlReader.isPlain c = true := by
  have hdigit : c.isDigit = true := Nat.isDigit_of_mem_toDigits (by decide) (by decide) h
  have hother : ∀ d ∈ '?' :: SqlReader.separators, c ≠ d := by
    rintro d hd rfl
    simp only [SqlReader.separators, List.mem_cons, List.not_mem_nil, or_false] at hd
    rcases hd with rfl | rfl | rfl | rfl | rfl <;> cases hdigit
  simp only [List.forall_mem_cons] at hother
  simpa [SqlReader.isPlain, hother.1] using fun hc => hother.2 c hc rfl

theorem isPlain_aliased {column : String} (h : column.toList.all SqlReader.isPlain = true) (k : Nat) :
    ∀ c ∈ aliased k column, SqlReader.isPlain c = true := by
  intro c hc
  rcases List.mem_cons.mp hc with rfl | hc
  · decide
  · rcases List.mem_append.mp hc with hdigit | hc
    · exact isPlain_digit hdigit
    · rcases List.mem_cons.mp hc with rfl | hc
      · decide
      · exact List.all_eq_true.mp h c hc

/-- A text that ends in the column of a join and an operator leads up to that comparison. -/
theorem after_aliased {column t c : String} {before operator : List Char} {k : Nat}
    (ht : t.toList = before ++ ' ' :: (aliased k column ++ ' ' :: operator))
    (hc : SqlReader.after ⟨[], aliased k column⟩ operator = ⟨[], c.toList⟩)
    (hplain : column.toList.all SqlReader.isPlain = true) (hbefore : '?' ∉ before)
    (hoperator : '?' ∉ operator) : '?' ∉ t.toList ∧ r.after t.toList = ⟨[], c.toList⟩ := by
  have haliased := isPlain_aliased hplain k
  have hmark : '?' ∉ aliased k column := fun hmem => absurd (haliased _ hmem) (by decide)
  constructor
  · simp [ht, hbefore, hmark, hoperator]
  · rw [ht, SqlReader.after_column haliased (by simp [aliased]), hc]

theorem after_square (k : Nat) :
    '?' ∉ s!" JOIN piece_locations l{k} ON l{k}.position_id = p.id AND l{k}.square = ".toList ∧
      r.after s!" JOIN piece_locations l{k} ON l{k}.position_id = p.id AND l{k}.square = ".toList =
        ⟨[], s!"l{k}.square =".toList⟩ := by
  have hdigits : '?' ∉ Nat.toDigits 10 k := fun hmem => absurd (isPlain_digit hmem) (by decide)
  have hc : s!"l{k}.square =".toList = aliased k "square" ++ " =".toList := by simp [aliased, ToString.toString]
  have ht : s!" JOIN piece_locations l{k} ON l{k}.position_id = p.id AND l{k}.square = ".toList =
      (" JOIN piece_locations l".toList ++ (Nat.toDigits 10 k ++ (" ON l".toList ++ (Nat.toDigits 10 k ++
        ".position_id = p.id AND".toList)))) ++ ' ' :: (aliased k "square" ++ ' ' :: "= ".toList) := by
    simp [aliased, ToString.toString]
  refine after_aliased ht (hc ▸ rfl) (by decide) ?_ (by decide)
  simp [hdigits]

theorem after_piece (k : Nat) : '?' ∉ s!" AND l{k}.piece IN (".toList ∧
    r.after s!" AND l{k}.piece IN (".toList = ⟨[], s!"l{k}.piece IN".toList⟩ := by
  have hc : s!"l{k}.piece IN".toList = aliased k "piece" ++ " IN".toList := by simp [aliased, ToString.toString]
  have ht : s!" AND l{k}.piece IN (".toList = " AND".toList ++ ' ' :: (aliased k "piece" ++ ' ' :: "IN (".toList) := by
    simp [aliased, ToString.toString]
  exact after_aliased ht (hc ▸ rfl) (by decide) (by decide) (by decide)

theorem reads_join (k : Nat) (s : Square) (allowed : PieceSet) (h : ∀ r, Reads r ys cs) :
    Reads r (joinOf k s allowed ++ ys) ((Condition.lookup s allowed).joinBindings k ++ cs) := by
  obtain ⟨hmark, hsquare⟩ := after_square (r := r) k
  obtain ⟨hmark', hpiece⟩ := after_piece (r := ⟨[], s!"l{k}.square =".toList⟩) k
  have hend : Reads ⟨[], s!"l{k}.piece IN".toList⟩ (.text ")" :: ys) cs := .skip (by decide) (h _)
  have hletters := hend.values (allowed.toList.map fun p => .text (String.singleton p.symbol))
  have hjoin := Reads.lead hmark hsquare (.int s.val) (.skip hmark' (hpiece ▸ hletters))
  simpa [joinOf, Condition.joinBindings, Function.comp_def] using hjoin

theorem reads_joins (conditions : List Condition) (k : Nat) (h : ∀ r, Reads r ys cs) :
    Reads r (joins (conditions.zipIdx k) ++ ys)
      ((conditions.zipIdx k).flatMap (fun e => e.1.joinBindings e.2) ++ cs) := by
  -- A condition without a join takes a number all the same.
  induction conditions generalizing r k with
  | nil => exact h r
  | cons c conditions ih =>
    rw [List.zipIdx_cons, joins, List.flatMap_cons, List.flatMap_cons, List.append_assoc, List.append_assoc]
    cases c with
    | lookup s allowed => exact reads_join k s allowed fun r => ih (k + 1)
    | fingerprint => exact ih (k + 1)
    | material => exact ih (k + 1)
    | side => exact ih (k + 1)

/-! ### Whole statements -/

theorem readsAfresh_games (conditions : List GameCondition) :
    List.Forall₂ ReadsAfresh (conditions.map gameComparison) (conditions.map GameCondition.bindings) := by
  rw [List.forall₂_map_left_iff, List.forall₂_map_right_iff, List.forall₂_same]
  exact fun c _ => readsAfresh_game c

theorem reads_candidates (p : Plan) (f : GameFilter) : Reads r (candidates p f) (p.bindings f) := by
  have hcomparisons := readsAfresh_comparisons p.conditions
  have hself : ((p.conditions.filterMap Condition.comparisonBinding?).map ([·])).flatten =
      p.conditions.filterMap Condition.comparisonBinding? := by
    rw [← List.flatMap_def, List.flatMap_singleton']
  unfold candidates Plan.bindings
  split
  · exact .skip (by decide) .nil
  · rw [List.append_assoc, List.cons_append, List.append_assoc]
    refine .skip (by decide) (reads_joins p.conditions 0 fun r => ?_)
    cases hempty : f.isEmpty with
    | true =>
      have hnone : f.bindings = [] := by
        rw [← f.flatMap_bindings, GameFilter.conditions_of_isEmpty hempty, List.flatMap_nil]
      rw [hnone, List.append_nil]
      exact Reads.whereAll (by simpa using hcomparisons) hself
    | false =>
      refine .skip (by decide) (Reads.whereAll (List.rel_append hcomparisons (readsAfresh_games f.conditions)) ?_)
      rw [List.flatten_append, hself, ← List.flatMap_def, f.flatMap_bindings]

theorem reads_filter (f : GameFilter) : Reads r (whereAll (f.conditions.map gameComparison)) f.bindings :=
  .whereAll (readsAfresh_games f.conditions) (by rw [← List.flatMap_def, f.flatMap_bindings])

theorem reads_ids {rest : List Fragment} (h : Reads ⟨[], "p.game_id IN".toList⟩ rest []) (ids : List Id) :
    Reads r (Fragment.text " AND p.game_id IN (" :: (values (ids.map Param.int) ++ rest))
      (ids.map fun id => ("p.game_id IN", Param.int id)) := by
  have hlead : Leads " AND p.game_id IN (" "p.game_id IN" := by decide
  have hids := h.values (ids.map Param.int)
  rw [List.append_nil, List.map_map] at hids
  exact .of_blank rfl fun r hr => .skip hlead.1 (hlead.after hr ▸ hids)

/-- Every statement has as many question marks as values, and read from left to right the comparisons get the values that
    are theirs. A look-up is numbered by its place among the conditions, and so is its join. -/
theorem statements_bind (p : Plan) (f : GameFilter) (w : Window) (ids : List Id) :
    (∀ s ∈ [(ofPlan p f w).games, (ofPlan p f w).count, (ofFilter f w).games, (ofFilter f w).count, positionsIn p ids],
      s.sql.toList.count '?' = s.params.length) ∧
    (ofPlan p f w).games.bindings = p.bindings f ++ w.bindings ∧
    (ofPlan p f w).count.bindings = p.bindings f ∧
    (ofFilter f w).games.bindings = f.bindings ++ w.bindings ∧
    (ofFilter f w).count.bindings = f.bindings ∧
    (positionsIn p ids).bindings = p.bindings .empty ++ ids.map fun id => ("p.game_id IN", Param.int id) := by
  have hgames : Reads .start (ofPlan p f w).games.fragments (p.bindings f ++ w.bindings) :=
    .skip (by decide) ((reads_candidates p f).append (.paged (by decide) w))
  have hcount : Reads .start (ofPlan p f w).count.fragments (p.bindings f) := .skip (by decide) (reads_candidates p f)
  have hfiltered : Reads .start (ofFilter f w).games.fragments (f.bindings ++ w.bindings) :=
    .skip (by decide) ((reads_filter f).append (.paged (by decide) w))
  have hfilteredCount : Reads .start (ofFilter f w).count.fragments f.bindings := .skip (by decide) (reads_filter f)
  have hpositions : Reads .start (positionsIn p ids).fragments
      (p.bindings .empty ++ ids.map fun id => ("p.game_id IN", Param.int id)) := by
    simp only [positionsIn, List.cons_append, List.append_assoc]
    exact .skip (by decide) ((reads_candidates p .empty).append (reads_ids (.skip (by decide) .nil) ids))
  refine ⟨?_, hgames.bindings.2, hcount.bindings.2, hfiltered.bindings.2, hfilteredCount.bindings.2,
    hpositions.bindings.2⟩
  simp only [List.forall_mem_cons]
  exact ⟨hgames.bindings.1, hcount.bindings.1, hfiltered.bindings.1, hfilteredCount.bindings.1, hpositions.bindings.1,
    List.forall_mem_nil _⟩

end
end Statement
end ChessArchive
