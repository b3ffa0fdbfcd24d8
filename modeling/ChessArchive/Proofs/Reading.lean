import Mathlib.Data.List.Forall2

/-! Readers that may fail: what it takes for a chain of them, or for one run over a list, to succeed. -/

namespace ChessArchive

section
variable {ε δ α β : Type} {x : Except ε α} {a b : α} {c : β}

theorem bind_ok_iff {f : α → Except ε β} : x >>= f = .ok c ↔ ∃ a, x = .ok a ∧ f a = .ok c := by
  cases x <;> simp [bind, Except.bind]

theorem bind_error_iff {f : α → Except ε β} {e : ε} :
    x >>= f = .error e ↔ x = .error e ∨ ∃ a, x = .ok a ∧ f a = .error e := by
  cases x <;> simp [bind, Except.bind]

theorem pure_ne_error {e : ε} : (pure a : Except ε α) ≠ .error e := nofun

theorem map_ok_iff {f : α → β} : f <$> x = .ok c ↔ ∃ a, x = .ok a ∧ f a = c := by
  cases x <;> simp [Functor.map, Except.map]

theorem mapError_ok_iff {f : ε → δ} : x.mapError f = .ok a ↔ x = .ok a := by
  cases x <;> simp [Except.mapError]

theorem pure_ok_iff : (pure a : Except ε α) = .ok b ↔ a = b := by
  simp [pure, Except.pure]

theorem exists_ok_of_all {p : α → Prop} [DecidablePred p] (h : x.toOption.any (p ·) = true) :
    ∃ a, x = .ok a ∧ p a := by
  cases x with
  | ok a => exact ⟨a, rfl, by simpa [Except.toOption] using h⟩
  | error _ => simp [Except.toOption] at h

end

/-- A run over a list succeeds when it does so at every entry. -/
theorem mapM_ok_iff {ε α β : Type} {f : α → Except ε β} {xs : List α} {ys : List β} :
    xs.mapM f = .ok ys ↔ List.Forall₂ (fun x y => f x = .ok y) xs ys := by
  induction xs generalizing ys with
  | nil => cases ys <;> simp [pure_ok_iff]
  | cons x xs ih =>
    simp only [List.mapM_cons, bind_ok_iff, pure_ok_iff, List.forall₂_cons_left_iff]
    constructor
    · rintro ⟨y, hy, zs, hzs, rfl⟩
      exact ⟨y, zs, hy, ih.mp hzs, rfl⟩
    · rintro ⟨y, zs, hy, hzs, rfl⟩
      exact ⟨y, hy, zs, ih.mpr hzs, rfl⟩

/-- A run over a list fails where its first failing entry does. -/
theorem mapM_error_iff {ε α β : Type} {f : α → Except ε β} {xs : List α} {e : ε} :
    xs.mapM f = .error e ↔
      ∃ i x, xs[i]? = some x ∧ (∀ y ∈ xs.take i, ∃ b, f y = .ok b) ∧ f x = .error e := by
  induction xs with
  | nil => simp [pure, Except.pure]
  | cons x xs ih =>
    simp only [List.mapM_cons, bind_error_iff, pure_ne_error, and_false, exists_false, or_false, ih]
    constructor
    · rintro (hx | ⟨b, hx, i, y, hy, hbefore, hfails⟩)
      · exact ⟨0, x, rfl, nofun, hx⟩
      · exact ⟨i + 1, y, hy, List.forall_mem_cons.mpr ⟨⟨b, hx⟩, hbefore⟩, hfails⟩
    · rintro ⟨i, y, hy, hbefore, hfails⟩
      cases i with
      | zero =>
        cases hy
        exact Or.inl hfails
      | succ i =>
        obtain ⟨⟨b, hx⟩, hbefore⟩ := List.forall_mem_cons.mp hbefore
        exact Or.inr ⟨b, hx, i, y, hy, hbefore, hfails⟩

/-- A run over a list that succeeds does so at every entry. -/
theorem isSome_of_mapM {α β : Type} {f : α → Option β} {xs : List α} {ys : List β} (h : xs.mapM f = some ys) :
    ∀ x ∈ xs, (f x).isSome := by
  induction xs generalizing ys with
  | nil => exact nofun
  | cons x xs ih =>
    rw [List.mapM_cons] at h
    obtain ⟨y, hy, h⟩ := Option.bind_eq_some_iff.mp h
    obtain ⟨zs, hzs, -⟩ := Option.bind_eq_some_iff.mp h
    exact List.forall_mem_cons.mpr ⟨Option.isSome_of_eq_some hy, ih hzs⟩

/-- What a run over a list yields comes from entries of the list. -/
theorem exists_of_mem_right {α β : Type} {R : α → β → Prop} {xs : List α} {ys : List β} (h : List.Forall₂ R xs ys) :
    ∀ y ∈ ys, ∃ x ∈ xs, R x y := by
  induction h with
  | nil => simp
  | @cons x y xs ys hxy _ ih =>
    intro z hz
    rcases List.mem_cons.mp hz with rfl | hz
    · exact ⟨x, List.mem_cons_self, hxy⟩
    · obtain ⟨x', hx', hxz⟩ := ih z hz
      exact ⟨x', List.mem_cons_of_mem _ hx', hxz⟩

theorem forall₂_trans {α β γ : Type} {R : α → β → Prop} {S : β → γ → Prop} {T : α → γ → Prop}
    (hcomp : ∀ x y z, R x y → S y z → T x z) {xs : List α} {ys : List β} {zs : List γ} (h : List.Forall₂ R xs ys)
    (k : List.Forall₂ S ys zs) : List.Forall₂ T xs zs := by
  induction h generalizing zs with
  | nil =>
    cases k
    exact .nil
  | cons hxy _ ih =>
    cases k with
    | cons hyz k => exact .cons (hcomp _ _ _ hxy hyz) (ih k)

/-- If every entry of a list is an image, the list is. -/
theorem exists_map_eq {α β : Type} {f : β → α} {p : β → Prop} {xs : List α} (h : ∀ x ∈ xs, ∃ y, x = f y ∧ p y) :
    ∃ ys : List β, xs = ys.map f ∧ ∀ y ∈ ys, p y := by
  induction xs with
  | nil => exact ⟨[], rfl, by simp⟩
  | cons x xs ih =>
    rw [List.forall_mem_cons] at h
    obtain ⟨⟨y, rfl, hy⟩, hxs⟩ := h
    obtain ⟨ys, rfl, hys⟩ := ih hxs
    exact ⟨y :: ys, rfl, List.forall_mem_cons.mpr ⟨hy, hys⟩⟩

end ChessArchive
