import Mathlib.Data.List.Perm.Basic

/-! Lists that come sorted or without repetition, by groups, and in pages. -/

namespace ChessArchive

/-- What is sorted by a total order is in that order. -/
theorem pairwise_sorted {α : Type} {r : α → α → Prop} [DecidableRel r] (htrans : ∀ x y z, r x y → r y z → r x z)
    (htotal : ∀ x y, r x y ∨ r y x) (xs : List α) : (xs.mergeSort fun x y => r x y).Pairwise r := by
  have hsorted : (xs.mergeSort fun x y => r x y).Pairwise fun x y => decide (r x y) = true :=
    List.pairwise_mergeSort (fun x y z hxy hyz => by simpa using htrans x y z (by simpa using hxy) (by simpa using hyz))
      (fun x y => by simpa using htotal x y) xs
  exact hsorted.imp of_decide_eq_true

/-- What is sorted by keys that no two entries share is in strict order. -/
theorem pairwise_lt_of_nodup {α : Type} {key : α → Int} {xs : List α} (hsorted : xs.Pairwise fun x y => key x ≤ key y)
    (hnodup : (xs.map key).Nodup) : xs.Pairwise fun x y => key x < key y :=
  hsorted.imp₂ (fun _ _ hle hne => Int.lt_iff_le_and_ne.mpr ⟨hle, hne⟩) (List.pairwise_map.mp hnodup)

/-- In strict order, the entries after one of them are those with larger keys. -/
theorem filter_after {α : Type} {key : α → Int} {before after : List α} {x : α}
    (h : (before ++ x :: after).Pairwise fun y z => key y < key z) :
    (before ++ x :: after).filter (key x < key ·) = after := by
  obtain ⟨-, htail, hbefore⟩ := List.pairwise_append.mp h
  have hnone : before.filter (key x < key ·) = [] := by
    rw [List.filter_eq_nil_iff]
    intro y hy
    have hlt := hbefore y hy x List.mem_cons_self
    simpa using Int.le_of_lt hlt
  have hall : after.filter (key x < key ·) = after := by
    rw [List.filter_eq_self]
    intro y hy
    simpa using (List.pairwise_cons.mp htail).1 y hy
  rw [List.filter_append, hnone, List.filter_cons_of_neg (by simp), hall, List.nil_append]

/-- Of sorted entries some are kept, or of the entries these are kept and then sorted. -/
theorem filter_mergeSort {α : Type} {le : α → α → Bool} (htrans : ∀ x y z, le x y → le y z → le x z)
    (htotal : ∀ x y, le x y || le y x) (keep : α → Bool) (xs : List α) :
    (xs.mergeSort le).filter keep = (xs.filter keep).mergeSort le := by
  induction xs with
  | nil => simp
  | cons x xs ih =>
    obtain ⟨before, after, hsorted, hrest, hbefore⟩ := List.mergeSort_cons htrans htotal x xs
    cases hx : keep x with
    | false =>
      rw [List.filter_cons_of_neg (by simp [hx]), ← ih, hsorted, hrest, List.filter_append, List.filter_append,
        List.filter_cons_of_neg (by simp [hx])]
    | true =>
      -- In both lists the entry stands between those that come strictly before it and the others.
      obtain ⟨first, last, hkept, hlater, hfirst⟩ := List.mergeSort_cons htrans htotal x (xs.filter keep)
      have hcut : ∀ ys zs, (∀ y ∈ ys, (!le x y) = true) → (ys ++ x :: zs).Pairwise (fun y z => le y z = true) →
          (ys ++ zs).filter (!le x ·) = ys := by
        intro ys zs hys hpairs
        have hzs := (List.pairwise_cons.mp (List.pairwise_append.mp hpairs).2.1).1
        rw [List.filter_append, List.filter_eq_self.mpr hys, List.filter_eq_nil_iff.mpr fun z hz => by simp [hzs z hz],
          List.append_nil]
      have hall := hsorted ▸ List.pairwise_mergeSort htrans htotal (x :: xs)
      have hfew := hkept ▸ List.pairwise_mergeSort htrans htotal (x :: xs.filter keep)
      have hsame : before.filter keep ++ after.filter keep = first ++ last := by
        rw [← List.filter_append, ← hrest, ih, hlater]
      have hleft : before.filter keep = first := by
        rw [← hcut first last hfirst hfew, ← hsame, ← List.filter_append, List.filter_filter]
        simp only [Bool.and_comm]
        rw [← List.filter_filter, hcut before after hbefore hall]
      rw [List.filter_cons_of_pos hx, hsorted, hkept, List.filter_append, List.filter_cons_of_pos hx, hleft]
      rw [hleft] at hsame
      rw [List.append_cancel_left hsame]

theorem nodup_eraseDups {α : Type} [DecidableEq α] : ∀ xs : List α, xs.eraseDups.Nodup
  | [] => by simp
  | x :: xs => by
    rw [List.eraseDups_cons, List.nodup_cons]
    exact ⟨by simp, nodup_eraseDups _⟩
termination_by xs => xs.length
decreasing_by exact Nat.lt_succ_of_le (List.length_filter_le _ _)

theorem eraseDups_sublist {α : Type} [DecidableEq α] : ∀ xs : List α, xs.eraseDups.Sublist xs
  | [] => by simp
  | x :: xs => by
    rw [List.eraseDups_cons]
    exact ((eraseDups_sublist _).trans List.filter_sublist).cons_cons x
termination_by xs => xs.length
decreasing_by exact Nat.lt_succ_of_le (List.length_filter_le _ _)

theorem eraseDups_map {α β : Type} [BEq α] [LawfulBEq α] [BEq β] [LawfulBEq β] {f : α → β}
    (hf : Function.Injective f) : ∀ xs : List α, (xs.map f).eraseDups = xs.eraseDups.map f
  | [] => by simp
  | x :: xs => by
    have hother : (xs.map f).filter (fun y => !y == f x) = (xs.filter fun y => !y == x).map f := by
      rw [List.filter_map]
      refine congrArg _ (List.filter_congr fun y _ => ?_)
      simp [hf.eq_iff]
    rw [List.map_cons, List.eraseDups_cons, hother, eraseDups_map hf, List.eraseDups_cons, List.map_cons]
termination_by xs => xs.length
decreasing_by exact Nat.lt_succ_of_le (List.length_filter_le _ _)

/-- Two lists with the largest keys first are the same if they are so for each key. -/
theorem eq_of_groups {α : Type} (key : α → Int) {xs ys : List α} (hxs : xs.Pairwise fun x y => key y ≤ key x)
    (hys : ys.Pairwise fun x y => key y ≤ key x) (h : ∀ k, xs.filter (key · = k) = ys.filter (key · = k)) :
    xs = ys := by
  have hmem : ∀ {xs ys : List α}, (∀ k, xs.filter (key · = k) = ys.filter (key · = k)) → ∀ z ∈ xs, z ∈ ys := by
    intro xs ys h z hz
    have hgroup : z ∈ ys.filter (key · = key z) := h (key z) ▸ List.mem_filter.mpr ⟨hz, by simp⟩
    exact (List.mem_filter.mp hgroup).1
  induction xs generalizing ys with
  | nil => exact (List.eq_nil_iff_forall_not_mem.mpr fun z hz => by simpa using hmem (fun k => (h k).symm) z hz).symm
  | cons x xs ih =>
    cases ys with
    | nil => exact absurd (hmem h x List.mem_cons_self) List.not_mem_nil
    | cons y ys =>
      rw [List.pairwise_cons] at hxs hys
      -- Each of the two first entries is also in the other list, where no key is larger than the first.
      have hxy : key x ≤ key y := by
        rcases List.mem_cons.mp (hmem h x List.mem_cons_self) with rfl | hx
        · exact Int.le_refl _
        · exact hys.1 x hx
      have hyx : key y ≤ key x := by
        rcases List.mem_cons.mp (hmem (fun k => (h k).symm) y List.mem_cons_self) with rfl | hy
        · exact Int.le_refl _
        · exact hxs.1 y hy
      have hfirst := h (key x)
      rw [List.filter_cons_of_pos (by simp), List.filter_cons_of_pos (by simpa using Int.le_antisymm hyx hxy)] at hfirst
      obtain ⟨rfl, hsame⟩ := List.cons.inj hfirst
      refine congrArg _ (ih hxs.2 hys.2 fun k => ?_)
      by_cases hk : key x = k
      · exact hk ▸ hsame
      · simpa [hk] using h k

/-- Entries by groups are the entries of these groups. -/
theorem flatMap_filter_perm {α κ : Type} [DecidableEq κ] (key : α → κ) (xs : List α) {ks : List κ} (hn : ks.Nodup) :
    (ks.flatMap fun k => xs.filter (key · = k)).Perm (xs.filter (key · ∈ ks)) := by
  induction ks with
  | nil => simp
  | cons k ks ih =>
    rw [List.nodup_cons] at hn
    rw [List.flatMap_cons]
    refine ((ih hn.2).append_left _).trans ?_
    have hfirst : xs.filter (key · = k) = (xs.filter (key · ∈ k :: ks)).filter (key · = k) := by
      rw [List.filter_filter]
      refine List.filter_congr fun x _ => ?_
      by_cases hx : key x = k <;> simp [hx]
    have hrest : xs.filter (key · ∈ ks) = (xs.filter (key · ∈ k :: ks)).filter fun x => !decide (key x = k) := by
      rw [List.filter_filter]
      refine List.filter_congr fun x _ => ?_
      by_cases hx : key x = k
      · simp [hx, hn.1]
      · simp [hx]
    rw [hfirst, hrest]
    exact List.filter_append_perm _ _

/-- Entries that are given out once or not at all. -/
theorem flatMap_replicate {α : Type} {times : α → Nat} {keep : α → Bool} {xs : List α}
    (h : ∀ x ∈ xs, times x = if keep x then 1 else 0) :
    (xs.flatMap fun x => List.replicate (times x) x) = xs.filter keep := by
  induction xs with
  | nil => rfl
  | cons x xs ih =>
    rw [List.forall_mem_cons] at h
    rw [List.flatMap_cons, ih h.2, h.1, List.filter_cons]
    cases keep x <;> simp

/-- The first pages put together are the first entries. -/
theorem flatMap_pages {α : Type} (xs : List α) (size n : Nat) :
    ((List.range n).flatMap fun k => (xs.drop (k * size)).take size) = xs.take (n * size) := by
  induction n with
  | zero => simp
  | succ n ih =>
    rw [List.range_succ, List.flatMap_append, ih, Nat.succ_mul, List.take_add]
    simp

end ChessArchive
