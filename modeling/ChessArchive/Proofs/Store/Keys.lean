import Mathlib.Data.List.Nodup
import ChessArchive.Proofs.Listing
import ChessArchive.Proofs.Reading
import ChessArchive.Store.Opening

/-! The key table of a store. What is stored is a table exactly if every slot holds the word of that slot and there is
    nothing else. However many openers find no table, the first to store one decides for all: what the others drew finds
    no free slot, and everyone reads the same table. -/

namespace ChessArchive
namespace FingerprintKeys

theorem ofWords?_eq_some {words : List UInt64} {k : FingerprintKeys} : ofWords? words = some k ↔ words = k.toWords := by
  rcases k with ⟨⟨ws, hws⟩⟩
  unfold ofWords? toWords
  constructor
  · intro h
    split at h
    · cases h
      rfl
    · cases h
  · rintro rfl
    exact dif_pos hws

theorem length_toWords (k : FingerprintKeys) : k.toWords.length = keyCount := k.words.length_toList

/-- The words of a table in their slots. -/
def slotted (k : FingerprintKeys) : List StoredKey := k.toWords.zipIdx.map fun (w, i) => ⟨Int.ofNat i, w.toInt64⟩

theorem slotted_slots (k : FingerprintKeys) : k.slotted.map (·.slot) = Store.keySlots := by
  have hslots : k.toWords.zipIdx.map Prod.snd = List.range keyCount := by
    rw [List.zipIdx_map_snd, k.length_toWords, List.range_eq_range']
  rw [slotted, List.map_map, Store.keySlots, ← hslots, List.map_map]
  rfl

theorem slotted_words (k : FingerprintKeys) : k.slotted.map (·.key.toUInt64) = k.toWords := by
  have hwords : k.toWords.zipIdx.map Prod.fst = k.toWords := List.zipIdx_map_fst 0 _
  rw [slotted, List.map_map]
  conv_rhs => rw [← hwords]
  exact List.map_congr_left fun e _ => UInt64.toUInt64_toInt64 e.1

theorem slotted_ne_nil (k : FingerprintKeys) : k.slotted ≠ [] := by
  intro h
  have hlength := congrArg List.length k.slotted_words
  rw [h, k.length_toWords] at hlength
  exact absurd hlength (by decide)

end FingerprintKeys

namespace Store
open FingerprintKeys

theorem keySlots_ascending : keySlots.Pairwise (· < ·) :=
  List.pairwise_lt_range.map Int.ofNat fun _ _ h => Int.ofNat_lt.mpr h

/-- Keys are told apart by slot and word. -/
theorem eq_slotted {keys : List StoredKey} {k : FingerprintKeys} (hslots : keys.map (·.slot) = keySlots)
    (hwords : keys.map (·.key.toUInt64) = k.toWords) : keys = k.slotted := by
  have hinj : Function.Injective fun e : StoredKey => (e.slot, e.key.toUInt64) := by
    rintro ⟨slot, key⟩ ⟨slot', key'⟩ h
    obtain ⟨rfl, hkey⟩ := Prod.mk.inj h
    have hkey : key = key' := by
      rw [← key.toInt64_toUInt64, ← key'.toInt64_toUInt64]
      exact congrArg UInt64.toInt64 hkey
    rw [hkey]
  apply hinj.list_map
  rw [← List.zip_map', ← List.zip_map', hslots, hwords, k.slotted_slots, k.slotted_words]

theorem slotted_nodup (k : FingerprintKeys) : (k.slotted.map (·.slot)).Nodup := by
  rw [k.slotted_slots]
  exact keySlots_ascending.imp fun h => Int.ne_of_lt h

/-! ### One store -/

section
variable {s : Store} {k : FingerprintKeys}

theorem keysBySlot_of_perm (h : s.keys.Perm k.slotted) : s.keysBySlot = k.slotted := by
  have hascending : k.slotted.Pairwise fun a b => a.slot < b.slot := by
    rw [← List.pairwise_map (f := StoredKey.slot), k.slotted_slots]
    exact keySlots_ascending
  have hsorted : s.keysBySlot.Pairwise fun a b => a.slot ≤ b.slot :=
    pairwise_sorted (r := fun a b : StoredKey => a.slot ≤ b.slot) (fun _ _ _ => Int.le_trans)
      (fun _ _ => Int.le_total _ _) _
  have hperm : s.keysBySlot.Perm k.slotted := (List.mergeSort_perm _ _).trans h
  refine hperm.eq_of_pairwise (fun a b ha hb hab hba => ?_) hsorted (hascending.imp Int.le_of_lt)
  -- Two keys of the table in one slot are the same key.
  exact List.inj_on_of_nodup_map (slotted_nodup k) (hperm.mem_iff.mp ha) hb (Int.le_antisymm hab hba)

/-- A table is read exactly if its words are what is stored, each in its slot. -/
theorem loadKeys_eq_some : s.loadKeys = .ok (some k) ↔ s.keys.Perm k.slotted := by
  unfold loadKeys
  constructor
  · intro h
    split at h
    · cases h
    · split at h
      · rename_i hslots
        split at h
        · rename_i hwords
          cases h
          have hstored := eq_slotted hslots (ofWords?_eq_some.mp hwords)
          exact hstored ▸ (List.mergeSort_perm _ _).symm
        · cases h
      · cases h
  · intro h
    have hsome : s.keys.isEmpty = false := by
      rw [List.isEmpty_eq_false_iff]
      intro hnone
      rw [hnone] at h
      exact k.slotted_ne_nil h.nil_eq.symm
    rw [hsome, keysBySlot_of_perm h, k.slotted_slots, k.slotted_words, ofWords?_eq_some.mpr rfl]
    simp

theorem loadKeys_eq_none : s.loadKeys = .ok none ↔ s.keys = [] := by
  unfold loadKeys
  constructor
  · intro h
    split at h
    · rename_i hnone
      exact List.isEmpty_iff.mp hnone
    · split at h
      · split at h <;> cases h
      · cases h
  · intro h
    simp [h]

theorem foldl_offerKey_taken {offered : List StoredKey} (h : ∀ e ∈ offered, ∃ t ∈ s.keys, t.slot = e.slot) :
    offered.foldl offerKey s = s := by
  induction offered with
  | nil => rfl
  | cons e offered ih =>
    rw [List.forall_mem_cons] at h
    obtain ⟨⟨t, ht, hslot⟩, hrest⟩ := h
    have hany : s.keys.any (·.slot = e.slot) = true := List.any_eq_true.mpr ⟨t, ht, by simpa using hslot⟩
    rw [List.foldl_cons, offerKey, if_pos hany, ih hrest]

theorem foldl_offerKey_free {offered : List StoredKey} (hn : (offered.map (·.slot)).Nodup)
    (hfree : ∀ e ∈ offered, ∀ t ∈ s.keys, t.slot ≠ e.slot) :
    offered.foldl offerKey s = { s with keys := offered.reverse ++ s.keys } := by
  induction offered generalizing s with
  | nil => rfl
  | cons e offered ih =>
    rw [List.map_cons, List.nodup_cons] at hn
    rw [List.forall_mem_cons] at hfree
    have hany : ¬ s.keys.any (·.slot = e.slot) = true := by simpa using hfree.1
    rw [List.foldl_cons, offerKey, if_neg hany, ih hn.2]
    · simp
    · intro d hd t ht
      rcases List.mem_cons.mp ht with rfl | ht
      · intro heq
        exact hn.1 (heq ▸ List.mem_map_of_mem hd)
      · exact hfree.2 d hd t ht

/-- The first table that is offered is stored as it is. -/
theorem offerKeys_of_nil (h : s.keys = []) (k : FingerprintKeys) :
    s.offerKeys k = { s with keys := k.slotted.reverse } := by
  have hoffer : s.offerKeys k = { s with keys := k.slotted.reverse ++ s.keys } :=
    foldl_offerKey_free (slotted_nodup k) (by simp [h])
  rw [hoffer, h, List.append_nil]

theorem loadKeys_offerKeys (h : s.keys = []) (k : FingerprintKeys) : (s.offerKeys k).loadKeys = .ok (some k) := by
  rw [loadKeys_eq_some, offerKeys_of_nil h]
  exact List.reverse_perm _

theorem openKeys_of_nil (h : s.keys = []) (k : FingerprintKeys) : s.openKeys k = .ok (k, s.offerKeys k) := by
  refine bind_ok_iff.mpr ⟨none, loadKeys_eq_none.mpr h, ?_⟩
  exact bind_ok_iff.mpr ⟨some k, loadKeys_offerKeys h k, rfl⟩

/-- Where a table is stored, another one finds no free slot. -/
theorem offerKeys_of_perm (h : s.keys.Perm k.slotted) (fresh : FingerprintKeys) : s.offerKeys fresh = s := by
  have htaken : ∀ e ∈ fresh.slotted, ∃ t ∈ s.keys, t.slot = e.slot := by
    intro e he
    have hslot : e.slot ∈ k.slotted.map (·.slot) := by
      rw [k.slotted_slots, ← fresh.slotted_slots]
      exact List.mem_map_of_mem he
    obtain ⟨t, ht, heq⟩ := List.mem_map.mp hslot
    exact ⟨t, h.mem_iff.mpr ht, heq⟩
  exact foldl_offerKey_taken htaken

theorem openKeys_of_perm (h : s.keys.Perm k.slotted) (fresh : FingerprintKeys) : s.openKeys fresh = .ok (k, s) := by
  rw [openKeys, loadKeys_eq_some.mpr h]
  rfl

end

end Store

/-! ### Many openers -/

namespace KeyOpener
variable {s t : Store} {o next : KeyOpener} {fresh k : FingerprintKeys}

theorem starting_some (h : s.loadKeys = .ok (some k)) : (starting fresh).step s = some (.done (.ok k), s) := by
  rw [step, h]

theorem starting_none (h : s.loadKeys = .ok none) : (starting fresh).step s = some (.drawn fresh, s) := by
  rw [step, h]

theorem starting_error {e : ArchiveError} (h : s.loadKeys = .error e) :
    (starting fresh).step s = some (.done (.error e), s) := by
  rw [step, h]

theorem stored_some (h : s.loadKeys = .ok (some k)) : stored.step s = some (.done (.ok k), s) := by
  rw [step, h]

/-- Where there is no table, an opener that has not returned draws one or stores what it has drawn. -/
theorem step_of_nil (hnone : s.keys = []) (ho : o = .starting k ∨ o = .drawn k) (h : o.step s = some (next, t)) :
    (next = .drawn k ∧ t = s) ∨ (next = .stored ∧ t.keys.Perm k.slotted) := by
  rcases ho with rfl | rfl
  · rw [starting_none (Store.loadKeys_eq_none.mpr hnone)] at h
    cases h
    exact Or.inl ⟨rfl, rfl⟩
  · cases h
    exact Or.inr ⟨rfl, Store.loadKeys_eq_some.mp (Store.loadKeys_offerKeys hnone k)⟩

/-- Where there is a table, an opener leaves it alone, and what it returns is that table. -/
theorem step_of_perm (hk : s.keys.Perm k.slotted) (h : o.step s = some (next, t)) :
    t = s ∧ ∀ r, next = .done r → r = .ok k := by
  have hload := Store.loadKeys_eq_some.mpr hk
  cases o with
  | starting fresh =>
    rw [starting_some hload] at h
    cases h
    exact ⟨rfl, fun r hr => (KeyOpener.done.inj hr).symm⟩
  | drawn fresh =>
    cases h
    exact ⟨Store.offerKeys_of_perm hk fresh, nofun⟩
  | stored =>
    rw [stored_some hload] at h
    cases h
    exact ⟨rfl, fun r hr => (KeyOpener.done.inj hr).symm⟩
  | done r => cases h

end KeyOpener

namespace KeyOpening
variable {s t : KeyOpening} {tables : List FingerprintKeys} {k : FingerprintKeys} {i : Nat}

theorem step_eq_some : s.step i = some t ↔
    ∃ o next u, s.openers[i]? = some o ∧ o.step s.store = some (next, u) ∧ t = ⟨u, s.openers.set i next⟩ := by
  simp only [step, Option.bind_eq_some_iff, Option.map_eq_some_iff, Prod.exists]
  constructor
  · rintro ⟨o, ho, next, u, hstep, rfl⟩
    exact ⟨o, next, u, ho, hstep, rfl⟩
  · rintro ⟨o, next, u, ho, hstep, rfl⟩
    exact ⟨o, ho, next, u, hstep, rfl⟩

theorem Run.act (h : Run s t) (i : Nat) {o next : KeyOpener} {u : Store} (ho : t.openers[i]? = some o)
    (hstep : o.step t.store = some (next, u)) : Run s ⟨u, t.openers.set i next⟩ :=
  h.step i (step_eq_some.mpr ⟨o, next, u, ho, hstep, rfl⟩)

/-- No table is stored, and no opener has come further than to draw one. -/
structure Undecided (tables : List FingerprintKeys) (s : KeyOpening) : Prop where
  keys : s.store.keys = []
  openers : ∀ o ∈ s.openers, ∃ k ∈ tables, o = .starting k ∨ o = .drawn k

/-- A table is stored, and every opener that has returned has returned it. -/
structure Decided (k : FingerprintKeys) (s : KeyOpening) : Prop where
  keys : s.store.keys.Perm k.slotted
  openers : ∀ r, .done r ∈ s.openers → r = .ok k

theorem undecided_start {store : Store} (h : store.keys = []) (tables : List FingerprintKeys) :
    (start store tables).Undecided tables where
  keys := h
  openers o ho := by
    obtain ⟨k, hk, rfl⟩ := List.mem_map.mp ho
    exact ⟨k, hk, Or.inl rfl⟩

/-- The first opener that stores its table decides. -/
theorem Undecided.step (h : s.Undecided tables) (hs : s.step i = some t) :
    t.Undecided tables ∨ ∃ k ∈ tables, t.Decided k := by
  obtain ⟨o, next, u, ho, hstep, rfl⟩ := step_eq_some.mp hs
  obtain ⟨k, hk, hphase⟩ := h.openers o (List.mem_of_getElem? ho)
  rcases KeyOpener.step_of_nil h.keys hphase hstep with ⟨rfl, rfl⟩ | ⟨rfl, hperm⟩
  · refine Or.inl ⟨h.keys, fun p hp => ?_⟩
    rcases List.mem_or_eq_of_mem_set hp with hp | rfl
    · exact h.openers p hp
    · exact ⟨k, hk, Or.inr rfl⟩
  · refine Or.inr ⟨k, hk, hperm, fun r hr => ?_⟩
    rcases List.mem_or_eq_of_mem_set hr with hr | hr
    · obtain ⟨_, -, hphase⟩ := h.openers _ hr
      exact absurd hphase (by simp)
    · cases hr

theorem Decided.step (h : s.Decided k) (hs : s.step i = some t) : t.Decided k ∧ t.store = s.store := by
  obtain ⟨o, next, u, -, hstep, rfl⟩ := step_eq_some.mp hs
  obtain ⟨rfl, hnext⟩ := KeyOpener.step_of_perm h.keys hstep
  refine ⟨⟨h.keys, fun r hr => ?_⟩, rfl⟩
  rcases List.mem_or_eq_of_mem_set hr with hr | hr
  · exact h.openers r hr
  · exact hnext r hr.symm

theorem Run.undecided (h : Run s t) (hs : s.Undecided tables) : t.Undecided tables ∨ ∃ k ∈ tables, t.Decided k := by
  induction h with
  | start => exact Or.inl hs
  | step i _ ht ih =>
    rcases ih with hu | ⟨k, hk, hd⟩
    · exact hu.step ht
    · exact Or.inr ⟨k, hk, (hd.step ht).1⟩

theorem Run.decided (h : Run s t) (hs : s.Decided k) : t.Decided k ∧ t.store = s.store := by
  induction h with
  | start => exact ⟨hs, rfl⟩
  | step i _ ht ih =>
    obtain ⟨hd, hstore⟩ := ih.1.step ht
    exact ⟨hd, hstore.trans ih.2⟩

/-- An opener that is alone does what `openKeys` does. -/
theorem run_alone (s : Store) (fresh : FingerprintKeys) :
    ∃ t, Run (start s [fresh]) ⟨t, [.done ((s.openKeys fresh).map Prod.fst)]⟩ ∧
      ∀ k u, s.openKeys fresh = .ok (k, u) → t = u := by
  cases hload : s.loadKeys with
  | error e =>
    have hopen : s.openKeys fresh = .error e := by rw [Store.openKeys, hload]; rfl
    refine ⟨s, ?_, by simp [hopen]⟩
    rw [hopen]
    exact Run.start.act 0 rfl (KeyOpener.starting_error hload)
  | ok found =>
    cases found with
    | some k =>
      have hopen := Store.openKeys_of_perm (Store.loadKeys_eq_some.mp hload) fresh
      refine ⟨s, ?_, by simp [hopen]⟩
      rw [hopen]
      exact Run.start.act 0 rfl (KeyOpener.starting_some hload)
    | none =>
      have hnone := Store.loadKeys_eq_none.mp hload
      have hopen := Store.openKeys_of_nil hnone fresh
      refine ⟨s.offerKeys fresh, ?_, by simp [hopen]⟩
      rw [hopen]
      have drawn : Run (start s [fresh]) ⟨s, [.drawn fresh]⟩ := Run.start.act 0 rfl (KeyOpener.starting_none hload)
      have stored : Run (start s [fresh]) ⟨s.offerKeys fresh, [.stored]⟩ := drawn.act 0 rfl rfl
      exact stored.act 0 rfl (KeyOpener.stored_some (Store.loadKeys_offerKeys hnone fresh))

/-- Two openers find no table, and the second one is the first to store its own. -/
theorem run_second_first {s : Store} (hnone : s.keys = []) (k l : FingerprintKeys) :
    Run (start s [k, l]) ⟨s.offerKeys l, [.done (.ok l), .done (.ok l)]⟩ := by
  have hload := Store.loadKeys_eq_none.mpr hnone
  have hstored := Store.loadKeys_offerKeys hnone l
  have hlate := Store.offerKeys_of_perm (Store.loadKeys_eq_some.mp hstored) k
  have found : Run (start s [k, l]) ⟨s, [.drawn k, .starting l]⟩ := Run.start.act 0 rfl (KeyOpener.starting_none hload)
  have drawn : Run (start s [k, l]) ⟨s, [.drawn k, .drawn l]⟩ := found.act 1 rfl (KeyOpener.starting_none hload)
  have first : Run (start s [k, l]) ⟨s.offerKeys l, [.drawn k, .stored]⟩ := drawn.act 1 rfl rfl
  have second : Run (start s [k, l]) ⟨s.offerKeys l, [.stored, .stored]⟩ :=
    first.act 0 rfl (by rw [KeyOpener.step, hlate])
  have returned : Run (start s [k, l]) ⟨s.offerKeys l, [.done (.ok l), .stored]⟩ :=
    second.act 0 rfl (KeyOpener.stored_some hstored)
  exact returned.act 1 rfl (KeyOpener.stored_some hstored)

/-- Openers that find no table agree, whatever the order of their steps: if one of them has returned, all that ever
    return have one table of those that were drawn, as a whole. It is what is stored from then on, and whoever opens the
    store later is given it and changes nothing. -/
theorem openers_agree {store : Store} (hnone : store.keys = []) {tables : List FingerprintKeys} {s : KeyOpening}
    (h : Run (start store tables) s) {r : Except ArchiveError FingerprintKeys} (hr : .done r ∈ s.openers) :
    ∃ k ∈ tables, r = .ok k ∧ s.store.keys.Perm k.slotted ∧
      ∀ t, Run s t → t.store = s.store ∧ (∀ r', .done r' ∈ t.openers → r' = .ok k) ∧
        ∀ fresh, t.store.openKeys fresh = .ok (k, t.store) := by
  rcases h.undecided (undecided_start hnone tables) with hu | ⟨k, hk, hd⟩
  · obtain ⟨k, -, hphase⟩ := hu.openers _ hr
    exact absurd hphase (by simp)
  · refine ⟨k, hk, hd.openers r hr, hd.keys, fun t ht => ?_⟩
    obtain ⟨hlater, hstore⟩ := ht.decided hd
    exact ⟨hstore, hlater.openers, Store.openKeys_of_perm hlater.keys⟩

theorem openers_agree_second_first : ∃ s,
    Run (start .empty [⟨.replicate keyCount 0⟩, ⟨.replicate keyCount 1⟩]) s ∧
      s.openers = [.done (.ok ⟨.replicate keyCount 1⟩), .done (.ok ⟨.replicate keyCount 1⟩)] ∧
      ∀ fresh, s.store.openKeys fresh = .ok (⟨.replicate keyCount 1⟩, s.store) := by
  have hrun := run_second_first (s := .empty) rfl ⟨.replicate keyCount 0⟩ ⟨.replicate keyCount 1⟩
  obtain ⟨k, -, hk, -, hlater⟩ := openers_agree rfl hrun List.mem_cons_self
  obtain ⟨-, -, hopen⟩ := hlater _ .start
  rw [← Except.ok.inj hk] at hopen
  exact ⟨_, hrun, rfl, hopen⟩

end KeyOpening
end ChessArchive
