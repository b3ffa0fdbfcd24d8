import Mathlib.Algebra.Group.Int.Defs
import ChessArchive.Proofs.Store.Keys

/-! What is read from a key table that is stored. If every slot is taken once and no other slot is, it is the table of
    the words that stand there, each signed key read as an unsigned number. Anything else is refused, and in either case
    what is stored stays as it is. -/

namespace ChessArchive

/-- A signed number in two's complement, read as an unsigned one. -/
theorem toNat_toUInt64 (x : Int64) : (x.toUInt64.toNat : Int) = x.toInt % 2 ^ 64 := by
  have hsigned : x.toInt = Int.bmod x.toUInt64.toNat (2 ^ 64) := BitVec.toInt_eq_toNat_bmod x.toBitVec
  have hlt : (x.toUInt64.toNat : Int) < (2 ^ 64 : Nat) := Int.ofNat_lt.mpr x.toUInt64.toNat_lt
  calc (x.toUInt64.toNat : Int)
    _ = x.toUInt64.toNat % (2 ^ 64 : Nat) := (Int.emod_eq_of_lt (Int.natCast_nonneg _) hlt).symm
    _ = x.toInt % (2 ^ 64 : Nat) := by rw [hsigned, Int.bmod_emod]

namespace FingerprintKeys

theorem mem_slotted (k : FingerprintKeys) (i : Fin keyCount) :
    StoredKey.mk i.val (k.words.get i).toInt64 ∈ k.slotted := by
  refine List.mem_map.mpr ⟨(k.words.get i, i.val), List.mem_zipIdx_iff_getElem?.mpr ?_, rfl⟩
  rw [toWords, Vector.getElem?_toList]
  exact Vector.getElem?_eq_getElem i.isLt

theorem length_slotted (k : FingerprintKeys) : k.slotted.length = keyCount := by
  rw [← List.length_map (f := StoredKey.slot), k.slotted_slots, Store.keySlots, List.length_map, List.length_range]

theorem ext_words {k l : FingerprintKeys} (h : ∀ i, k.words.get i = l.words.get i) : k = l := by
  rcases k with ⟨ks⟩
  rcases l with ⟨ls⟩
  exact congrArg mk (Vector.ext fun i hi => h ⟨i, hi⟩)

end FingerprintKeys

namespace Store
open FingerprintKeys

/-- Each slot of a table is taken once, and no other slot is. -/
structure KeysWhole (s : Store) : Prop where
  once : (s.keys.map (·.slot)).Nodup
  slots : ∀ n : Int, n ∈ s.keys.map (·.slot) ↔ 0 ≤ n ∧ n < 773

/-- The words of a table are the stored keys, each at the place of its slot and read as an unsigned number. -/
def Spells (s : Store) (k : FingerprintKeys) : Prop :=
  ∀ i : Fin keyCount, ∃ e ∈ s.keys, e.slot = i.val ∧ ((k.words.get i).toNat : Int) = e.key.toInt % 2 ^ 64

/-! ### Whole tables -/

theorem mem_keySlots {n : Int} : n ∈ keySlots ↔ 0 ≤ n ∧ n < 773 := by
  rw [keySlots, List.mem_map]
  constructor
  · rintro ⟨i, hi, rfl⟩
    have hlt : i < 773 := List.mem_range.mp hi
    exact ⟨Int.natCast_nonneg i, Int.ofNat_lt.mpr hlt⟩
  · rintro ⟨hnonneg, hlt⟩
    obtain ⟨i, rfl⟩ := Int.eq_ofNat_of_zero_le hnonneg
    exact ⟨i, List.mem_range.mpr (Int.ofNat_lt.mp hlt), rfl⟩

theorem keySlots_nodup : keySlots.Nodup := keySlots_ascending.imp fun h => Int.ne_of_lt h

section
variable {s : Store} {k l : FingerprintKeys}

theorem keysWhole_iff : s.KeysWhole ↔ (s.keys.map (·.slot)).Perm keySlots := by
  constructor
  · intro h
    rw [List.perm_ext_iff_of_nodup h.once keySlots_nodup]
    exact fun n => (h.slots n).trans mem_keySlots.symm
  · intro h
    exact ⟨h.nodup_iff.mpr keySlots_nodup, fun n => h.mem_iff.trans mem_keySlots⟩

/-- In order, the slots are those of a table exactly if each of these is taken once. -/
theorem keysBySlot_slots : s.keysBySlot.map (·.slot) = keySlots ↔ s.KeysWhole := by
  have hperm : (s.keysBySlot.map (·.slot)).Perm (s.keys.map (·.slot)) := (List.mergeSort_perm _ _).map _
  rw [keysWhole_iff]
  constructor
  · intro h
    exact h ▸ hperm.symm
  · intro h
    have hsorted : s.keysBySlot.Pairwise fun a b => a.slot ≤ b.slot :=
      pairwise_sorted (r := fun a b : StoredKey => a.slot ≤ b.slot) (fun _ _ _ => Int.le_trans)
        (fun _ _ => Int.le_total _ _) _
    exact (hperm.trans h).eq_of_pairwise (fun _ _ _ _ => Int.le_antisymm) (List.pairwise_map.mpr hsorted)
      (keySlots_ascending.imp Int.le_of_lt)

theorem KeysWhole.keys_ne_nil (h : s.KeysWhole) : s.keys ≠ [] := by
  intro hnone
  have hfirst := (h.slots 0).mpr (by decide)
  simp [hnone] at hfirst

theorem KeysWhole.length_keysBySlot (h : s.KeysWhole) : s.keysBySlot.length = keyCount := by
  have hlength := congrArg List.length (keysBySlot_slots.mpr h)
  simpa [keySlots] using hlength

/-- A whole table is read. -/
theorem KeysWhole.load (h : s.KeysWhole) : ∃ k, s.loadKeys = .ok (some k) := by
  have hsize : (s.keysBySlot.map (·.key.toUInt64)).toArray.size = keyCount := by
    rw [List.size_toArray, List.length_map, h.length_keysBySlot]
  refine ⟨⟨⟨_, hsize⟩⟩, ?_⟩
  rw [loadKeys, List.isEmpty_eq_false_iff.mpr h.keys_ne_nil, if_pos (keysBySlot_slots.mpr h), ofWords?, dif_pos hsize]
  rfl

/-- What is not a whole table is refused. -/
theorem loadKeys_of_not_whole (hsome : s.keys ≠ []) (h : ¬ s.KeysWhole) :
    s.loadKeys = .error (.corruptKeys s.keys.length) := by
  rw [loadKeys, List.isEmpty_eq_false_iff.mpr hsome, if_neg (mt keysBySlot_slots.mp h)]
  rfl

/-! ### What is read -/

theorem whole_of_perm (h : s.keys.Perm k.slotted) : s.KeysWhole :=
  keysWhole_iff.mpr (k.slotted_slots ▸ h.map _)

theorem spells_of_perm (h : s.keys.Perm k.slotted) : s.Spells k := by
  intro i
  refine ⟨_, h.mem_iff.mpr (k.mem_slotted i), rfl, ?_⟩
  rw [← toNat_toUInt64, UInt64.toUInt64_toInt64]

/-- No more than one table is spelled, for there is one key to a slot. -/
theorem KeysWhole.spells_unique (h : s.KeysWhole) (hk : s.Spells k) (hl : s.Spells l) : k = l := by
  refine ext_words fun i => UInt64.toNat_inj.mp ?_
  obtain ⟨e, he, hslot, hword⟩ := hk i
  obtain ⟨e', he', hslot', hword'⟩ := hl i
  obtain rfl : e = e' := List.inj_on_of_nodup_map h.once he he' (hslot.trans hslot'.symm)
  exact Int.ofNat_inj.mp (hword.trans hword'.symm)

/-- What is stored is a table exactly if it is whole and spells the table. -/
theorem perm_slotted_iff : s.keys.Perm k.slotted ↔ s.KeysWhole ∧ s.Spells k := by
  constructor
  · intro h
    exact ⟨whole_of_perm h, spells_of_perm h⟩
  · rintro ⟨hwhole, hk⟩
    obtain ⟨l, hl⟩ := hwhole.load
    have hperm := loadKeys_eq_some.mp hl
    exact hwhole.spells_unique (spells_of_perm hperm) hk ▸ hperm

/-- Where there is a key, a table is opened or refused, and nothing is stored. -/
theorem openKeys_of_ne_nil (hsome : s.keys ≠ []) (fresh : FingerprintKeys) :
    (s.KeysWhole ∧ ∃ k, s.Spells k ∧ s.loadKeys = .ok (some k) ∧ s.openKeys fresh = .ok (k, s)) ∨
      (¬ s.KeysWhole ∧ s.loadKeys = .error (.corruptKeys s.keys.length) ∧
        s.openKeys fresh = .error (.corruptKeys s.keys.length)) := by
  by_cases hwhole : s.KeysWhole
  · obtain ⟨k, hk⟩ := hwhole.load
    have hperm := loadKeys_eq_some.mp hk
    exact Or.inl ⟨hwhole, k, spells_of_perm hperm, hk, openKeys_of_perm hperm fresh⟩
  · have hrefused := loadKeys_of_not_whole hsome hwhole
    refine Or.inr ⟨hwhole, hrefused, ?_⟩
    rw [openKeys, hrefused]
    rfl

theorem openKeys_eq_ok {t : Store} {fresh : FingerprintKeys} (hsome : s.keys ≠ []) :
    s.openKeys fresh = .ok (k, t) ↔ s.KeysWhole ∧ s.Spells k ∧ t = s := by
  rcases openKeys_of_ne_nil hsome fresh with ⟨hwhole, l, hl, -, hopen⟩ | ⟨hnot, -, hopen⟩
  · rw [hopen, Except.ok.injEq, Prod.mk.injEq]
    constructor
    · rintro ⟨rfl, rfl⟩
      exact ⟨hwhole, hl, rfl⟩
    · rintro ⟨-, hk, rfl⟩
      exact ⟨hwhole.spells_unique hl hk, rfl⟩
  · rw [hopen]
    exact ⟨nofun, fun h => absurd h.1 hnot⟩

theorem openKeys_eq_error {e : ArchiveError} {fresh : FingerprintKeys} (hsome : s.keys ≠ []) :
    s.openKeys fresh = .error e ↔ ¬ s.KeysWhole ∧ e = .corruptKeys s.keys.length := by
  rcases openKeys_of_ne_nil hsome fresh with ⟨hwhole, l, -, -, hopen⟩ | ⟨hnot, -, hopen⟩
  · rw [hopen]
    exact ⟨nofun, fun h => absurd hwhole h.1⟩
  · rw [hopen, Except.error.injEq]
    exact ⟨fun h => ⟨hnot, h.symm⟩, fun h => h.2.symm⟩

/-! ### What is stored -/

theorem offerKeys_slotted (hnone : s.keys = []) (k : FingerprintKeys) : (s.offerKeys k).keys.Perm k.slotted := by
  rw [offerKeys_of_nil hnone]
  exact List.reverse_perm _

end
end Store

namespace KeyOpening
open Store
variable {store : Store} {s t : KeyOpening} {i : Nat}

/-- What is stored is as it was, and every opener that has begun has returned what opening comes to. -/
structure Reading (store : Store) (s : KeyOpening) : Prop where
  kept : s.store = store
  openers : ∀ o ∈ s.openers,
    (∃ fresh, o = .starting fresh) ∨ ∃ r, o = .done r ∧ ∀ fresh, store.openKeys fresh = r.map (·, store)

theorem reading_start (store : Store) (tables : List FingerprintKeys) : (start store tables).Reading store where
  kept := rfl
  openers o ho := by
    obtain ⟨k, -, rfl⟩ := List.mem_map.mp ho
    exact Or.inl ⟨k, rfl⟩

theorem Reading.step (h : s.Reading store) (hsome : store.keys ≠ []) (hs : s.step i = some t) : t.Reading store := by
  obtain ⟨o, next, u, ho, hstep, rfl⟩ := step_eq_some.mp hs
  obtain ⟨rfl, hopeners⟩ := h
  suffices hnext : u = s.store ∧ ∃ r, next = .done r ∧ ∀ fresh, s.store.openKeys fresh = r.map (·, s.store) by
    refine ⟨hnext.1, fun p hp => ?_⟩
    rcases List.mem_or_eq_of_mem_set hp with hp | rfl
    · exact hopeners p hp
    · exact Or.inr hnext.2
  rcases hopeners o (List.mem_of_getElem? ho) with ⟨fresh, rfl⟩ | ⟨r, rfl, -⟩
  · rcases openKeys_of_ne_nil hsome fresh with ⟨-, k, -, hload, -⟩ | ⟨-, hload, -⟩
    · rw [KeyOpener.starting_some hload] at hstep
      cases hstep
      exact ⟨rfl, _, rfl, openKeys_of_perm (loadKeys_eq_some.mp hload)⟩
    · rw [KeyOpener.starting_error hload] at hstep
      cases hstep
      refine ⟨rfl, _, rfl, fun fresh => ?_⟩
      rw [openKeys, hload]
      rfl
  · cases hstep

theorem Run.reading (h : Run s t) (hs : s.Reading store) (hsome : store.keys ≠ []) : t.Reading store := by
  induction h with
  | start => exact hs
  | step i _ ht ih => exact ih.step hsome ht

end KeyOpening

namespace Store

/-- A key table that is stored is read word by word or refused, and never mended. Where there is any key, opening the
    store changes nothing: it gives the table that is spelled by a whole set of keys, and refuses any other set with the
    number of its keys; and several who open it at once get just that and change nothing at any step. Where there is no
    key the fresh table is stored, all its words, and from then on it is what everyone is given. -/
theorem keys_kept_or_refused (s : Store) (fresh : FingerprintKeys) :
    (s.keys ≠ [] →
      (∀ k t, s.openKeys fresh = .ok (k, t) ↔ s.KeysWhole ∧ s.Spells k ∧ t = s) ∧
      (∀ e, s.openKeys fresh = .error e ↔ ¬ s.KeysWhole ∧ e = .corruptKeys s.keys.length) ∧
      (ArchiveError.corruptKeys s.keys.length).message =
        s!"Fingerprint key table is corrupt: expected 773 keys, found {s.keys.length}" ∧
      ∀ tables t, KeyOpening.Run (.start s tables) t →
        t.store = s ∧ ∀ r, .done r ∈ t.openers → s.openKeys fresh = r.map (·, s)) ∧
    (s.keys = [] →
      ∃ t, s.openKeys fresh = .ok (fresh, t) ∧ t = { s with keys := t.keys } ∧ t.keys.length = 773 ∧
        t.KeysWhole ∧ t.Spells fresh ∧
        ∀ later, ∃ k, t.openKeys later = .ok (k, t) ∧ k = fresh ∧
          ∀ board side castling, k.fingerprint board side castling = fresh.fingerprint board side castling) := by
  constructor
  · intro hsome
    refine ⟨fun _ _ => openKeys_eq_ok hsome, fun _ => openKeys_eq_error hsome, rfl, fun tables t ht => ?_⟩
    obtain ⟨hkept, hopeners⟩ := ht.reading (KeyOpening.reading_start s tables) hsome
    refine ⟨hkept, fun r hr => ?_⟩
    rcases hopeners _ hr with ⟨k, hk⟩ | ⟨r', hr', hopen⟩
    · cases hk
    · cases hr'
      exact hopen fresh
  · intro hnone
    have hperm := offerKeys_slotted hnone fresh
    obtain ⟨hwhole, hspells⟩ := perm_slotted_iff.mp hperm
    refine ⟨s.offerKeys fresh, openKeys_of_nil hnone fresh, ?_, hperm.length_eq.trans fresh.length_slotted, hwhole,
      hspells, fun later => ⟨fresh, openKeys_of_perm hperm later, rfl, fun _ _ _ => rfl⟩⟩
    rw [offerKeys_of_nil hnone]

/-- Keys that are all below zero are read as a table, and refused when some are missing; and where there is no key, a
    table is stored. -/
theorem keys_kept_or_refused_below_zero :
    let s : Store := { Store.empty with keys := (List.range 773).map fun n : Nat => ⟨n, -1⟩ }
    s.openKeys ⟨.replicate keyCount 0⟩ = .ok (⟨.replicate keyCount 18446744073709551615⟩, s) ∧
      ({ s with keys := s.keys.take 700 } : Store).openKeys ⟨.replicate keyCount 0⟩ = .error (.corruptKeys 700) ∧
      ∃ t, Store.empty.openKeys ⟨.replicate keyCount 0⟩ = .ok (⟨.replicate keyCount 0⟩, t) ∧ t.keys.length = 773 := by
  intro s
  have hkeys : s.keys = (List.range 773).map fun n : Nat => ⟨n, -1⟩ := by simp only [s]
  clear_value s
  have hwhole : s.KeysWhole := by
    have hslots : s.keys.map (·.slot) = keySlots := by
      simp [hkeys, keySlots, keyCount, Function.comp_def]
    exact keysWhole_iff.mpr (hslots ▸ .refl _)
  have hspells : s.Spells ⟨.replicate keyCount 18446744073709551615⟩ := by
    intro i
    have hmem : StoredKey.mk i.val (-1) ∈ s.keys :=
      hkeys ▸ List.mem_map_of_mem (f := fun n : Nat => StoredKey.mk n (-1)) (List.mem_range.mpr i.isLt)
    refine ⟨_, hmem, rfl, ?_⟩
    simp [Vector.get]
  have hshort : (s.keys.take 700).length = 700 := by simp [hkeys]
  have hsome : s.keys.take 700 ≠ [] := List.ne_nil_of_length_pos (by rw [hshort]; decide)
  have hcut : ¬ ({ s with keys := s.keys.take 700 } : Store).KeysWhole := by
    intro h
    have hlength := h.length_keysBySlot
    rw [keysBySlot, List.length_mergeSort, hshort] at hlength
    exact absurd hlength (by decide)
  obtain ⟨hread, -⟩ := keys_kept_or_refused s ⟨.replicate keyCount 0⟩
  obtain ⟨hrefused, -⟩ := keys_kept_or_refused { s with keys := s.keys.take 700 } ⟨.replicate keyCount 0⟩
  obtain ⟨-, hstored⟩ := keys_kept_or_refused .empty ⟨.replicate keyCount 0⟩
  obtain ⟨t, hopen, -, hlength, -⟩ := hstored rfl
  refine ⟨((hread hwhole.keys_ne_nil).1 _ _).mpr ⟨hwhole, hspells, rfl⟩, ?_, t, hopen, hlength⟩
  exact ((hrefused hsome).2.1 _).mpr ⟨hcut, by rw [hshort]⟩

end Store
end ChessArchive
