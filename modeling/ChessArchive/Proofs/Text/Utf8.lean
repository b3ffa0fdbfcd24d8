import Mathlib.Tactic.IntervalCases
import Mathlib.Tactic.SplitIfs
import ChessArchive.Text.Utf8

/-! Reading UTF-8 gives back the characters that were written. Bytes that are no UTF-8 are read line by line all the
    same. -/

namespace ChessArchive
namespace Text

theorem toNat_ofNat {n : Nat} (h : n < 256) : (UInt8.ofNat n).toNat = n := by
  rw [UInt8.toNat_ofNat']
  exact Nat.mod_eq_of_lt h

/-! ### First bytes -/

theorem lead?_one {n : Nat} (h : n < 128) : lead? (UInt8.ofNat n) = some ⟨0, 0x80, 0xbf, n⟩ := by
  rw [lead?, toNat_ofNat (by omega), if_pos (by omega)]

theorem lead?_two {n : Nat} (hlow : 2 ≤ n) (hhigh : n < 32) :
    lead? (UInt8.ofNat (n + 192)) = some ⟨1, 0x80, 0xbf, n⟩ := by
  rw [lead?, toNat_ofNat (by omega), if_neg (by omega), if_neg (by omega), if_pos (by omega),
    Nat.add_sub_cancel]

theorem lead?_three {n : Nat} (h : n < 16) :
    lead? (UInt8.ofNat (n + 224)) = some ⟨2, if n = 0 then 0xa0 else 0x80, if n = 13 then 0x9f else 0xbf, n⟩ := by
  interval_cases n <;> rfl

theorem lead?_four {n : Nat} (h : n < 5) :
    lead? (UInt8.ofNat (n + 240)) = some ⟨3, if n = 0 then 0x90 else 0x80, if n = 4 then 0x8f else 0xbf, n⟩ := by
  interval_cases n <;> rfl

/-! ### Whole characters -/

theorem utf8EncodeChar_eq (c : Char) :
    String.utf8EncodeChar c = if c.toNat ≤ 127 then [UInt8.ofNat c.toNat] else
      if c.toNat ≤ 2047 then [UInt8.ofNat (c.toNat / 64 % 32 + 192), UInt8.ofNat (c.toNat % 64 + 128)] else
      if c.toNat ≤ 65535 then [UInt8.ofNat (c.toNat / 4096 % 16 + 224), UInt8.ofNat (c.toNat / 64 % 64 + 128),
        UInt8.ofNat (c.toNat % 64 + 128)]
      else [UInt8.ofNat (c.toNat / 262144 % 8 + 240), UInt8.ofNat (c.toNat / 4096 % 64 + 128),
        UInt8.ofNat (c.toNat / 64 % 64 + 128), UInt8.ofNat (c.toNat % 64 + 128)] := rfl

/-- The bytes of a character above 127 are above 127 as well. -/
theorem byte_of_mem_encode {c : Char} {b : UInt8} (h : b ∈ String.utf8EncodeChar c) :
    b.toNat = c.toNat ∨ 127 < b.toNat := by
  have hlarge : ∀ n, 127 < n → n < 256 → b = UInt8.ofNat n → b.toNat = c.toNat ∨ 127 < b.toNat := by
    rintro n hlow hhigh rfl
    exact Or.inr (by rwa [toNat_ofNat hhigh])
  rw [utf8EncodeChar_eq] at h
  split at h
  · rw [List.mem_singleton.mp h]
    exact Or.inl (toNat_ofNat (by omega))
  · split at h <;> (try split at h) <;> simp only [List.mem_cons, List.not_mem_nil, or_false] at h
    · rcases h with h | h <;> exact hlarge _ (by omega) (by omega) h
    · rcases h with h | h | h <;> exact hlarge _ (by omega) (by omega) h
    · rcases h with h | h | h | h <;> exact hlarge _ (by omega) (by omega) h

/-- A byte that continues a character hands over its six bits. -/
theorem readRest_byte (more : Nat) {low high : UInt8} (bits : Nat) {n : Nat} (s : List UInt8) (h : n < 64)
    (hlow : low.toNat ≤ n + 128) (hhigh : n + 128 ≤ high.toNat) :
    readRest (more + 1) low high bits (UInt8.ofNat (n + 128) :: s) = readRest more 0x80 0xbf (64 * bits + n) s := by
  have hbyte := toNat_ofNat (n := n + 128) (by omega)
  have hwithin : low ≤ UInt8.ofNat (n + 128) ∧ UInt8.ofNat (n + 128) ≤ high := by
    rw [UInt8.le_iff_toNat_le, UInt8.le_iff_toNat_le, hbyte]
    exact ⟨hlow, hhigh⟩
  rw [readRest, if_pos hwithin, hbyte, show (n + 128) % 64 = n by omega]

theorem readRest_more (more : Nat) (bits : Nat) {n : Nat} (s : List UInt8) (h : n < 64) :
    readRest (more + 1) 0x80 0xbf bits (UInt8.ofNat (n + 128) :: s) = readRest more 0x80 0xbf (64 * bits + n) s :=
  readRest_byte more bits s h (Nat.le_add_left 128 n) (by change n + 128 ≤ 191; omega)

theorem decodeUtf8_cons {b : UInt8} {more : Nat} {low high : UInt8} {bits : Nat} {c : Char} {s t : List UInt8}
    (hlead : lead? b = some ⟨more, low, high, bits⟩) (hrest : readRest more low high bits s = (some c.toNat, t)) :
    decodeUtf8 (b :: s) = c :: decodeUtf8 t := by
  rw [decodeUtf8]
  simp only [hlead, hrest, Option.map_some, Option.getD_some, Char.ofNat_toNat]

/-- A character is read back from its bytes. -/
theorem decodeUtf8_encode (c : Char) (s : List UInt8) :
    decodeUtf8 (String.utf8EncodeChar c ++ s) = c :: decodeUtf8 s := by
  have hvalid : c.toNat < 0xd800 ∨ 0xdfff < c.toNat ∧ c.toNat < 0x110000 := c.valid
  have hmod : c.toNat % 64 < 64 := Nat.mod_lt _ (by decide)
  have hmod' : c.toNat / 64 % 64 < 64 := Nat.mod_lt _ (by decide)
  rw [utf8EncodeChar_eq]
  by_cases hone : c.toNat ≤ 127
  · rw [if_pos hone]
    exact decodeUtf8_cons (lead?_one (by omega)) rfl
  rw [if_neg hone]
  by_cases htwo : c.toNat ≤ 2047
  · rw [if_pos htwo]
    refine decodeUtf8_cons (lead?_two (by omega) (by omega)) ((readRest_more 0 _ s hmod).trans ?_)
    exact congrArg (fun n => (some n, s)) (by omega)
  rw [if_neg htwo]
  by_cases hthree : c.toNat ≤ 65535
  · rw [if_pos hthree]
    refine decodeUtf8_cons (lead?_three (Nat.mod_lt _ (by decide))) ?_
    refine (readRest_byte 1 _ (UInt8.ofNat (c.toNat % 64 + 128) :: s) hmod' ?_ ?_).trans
      ((readRest_more 0 _ s hmod).trans ?_)
    · split
      · change 160 ≤ _
        omega
      · change 128 ≤ _
        omega
    · split
      · change _ ≤ 159
        omega
      · change _ ≤ 191
        omega
    · exact congrArg (fun n => (some n, s)) (by omega)
  · rw [if_neg hthree]
    refine decodeUtf8_cons (lead?_four (by omega)) ?_
    refine (readRest_byte 2 _ (UInt8.ofNat (c.toNat / 64 % 64 + 128) :: UInt8.ofNat (c.toNat % 64 + 128) :: s)
      (Nat.mod_lt _ (by decide)) ?_ ?_).trans
      ((readRest_more 1 _ (UInt8.ofNat (c.toNat % 64 + 128) :: s) hmod').trans ((readRest_more 0 _ s hmod).trans ?_))
    · split
      · change 144 ≤ _
        omega
      · change 128 ≤ _
        omega
    · split
      · change _ ≤ 143
        omega
      · change _ ≤ 191
        omega
    · exact congrArg (fun n => (some n, s)) (by omega)

/-! ### Line feeds -/

/-- A first byte is a character by itself, or a continuation byte after it makes up a character that is no control
    character. -/
theorem lead?_spec {b : UInt8} {l : Lead} (h : lead? b = some l) :
    128 ≤ l.low.toNat ∧ l.high.toNat ≤ 191 ∧
      (l.more = 0 ∧ l.bits = b.toNat ∨ 0 < l.more ∧ 128 + 16 ≤ l.low.toNat + 64 * l.bits) := by
  simp only [lead?] at h
  split_ifs at h <;> cases h <;> refine ⟨by simp, by simp, ?_⟩
  · exact Or.inl ⟨rfl, rfl⟩
  all_goals exact Or.inr ⟨by simp, by simp only [UInt8.reduceToNat]; omega⟩

/-- A line feed continues no character. -/
theorem readRest_append_feed {low : UInt8} (hlow : 128 ≤ low.toNat) (n : Nat) (high : UInt8) (bits : Nat)
    (s t : List UInt8) : readRest n low high bits (s ++ 10 :: t) =
      ((readRest n low high bits s).1, (readRest n low high bits s).2 ++ 10 :: t) := by
  induction n generalizing low high bits s with
  | zero => rfl
  | succ n ih =>
    cases s with
    | nil =>
      have hfeed : ¬ (low ≤ 10 ∧ 10 ≤ high) := by
        rintro ⟨hle, -⟩
        have hle : low.toNat ≤ 10 := hle
        omega
      simp [readRest, hfeed]
    | cons b s =>
      rw [List.cons_append, readRest, readRest]
      split
      · exact ih (by decide) ..
      · rfl

theorem readRest_ge {n : Nat} {low high : UInt8} {bits code : Nat} {s t : List UInt8}
    (h : readRest n low high bits s = (some code, t)) : bits ≤ code := by
  induction n generalizing low high bits s with
  | zero =>
    cases h
    exact Nat.le_refl _
  | succ n ih =>
    cases s with
    | nil => cases h
    | cons b s =>
      rw [readRest] at h
      split at h
      · have hrest := ih h
        omega
      · cases h

/-- What takes more than one byte is not a line feed. -/
theorem readRest_ne_feed {n : Nat} {low high : UInt8} {bits code : Nat} {s t : List UInt8} (hn : 0 < n)
    (hhigh : high.toNat ≤ 191) (hbits : 128 + 16 ≤ low.toNat + 64 * bits) (hlow : 128 ≤ low.toNat)
    (h : readRest n low high bits s = (some code, t)) : 10 < code := by
  obtain ⟨n, rfl⟩ : ∃ m, n = m + 1 := ⟨n - 1, (Nat.sub_add_cancel hn).symm⟩
  cases s with
  | nil => cases h
  | cons b s =>
    rw [readRest] at h
    split at h
    · rename_i hwithin
      have hle : low.toNat ≤ b.toNat := hwithin.1
      have hge : b.toNat ≤ high.toNat := hwithin.2
      have hrest := readRest_ge h
      omega
    · cases h

theorem readRest_suffix (n : Nat) (low high : UInt8) (bits : Nat) (s : List UInt8) :
    (readRest n low high bits s).2 <:+ s := by
  induction n generalizing low high bits s with
  | zero => exact List.suffix_refl s
  | succ n ih =>
    cases s with
    | nil => exact List.suffix_refl []
    | cons b s =>
      rw [readRest]
      split
      · exact (ih ..).trans (List.suffix_cons b s)
      · exact List.suffix_refl _

/-- Bytes are read line by line: whatever is wrong with a line, its line feed is read as one. -/
theorem decodeUtf8_append_feed (s t : List UInt8) :
    decodeUtf8 (s ++ 10 :: t) = decodeUtf8 s ++ '\n' :: decodeUtf8 t := by
  induction s using decodeUtf8.induct with
  | case1 =>
    have hfeed : decodeUtf8 (10 :: t) = '\n' :: decodeUtf8 t := decodeUtf8_encode '\n' t
    rw [List.nil_append, hfeed, decodeUtf8, List.nil_append]
  | case2 b s hlead ih =>
    rw [List.cons_append, decodeUtf8, decodeUtf8]
    simp only [hlead, ih, List.cons_append]
  | case3 b s l hlead r ih =>
    rw [List.cons_append, decodeUtf8, decodeUtf8]
    simp only [hlead, readRest_append_feed (lead?_spec hlead).1, List.cons_append]
    rw [ih]

theorem decodeUtf8_ne_nil {s : List UInt8} (h : s ≠ []) : decodeUtf8 s ≠ [] := by
  obtain ⟨b, s, rfl⟩ := List.exists_cons_of_ne_nil h
  rw [decodeUtf8]
  split <;> exact List.cons_ne_nil _ _

theorem eq_of_ofNat_eq_feed {code : Nat} (h : Char.ofNat code = '\n') : code = 10 := by
  by_cases hvalid : code.isValidChar
  · have hchar : Char.ofNatAux code hvalid = '\n' := (dif_pos hvalid).symm.trans h
    exact congrArg Char.toNat hchar
  · have hnone : (⟨0, by decide⟩ : Char) = '\n' := (dif_neg hvalid).symm.trans h
    cases hnone

theorem feed_not_mem_decode {s : List UInt8} (h : 10 ∉ s) : '\n' ∉ decodeUtf8 s := by
  induction s using decodeUtf8.induct with
  | case1 => simp [decodeUtf8]
  | case2 b s hlead ih =>
    rw [List.mem_cons, not_or] at h
    rw [decodeUtf8]
    simp only [hlead, List.mem_cons, not_or]
    exact ⟨by decide, ih h.2⟩
  | case3 b s l hlead r ih =>
    rw [List.mem_cons, not_or] at h
    rw [decodeUtf8]
    simp only [hlead, List.mem_cons, not_or]
    refine ⟨?_, ih fun hmem => h.2 ((readRest_suffix ..).subset hmem)⟩
    cases hcode : (readRest l.more l.low l.high l.bits s).1 with
    | none => decide
    | some code =>
      intro hchar
      -- The code point is that of the byte, which is no line feed, or too large for one.
      have hread : readRest l.more l.low l.high l.bits s = (some code, _) := Prod.ext hcode rfl
      have hne : code ≠ 10 := by
        obtain ⟨hlow, hhigh, ⟨hmore, hbits⟩ | ⟨hmore, hbits⟩⟩ := lead?_spec hlead
        · rw [hmore] at hread
          obtain rfl : l.bits = code := by simpa [readRest] using hread
          rw [hbits]
          exact fun hten => h.1 (UInt8.toNat_inj.mp hten.symm)
        · exact Nat.ne_of_gt (readRest_ne_feed hmore hhigh hbits hlow hread)
      exact hne (eq_of_ofNat_eq_feed hchar.symm)

end Text
end ChessArchive
