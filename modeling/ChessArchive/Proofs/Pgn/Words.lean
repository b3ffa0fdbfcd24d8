import Mathlib.Tactic.SplitIfs
import ChessArchive.Game.Raw
import ChessArchive.Proofs.Reading
import ChessArchive.Proofs.Text.Blank

/-! The moves that files of games give. Whatever a file holds, each of them is a word: it is not empty, and there is no
    blank in it. -/

namespace ChessArchive
namespace Pgn
open Text

theorem push_words {word : List Char} {w : Words} (hword : ∀ c ∈ word, isBlank c = false)
    (hw : ∀ v ∈ w.words, IsWord v) : ∀ v ∈ (w.push word).words, IsWord v := by
  unfold Words.push
  split
  · exact hw
  · rename_i hne
    exact List.forall_mem_cons.mpr ⟨⟨hne, hword⟩, hw⟩

/-- Movetext is cut into words. -/
theorem cut_words {region : Region} {depth : Nat} {word s : List Char} (hword : ∀ c ∈ word, isBlank c = false) :
    ∀ w ∈ (cut region depth word s).words, IsWord w := by
  have hnil : ∀ c ∈ ([] : List Char), isBlank c = false := nofun
  have hreverse : ∀ {word : List Char}, (∀ c ∈ word, isBlank c = false) → ∀ c ∈ word.reverse, isBlank c = false :=
    fun h c hc => h c (List.mem_reverse.mp hc)
  induction s generalizing region depth word with
  | nil =>
    cases region with
    | line => exact push_words (hreverse hword) nofun
    | brace | remark => exact nofun
  | cons c s ih =>
    cases region with
    | brace =>
      rw [cut]
      split <;> exact ih hnil
    | remark =>
      rw [cut]
      split <;> exact ih hnil
    | line =>
      have hpush : ∀ region depth, ∀ w ∈ (Words.push word.reverse (cut region depth [] s)).words, IsWord w :=
        fun _ _ => push_words (hreverse hword) (ih hnil)
      rw [cut]
      split_ifs with hbrace hremark hdown hup hblank hmain
      -- Five signs end the word; any other character is taken into it, unless it is in a variation.
      · exact hpush _ _
      · exact hpush _ _
      · exact hpush _ _
      · exact hpush _ _
      · exact hpush _ _
      · exact ih (List.forall_mem_cons.mpr ⟨by simpa using hblank, hword⟩)
      · exact ih hword

/-- What is left of a word without its number is part of it. -/
theorem dropNumber_suffix (word : List Char) : dropNumber word <:+ word := by
  simp only [dropNumber]
  split
  · exact (List.dropWhile_suffix _).trans (List.dropWhile_suffix _)
  · exact List.suffix_refl _

theorem moveOf?_word {word : List Char} (hword : IsWord word) {m : String} (h : moveOf? word = some m) :
    IsWord m.toList := by
  have hsuffix := dropNumber_suffix word
  unfold moveOf? at h
  split at h
  · cases h
  · rename_i c s hrest
    split at h
    · cases h
    · cases h
      rw [hrest] at hsuffix
      rw [String.toList_ofList]
      exact ⟨List.cons_ne_nil c s, fun d hd => hword.2 d (hsuffix.subset hd)⟩

theorem readMoves_words {words : List (List Char)} (h : ∀ w ∈ words, IsWord w) :
    ∀ m ∈ (readMoves words).1, IsWord m.toList := by
  induction words with
  | nil => exact nofun
  | cons word rest ih =>
    rw [List.forall_mem_cons] at h
    unfold readMoves
    split
    · exact nofun
    · rw [List.forall_mem_append]
      refine ⟨fun m hm => moveOf?_word h.1 (Option.mem_toList.mp hm), ih h.2⟩

theorem parse_words {text : List Char} {g : PgnGame} (h : parse text = .ok g) : ∀ m ∈ g.moves, IsWord m.toList := by
  obtain ⟨⟨tags, lines⟩, -, h⟩ := bind_ok_iff.mp h
  have hcut : ∀ w ∈ (words (['\n'].intercalate lines)).words, IsWord w := cut_words nofun
  have hmoves := readMoves_words hcut
  dsimp only at h
  split at h
  · cases h
  · split at h
    · rename_i moves result hread
      rw [hread] at hmoves
      cases h
      exact hmoves
    · rename_i moves hread
      rw [hread] at hmoves
      split at h
      · cases h
        exact hmoves
      · cases h

theorem readAll_words {bytes : List UInt8} {ending : Ending} {g : PgnGame} (h : .ok g ∈ readAll bytes ending) :
    ∀ m ∈ g.moves, IsWord m.toList := by
  obtain ⟨text, hparse⟩ : ∃ text, parse text = .ok g := by
    cases ending with
    | finished =>
      obtain ⟨text, -, hparse⟩ := List.mem_map.mp h
      exact ⟨text, hparse⟩
    | failed cause =>
      rcases List.mem_append.mp h with h | h
      · obtain ⟨text, -, hparse⟩ := List.mem_map.mp h
        exact ⟨text, hparse⟩
      · cases List.mem_singleton.mp h
  exact parse_words hparse

end Pgn

/-- The moves of the games of a source are words. -/
theorem RawGame.ofSource_words {bytes : List UInt8} {ending : Pgn.Ending} {raw : RawGame}
    (h : raw ∈ (ofSource bytes ending).1) : ∀ m ∈ raw.moves, Text.IsWord m.toList := by
  obtain ⟨r, hr, hraw⟩ := List.mem_filterMap.mp h
  obtain ⟨g, hg, rfl⟩ := Option.map_eq_some_iff.mp hraw
  obtain rfl : r = .ok g := by
    cases r with
    | ok g' => exact congrArg Except.ok (Option.some.inj hg)
    | error _ => cases hg
  exact Pgn.readAll_words hr

end ChessArchive
