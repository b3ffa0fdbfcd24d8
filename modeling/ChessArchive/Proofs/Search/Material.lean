import ChessArchive.Proofs.Material
import ChessArchive.Proofs.Search.Answers
import ChessArchive.Proofs.Search.Limits

/-! Searches for material. A signature stands for the number of each piece, so comparing signatures finds the positions
    with as many of each piece as a given board has. -/

namespace ChessArchive
open Placement

/-- A position has as many of each piece as stand on a board. -/
def StoredPosition.hasPieces (p : StoredPosition) (standing : Occupied) : Bool :=
  (decode p.board).toOption.any fun placed => SamePieces standing placed

theorem Plan.holds_ofMaterial (m : Material) (p : StoredPosition) :
    (ofMaterial m).holds p = decide (p.material = m.signature) := by
  have hconditions : (ofMaterial m).conditions = [.material m.signature] := rfl
  simp [holds, isNothing, hconditions, Condition.holds]

theorem StoredPosition.Derived.holds_ofMaterial {keys : FingerprintKeys} {p : StoredPosition} (h : p.Derived keys)
    {text : String} {standing : Occupied} (hstanding : decode text = .ok standing) :
    (Plan.ofMaterial (.ofOccupied standing)).holds p = p.hasPieces standing := by
  obtain ⟨m, hm, hsignature⟩ := h.material
  obtain ⟨placed, hplaced, rfl⟩ := map_ok_iff.mp hm
  rw [Plan.holds_ofMaterial, hsignature, StoredPosition.hasPieces, hplaced]
  refine decide_eq_decide.mpr ?_
  rw [eq_comm]
  exact Material.signature_ofOccupied_eq_iff hstanding hplaced

namespace Store

/-- A signature has 35 characters: for each piece, at its place, the number of it in two digits, which is at most 64.
    So two boards have the same signature exactly if they have the same number of each piece. In every store that
    operations lead to, a search for the material of a board finds the games that pass the filter and have a position
    with those numbers, with all such positions, on pages, unless a term of the filter is too long to be tried. -/
theorem material_search_counts :
    (∀ {text : String} {standing : Occupied}, decode text = .ok standing →
      ∃ m, Material.ofText text = .ok m ∧ m.signature.length = 35 ∧
        ∀ p, m.count p = standing.countP (·.2 = p) ∧ m.count p ≤ 64 ∧ (Material.padded (m.count p)).length = 2 ∧
          (m.signature.toList.drop (3 * p.index)).take 2 = Material.padded (m.count p)) ∧
    (∀ {text other : String} {standing placed : Occupied}, decode text = .ok standing → decode other = .ok placed →
      ∃ m n, Material.ofText text = .ok m ∧ Material.ofText other = .ok n ∧
        (m.signature = n.signature ↔ SamePieces standing placed)) ∧
    ∀ {tables : FingerprintKeys → Prop} {s : Store}, Reached tables s → ∀ (keys : FingerprintKeys) {r : SearchRequest}
      {standing : Occupied}, r.mode = .material → decode r.pattern = .ok standing → 0 < r.pageSize →
      ∃ all pages, s.Answers r.filter (·.hasPieces standing) all ∧ Paged all r.effectiveSize pages ∧
        ((∀ k, s.search keys { r with page := k + 1 } = .ok (pages k)) ∨
          (∃ c ∈ r.filter.conditions, c.isTooLong = true) ∧
            ∀ k, s.search keys { r with page := k + 1 } = .error .database) := by
  refine ⟨?_, ?_, ?_⟩
  · intro text standing h
    refine ⟨_, Material.ofText_ok h, Material.length_signature _, fun p => ?_⟩
    have hcount := Material.count_ofOccupied standing p
    have hle := countP_le h p
    rw [← hcount] at hle
    have hfield := Material.twoDigits_eq_padded (hle.trans_lt (by decide))
    exact ⟨hcount, hle, hfield ▸ rfl, (Material.take_signature _ p).trans hfield⟩
  · intro text other standing placed hstanding hplaced
    exact ⟨_, _, Material.ofText_ok hstanding, Material.ofText_ok hplaced,
      Material.signature_ofOccupied_eq_iff hstanding hplaced⟩
  · intro tables s h keys r standing hmode hstanding hsize
    have hs := h.sound
    have hplan : r.plan keys = .ok (some (.ofMaterial (.ofOccupied standing))) := by
      simp only [SearchRequest.plan, hmode, Material.ofText_ok hstanding, Except.mapError, Except.map]
    have hnone : (Plan.ofMaterial (.ofOccupied standing)).lookups = 0 := rfl
    have hfew := Plan.joinedTables_le (hnone.trans_le (Nat.zero_le 1)) r.filter
    obtain ⟨pages, hpaged, hsearch⟩ := hs.pages_or_refused hplan hfew hsize
    refine ⟨_, pages, hs.answers r.filter fun p hp => ?_, hpaged, hsearch⟩
    obtain ⟨k, -, hderived⟩ := hs.derived p hp
    exact hderived.holds_ofMaterial hstanding

/-- Eleven pawns and a knight are not one pawn and eleven knights, and the positions of a game are found by a board that
    has their pieces elsewhere. -/
theorem material_search_counts_elsewhere : ∃ g all pages,
    DecodedGame.ofRaw ⟨.replicate keyCount 0⟩ ⟨⟨[]⟩, ["e4"], none⟩ = .ok g ∧ Paged all 20 pages ∧
      (∀ k, (empty.insertAll [g]).2.search ⟨.replicate keyCount 0⟩
        ⟨.material, "pppppppp/rnbqkbnr/8/44/8/8/RNBQKBNR/PPPPPPPP", none, .empty, k + 1, 20⟩ = .ok (pages k)) ∧
      (∃ m ∈ all, ⟨1, some "e4"⟩ ∈ m.positions) ∧
      ∃ m n, Material.ofText "NNNNNNNN/NNNP4/8/8/8/8/8/8" = .ok m ∧
        Material.ofText "PPPPPPPP/PPPN4/8/8/8/8/8/8" = .ok n ∧ m.signature ≠ n.signature ∧ m.signature.length = 35 := by
  obtain ⟨g, hg, p, hp, hnumber, hsan, hboard⟩ : ∃ g,
      DecodedGame.ofRaw ⟨.replicate keyCount 0⟩ ⟨⟨[]⟩, ["e4"], none⟩ = .ok g ∧
        ∃ p ∈ (empty.insertAll [g]).2.positions, p.number = 1 ∧ p.san = some "e4" ∧
          p.board = "rnbqkbnr/pppppppp/8/8/4P3/8/PPPP1PPP/RNBQKBNR" :=
    exists_ok_of_all (by decide +kernel)
  obtain ⟨standing, hstanding, hsame⟩ : ∃ standing,
      Placement.decode "pppppppp/rnbqkbnr/8/44/8/8/RNBQKBNR/PPPPPPPP" = .ok standing ∧
        (Placement.decode "rnbqkbnr/pppppppp/8/8/4P3/8/PPPP1PPP/RNBQKBNR").toOption.any
          (fun placed => SamePieces standing placed) = true :=
    exists_ok_of_all (by decide +kernel)
  obtain ⟨knights, hknights, hmany⟩ : ∃ knights, Placement.decode "NNNNNNNN/NNNP4/8/8/8/8/8/8" = .ok knights ∧
      knights.countP (·.2 = ⟨.white, .knight⟩) = 11 := exists_ok_of_all (by decide +kernel)
  obtain ⟨pawns, hpawns, hfew⟩ : ∃ pawns, Placement.decode "PPPPPPPP/PPPN4/8/8/8/8/8/8" = .ok pawns ∧
      pawns.countP (·.2 = ⟨.white, .knight⟩) = 1 := exists_ok_of_all (by decide +kernel)
  have hreached : Reached (fun _ => True) (empty.insertAll [g]).2 := .step .empty trivial (.of_accepted hg _)
  obtain ⟨all, pages, hanswers, hpaged, hsearch⟩ := material_search_counts.2.2 hreached ⟨.replicate keyCount 0⟩
    (r := ⟨.material, "pppppppp/rnbqkbnr/8/44/8/8/RNBQKBNR/PPPPPPPP", none, .empty, 1, 20⟩) rfl hstanding (by decide)
  have hpages := hsearch.resolve_right fun h => absurd h.1 (by decide)
  obtain ⟨m, n, hm, hn, hequal⟩ := material_search_counts.2.1 hknights hpawns
  obtain ⟨m', hm', hlength, -⟩ := material_search_counts.1 hknights
  obtain rfl : m' = m := Except.ok.inj (hm'.symm.trans hm)
  have hdiffer : m'.signature ≠ n.signature := fun h => by
    have hcounts := hequal.mp h ⟨.white, .knight⟩
    rw [hmany, hfew] at hcounts
    exact absurd hcounts (by decide)
  obtain ⟨game, hgames, hid⟩ := hreached.sound.owners p hp
  have hpieces : p.hasPieces standing = true := by rw [StoredPosition.hasPieces, hboard, hsame]
  obtain ⟨found, hfound, rfl⟩ := (hanswers.games game).mpr ⟨hgames, rfl, p, hp, hid.symm, hpieces⟩
  have hlisted := (hanswers.positions found hfound _).mpr ⟨p, hp, hid.symm, hpieces, rfl⟩
  rw [hnumber, hsan] at hlisted
  exact ⟨g, all, pages, hg, hpaged, hpages, ⟨found, hfound, hlisted⟩, m', n, hm, hn, hdiffer, hlength⟩

end Store
end ChessArchive
