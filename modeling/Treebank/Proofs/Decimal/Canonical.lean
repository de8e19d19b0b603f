import Treebank.Decimal.Numeral
import Treebank.Proofs.Decimal.Shortest

/-!
# Values of the format

Whatever is rounded is a value of the format: as a ratio (`canonical_ofRatio`) and as a decimal (`canonical_ofDecimal`). So is every
numeral that is read (`canonical_float?`).
-/

namespace Treebank

namespace Binary64

/-- Zero is a value of the format. -/
theorem canonical_zero (negative : Bool) : (zero negative).Canonical := ⟨by decide, by decide, fun h => absurd h (by decide)⟩

/-- A ratio in units of a power of two, cut down to an integer, is below a power of two as its magnitude says. -/
theorem scaled_lt_iff {num den : Nat} (hnum : 0 < num) (hden : 0 < den) (q : Int) (d : Nat) :
    num * twoTo (-q).toNat / (den * twoTo q.toNat) < twoTo d ↔ binaryMagnitude num den < d + q := by
  have hpos : 0 < den * twoTo q.toNat := Nat.mul_pos hden (twoTo_pos _)
  rw [binaryMagnitude_lt_iff hnum hden, ← ratio_scaled, div_lt_iff₀ (by exact_mod_cast hpos), Nat.div_lt_iff_lt_mul hpos, zpow_natCast,
    ← cast_twoTo]
  norm_cast

/-- A mantissa that was rounded to, and that may have come to the end of its binade, with its exponent is a value of the format. -/
theorem canonical_carried (negative : Bool) {m : Nat} {q : Int} (hm : m ≤ twoTo 53) (hq : -1074 ≤ q)
    (hlow : -1074 < q → twoTo 52 ≤ m) :
    (let (m, q) := if m = twoTo 53 then (twoTo 52, q + 1) else (m, q)
      if m = 0 then zero negative else if q > 971 then .infinite negative else .finite negative m q).Canonical := by
  have hends : twoTo 52 = 2 ^ 52 ∧ twoTo 53 = 2 ^ 53 := ⟨rfl, rfl⟩
  by_cases htop : m = twoTo 53
  · rw [if_pos htop]
    dsimp only
    rw [if_neg (twoTo_pos 52).ne']
    split
    · trivial
    · exact ⟨by omega, ⟨by omega, by omega⟩, fun _ => by omega⟩
  · rw [if_neg htop]
    dsimp only
    split
    · exact canonical_zero negative
    split
    · trivial
    · exact ⟨by omega, ⟨hq, by omega⟩, fun h => by have := hlow h; omega⟩

/-- A ratio is rounded to a value of the format. -/
theorem canonical_ofRatio (negative : Bool) (num den : Nat) : (ofRatio negative num den).Canonical := by
  unfold ofRatio
  split
  · exact canonical_zero negative
  rename_i hparts
  obtain ⟨hnum, hden⟩ : 0 < num ∧ 0 < den := by
    rw [Bool.or_eq_true, decide_eq_true_eq, decide_eq_true_eq, not_or] at hparts
    omega
  dsimp only
  obtain ⟨q, hq⟩ : ∃ q, q = max (binaryMagnitude num den - 52) (-1074) := ⟨_, rfl⟩
  rw [← hq]
  have hbelow := (scaled_lt_iff hnum hden q 53).2 (by omega)
  have habove : -1074 < q → twoTo 52 ≤ num * twoTo (-q).toNat / (den * twoTo q.toNat) := by
    intro hnormal
    rw [← not_lt, scaled_lt_iff hnum hden]
    omega
  rcases roundDiv_cases (num * twoTo (-q).toNat) (den * twoTo q.toNat) with hround | hround
  · exact canonical_carried negative (by omega) (by omega) fun h => by have := habove h; omega
  · exact canonical_carried negative (by omega) (by omega) fun h => by have := habove h; omega

/-- A decimal is rounded to a value of the format. -/
theorem canonical_ofDecimal (negative : Bool) (digits : Nat) (exponent : Int) : (ofDecimal negative digits exponent).Canonical := by
  unfold ofDecimal
  dsimp only
  split
  · exact canonical_zero negative
  split
  · trivial
  split
  · exact canonical_zero negative
  · exact canonical_ofRatio ..

/-- A numeral is read as a value of the format. -/
theorem canonical_float? {cs : List Char} {x : Binary64} (h : Numeral.float? cs = some x) : x.Canonical := by
  obtain ⟨body, -, h⟩ := Option.bind_eq_some_iff.1 h
  dsimp only at h
  split at h
  · cases h
    trivial
  split at h
  · cases h
    trivial
  obtain ⟨n, -, h⟩ := Option.bind_eq_some_iff.1 h
  obtain ⟨g, -, h⟩ := Option.bind_eq_some_iff.1 h
  cases h
  exact canonical_ofDecimal ..

end Binary64

end Treebank
