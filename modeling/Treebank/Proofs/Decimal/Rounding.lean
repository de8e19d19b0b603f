import Treebank.Decimal.Binary64
import Mathlib.Algebra.Order.Field.Power
import Mathlib.Data.Rat.Cast.Order
import Mathlib.Tactic.FieldSimp
import Mathlib.Tactic.Linarith
import Mathlib.Tactic.NormNum
import Mathlib.Tactic.Positivity
import Mathlib.Tactic.Ring

/-!
# Rounding to binary floating point values

The rationals that round to a positive value form an interval (`Rounds`). Whatever lies in it is rounded to the value, as a ratio
(`ofRatio_eq`) and as a decimal (`ofDecimal_eq`).
-/

namespace Treebank.Binary64

/-- Whether a value is one of the format: the mantissa of a finite one is below `2 ^ 53`, the exponent lies between `-1074` and `971`,
and above the least exponent the mantissa is at least `2 ^ 52`. -/
def Canonical : Binary64 → Prop
  | .finite _ m q => m < 2 ^ 53 ∧ (-1074 ≤ q ∧ q ≤ 971) ∧ (-1074 < q → 2 ^ 52 ≤ m)
  | _ => True

instance : DecidablePred Canonical := fun x =>
  match x with
  | .finite _ m q => inferInstanceAs (Decidable (m < 2 ^ 53 ∧ (-1074 ≤ q ∧ q ≤ 971) ∧ (-1074 < q → 2 ^ 52 ≤ m)))
  | .infinite _ => .isTrue trivial
  | .notANumber => .isTrue trivial

/-! ## Powers -/

/-- A power with an integer exponent, as a ratio of powers with natural exponents. -/
theorem pow_toNat_div (b : ℚ) (q : Int) : b ^ q.toNat / b ^ (-q).toNat = b ^ q := by
  rcases Int.le_total 0 q with h | h
  · obtain ⟨n, rfl⟩ := Int.eq_ofNat_of_zero_le h
    simp
  · obtain ⟨n, hn⟩ := Int.eq_ofNat_of_zero_le (Int.neg_nonneg_of_nonpos h)
    obtain rfl : q = -(n : Int) := by omega
    simp

/-- A power of two as a rational. -/
theorem cast_twoTo (n : Nat) : ((twoTo n : Nat) : ℚ) = 2 ^ n := by
  show ((2 ^ n : Nat) : ℚ) = 2 ^ n
  push_cast
  rfl

/-- A power of ten as a rational. -/
theorem cast_tenTo (n : Nat) : ((tenTo n : Nat) : ℚ) = 10 ^ n := by
  show ((10 ^ n : Nat) : ℚ) = 10 ^ n
  push_cast
  rfl

/-- Powers of two are positive. -/
theorem twoTo_pos (n : Nat) : 0 < twoTo n := Nat.two_pow_pos n

/-- Powers of ten are positive. -/
theorem tenTo_pos (n : Nat) : 0 < tenTo n := Nat.pow_pos (by decide)

/-- A ratio in units of a power of two. -/
theorem ratio_scaled (num den : Nat) (q : Int) :
    ((num * twoTo (-q).toNat : Nat) : ℚ) / ((den * twoTo q.toNat : Nat) : ℚ) = (num / den : ℚ) / 2 ^ q := by
  rw [Nat.cast_mul, Nat.cast_mul, cast_twoTo, cast_twoTo, ← pow_toNat_div 2 q, div_div_div_eq]

/-! ## Rounding to an integer -/

/-- A ratio is rounded to the integer that is at most a half away from it, and to the even one of two. -/
theorem roundDiv_eq {num den r : Nat} (hlow : 2 * (r * den) ≤ 2 * num + den) (hhigh : 2 * num ≤ 2 * (r * den) + den)
    (hodd : r % 2 = 1 → 2 * (r * den) < 2 * num + den ∧ 2 * num < 2 * (r * den) + den) (hden : 0 < den) :
    roundDiv num den = r := by
  have hnum := Nat.div_add_mod num den
  have hmod := Nat.mod_lt num hden
  unfold roundDiv
  generalize num / den = k at hnum
  generalize num % den = s at hnum hmod
  subst hnum
  have hle : r ≤ k + 1 := by
    have hlt : r * den < (k + 2) * den := by nlinarith
    exact Nat.lt_succ_iff.1 (Nat.lt_of_mul_lt_mul_right hlt)
  have hge : k ≤ r := by
    have hlt : k * den < (r + 1) * den := by nlinarith
    exact Nat.lt_succ_iff.1 (Nat.lt_of_mul_lt_mul_right hlt)
  obtain rfl | rfl : r = k ∨ r = k + 1 := by omega
  · rw [Nat.mul_comm den r] at hlow hhigh hodd
    rcases hs : compare (2 * s) den with _ | _ | _
    · rfl
    · have hs := Nat.compare_eq_eq.1 hs
      have heven : r % 2 = 0 := by
        by_contra hne
        have := (hodd (by omega)).2
        omega
      simp [heven]
    · have hs := Nat.compare_eq_gt.1 hs
      omega
  · rw [Nat.mul_comm den k, Nat.add_mul, Nat.one_mul] at hlow hhigh hodd
    rcases hs : compare (2 * s) den with _ | _ | _
    · have hs := Nat.compare_eq_lt.1 hs
      omega
    · have hs := Nat.compare_eq_eq.1 hs
      have hparity : k % 2 = 1 := by
        by_contra hne
        have := (hodd (by omega)).1
        omega
      simp [hparity]
    · rfl

/-- A ratio is rounded to the integer that is at most a half away from it, and to the even one of two. -/
theorem roundDiv_eq_of_div_eq {num den r : Nat} (hden : 0 < den) {y : ℚ} (hy : (num : ℚ) / den = y) (hlow : (r : ℚ) ≤ y + 1 / 2)
    (hhigh : y ≤ r + 1 / 2) (hodd : r % 2 = 1 → (r : ℚ) < y + 1 / 2 ∧ y < r + 1 / 2) : roundDiv num den = r := by
  have hpos : (0 : ℚ) < den := Nat.cast_pos.2 hden
  have hnum : (num : ℚ) = y * den := (div_eq_iff hpos.ne').1 hy
  have hle : ∀ {a b : Nat}, (a : ℚ) ≤ b → a ≤ b := Nat.cast_le.1
  have hlt : ∀ {a b : Nat}, (a : ℚ) < b → a < b := Nat.cast_lt.1
  refine roundDiv_eq (hle ?_) (hle ?_) (fun h => ?_) hden
  · push_cast
    rw [hnum]
    nlinarith
  · push_cast
    rw [hnum]
    nlinarith
  · obtain ⟨h1, h2⟩ := hodd h
    refine ⟨hlt ?_, hlt ?_⟩
    · push_cast
      rw [hnum]
      nlinarith
    · push_cast
      rw [hnum]
      nlinarith

/-! ## Magnitudes -/

/-- The magnitude of a ratio is the exponent of the greatest power of two that is not above it. -/
theorem binaryMagnitude_spec {num den : Nat} (hnum : 0 < num) (hden : 0 < den) :
    (2 : ℚ) ^ binaryMagnitude num den ≤ num / den ∧ (num / den : ℚ) < 2 ^ (binaryMagnitude num den + 1) := by
  have hn : (0 : ℚ) < num := Nat.cast_pos.2 hnum
  have hd : (0 : ℚ) < den := Nat.cast_pos.2 hden
  have hnlow : (2 : ℚ) ^ (num.log2 : Int) ≤ num := by
    rw [zpow_natCast]
    exact_mod_cast Nat.log2_self_le hnum.ne'
  have hnhigh : (num : ℚ) < 2 ^ ((num.log2 : Int) + 1) := by
    rw [← Nat.cast_succ, zpow_natCast]
    exact_mod_cast Nat.lt_log2_self
  have hdlow : (2 : ℚ) ^ (den.log2 : Int) ≤ den := by
    rw [zpow_natCast]
    exact_mod_cast Nat.log2_self_le hden.ne'
  have hdhigh : (den : ℚ) < 2 ^ ((den.log2 : Int) + 1) := by
    rw [← Nat.cast_succ, zpow_natCast]
    exact_mod_cast Nat.lt_log2_self
  -- The ratio lies within a factor of two of the ratio of the powers of two below its parts.
  have hbelow : (2 : ℚ) ^ ((num.log2 : Int) - den.log2 - 1) ≤ num / den := by
    rw [le_div_iff₀ hd]
    calc (2 : ℚ) ^ ((num.log2 : Int) - den.log2 - 1) * den
        ≤ 2 ^ ((num.log2 : Int) - den.log2 - 1) * 2 ^ ((den.log2 : Int) + 1) := by gcongr
      _ = 2 ^ (num.log2 : Int) := by rw [← zpow_add₀ two_ne_zero]; congr 1; ring
      _ ≤ num := hnlow
  have habove : (num / den : ℚ) < 2 ^ ((num.log2 : Int) - den.log2 + 1) := by
    rw [div_lt_iff₀ hd]
    calc (num : ℚ) < 2 ^ ((num.log2 : Int) + 1) := hnhigh
      _ = 2 ^ ((num.log2 : Int) - den.log2 + 1) * 2 ^ (den.log2 : Int) := by rw [← zpow_add₀ two_ne_zero]; congr 1; ring
      _ ≤ 2 ^ ((num.log2 : Int) - den.log2 + 1) * den := by gcongr
  have hcompare : num * twoTo (-((num.log2 : Int) - den.log2)).toNat < den * twoTo ((num.log2 : Int) - den.log2).toNat ↔
      (num / den : ℚ) < 2 ^ ((num.log2 : Int) - den.log2) := by
    rw [← pow_toNat_div 2, div_lt_div_iff₀ hd (by positivity), ← cast_twoTo, ← cast_twoTo, mul_comm (twoTo _ : ℚ)]
    norm_cast
  unfold binaryMagnitude
  dsimp only
  split
  · rename_i hlt
    refine ⟨hbelow, ?_⟩
    rw [sub_add_cancel]
    exact hcompare.1 hlt
  · rename_i hnot
    exact ⟨not_lt.1 fun hlt => hnot (hcompare.2 hlt), habove⟩

section Magnitude

variable {num den : Nat} {d q : Int}

/-- The magnitude of a ratio is below an exponent exactly if the ratio, in units of a power of two, is below the power that is left. -/
theorem binaryMagnitude_lt_iff (hnum : 0 < num) (hden : 0 < den) :
    binaryMagnitude num den < d + q ↔ (num / den : ℚ) / 2 ^ q < 2 ^ d := by
  obtain ⟨hlow, hhigh⟩ := binaryMagnitude_spec hnum hden
  rw [div_lt_iff₀ (by positivity), ← zpow_add₀ two_ne_zero]
  constructor
  · intro h
    exact hhigh.trans_le (zpow_le_zpow_right₀ one_le_two h)
  · intro h
    exact (zpow_lt_zpow_iff_right₀ one_lt_two).1 (hlow.trans_lt h)

/-- It is not below the exponent exactly if the ratio is not below the power. -/
theorem le_binaryMagnitude_iff (hnum : 0 < num) (hden : 0 < den) :
    d + q ≤ binaryMagnitude num den ↔ (2 : ℚ) ^ d ≤ (num / den : ℚ) / 2 ^ q := by
  rw [← not_lt, binaryMagnitude_lt_iff hnum hden, not_lt]

end Magnitude

/-! ## Rounding to a value -/

/-- The lower end of the interval that rounds to `m * 2 ^ q`, in quarters of `2 ^ q`: where the value is the least of its binade, the
neighbour below is only half as far away as the one above. -/
def lowEnd (m : Nat) (q : Int) : Nat := if m = twoTo 52 && decide (q > -1074) then 4 * m - 1 else 4 * m - 2

/-- Whether a rational rounds to `m * 2 ^ q`. -/
def Rounds (m : Nat) (q : Int) (x : ℚ) : Prop :=
  if m % 2 = 0 then (lowEnd m q : ℚ) * 2 ^ q ≤ 4 * x ∧ 4 * x ≤ (4 * m + 2) * 2 ^ q
  else (lowEnd m q : ℚ) * 2 ^ q < 4 * x ∧ 4 * x < (4 * m + 2) * 2 ^ q

/-- What rounds to a value lies between its ends, on none of them if the mantissa is odd. -/
theorem Rounds.ends {m : Nat} {q : Int} {x : ℚ} (h : Rounds m q x) :
    (lowEnd m q : ℚ) ≤ 4 * (x / 2 ^ q) ∧ 4 * (x / 2 ^ q) ≤ 4 * m + 2 ∧
      (m % 2 = 1 → (lowEnd m q : ℚ) < 4 * (x / 2 ^ q) ∧ 4 * (x / 2 ^ q) < 4 * m + 2) := by
  have hpos : (0 : ℚ) < 2 ^ q := by positivity
  rw [← mul_div_assoc, le_div_iff₀ hpos, div_le_iff₀ hpos, lt_div_iff₀ hpos, div_lt_iff₀ hpos]
  unfold Rounds at h
  split at h
  · rename_i heven
    exact ⟨h.1, h.2, fun hodd => by omega⟩
  · exact ⟨h.1.le, h.2.le, fun _ => h⟩

/-- The lower end is a half below the value, or only a quarter. -/
theorem lowEnd_cases {m : Nat} (hm : 0 < m) (q : Int) :
    ((lowEnd m q : ℚ) = 4 * m - 2 ∧ ¬ (m = 2 ^ 52 ∧ -1074 < q)) ∨ ((lowEnd m q : ℚ) = 4 * m - 1 ∧ m = 2 ^ 52 ∧ -1074 < q) := by
  have htwo : twoTo 52 = 2 ^ 52 := rfl
  unfold lowEnd
  split
  · rename_i h
    rw [Bool.and_eq_true, decide_eq_true_eq, decide_eq_true_eq, htwo] at h
    refine Or.inr ⟨?_, h.1, h.2⟩
    rw [Nat.cast_sub (by omega)]
    push_cast
    ring
  · rename_i h
    rw [Bool.and_eq_true, decide_eq_true_eq, decide_eq_true_eq, htwo] at h
    refine Or.inl ⟨?_, h⟩
    rw [Nat.cast_sub (by omega)]
    push_cast
    ring

/-- What rounds to a value is below the end of its binade: the greatest mantissa is odd. -/
theorem Rounds.lt_top {m : Nat} {q : Int} {x : ℚ} (h : Rounds m q x) (hm : m < 2 ^ 53) : x / 2 ^ q < 2 ^ (53 : Int) := by
  obtain ⟨-, hhigh, hodd⟩ := h.ends
  have htop : (2 : ℚ) ^ (53 : Int) = ((2 ^ 53 : Nat) : ℚ) := by norm_num
  rw [htop]
  by_cases hlast : m = 2 ^ 53 - 1
  · have := (hodd (by omega)).2
    subst hlast
    push_cast at this ⊢
    linarith
  · have hle : m + 2 ≤ 2 ^ 53 := by omega
    have hle : (m : ℚ) + 2 ≤ ((2 ^ 53 : Nat) : ℚ) := by exact_mod_cast hle
    linarith

section Ratio

variable {negative : Bool} {m num den : Nat} {q : Int} {y : ℚ}

/-- A ratio, in units of the power of two that its magnitude asks for, is rounded to the mantissa that is at most a half away from it, and
to the even one of two. -/
theorem ofRatio_eq_of_near (hnum : 0 < num) (hden : 0 < den) (hunit : max (binaryMagnitude num den - 52) (-1074) = q)
    (hm : 0 < m) (hlt : m < 2 ^ 53) (hq : q ≤ 971) (hy : (num / den : ℚ) / 2 ^ q = y) (hlow : (m : ℚ) ≤ y + 1 / 2)
    (hhigh : y ≤ m + 1 / 2) (hodd : m % 2 = 1 → (m : ℚ) < y + 1 / 2 ∧ y < m + 1 / 2) :
    ofRatio negative num den = .finite negative m q := by
  have hround : roundDiv (num * twoTo (-q).toNat) (den * twoTo q.toNat) = m :=
    roundDiv_eq_of_div_eq (Nat.mul_pos hden (twoTo_pos _)) ((ratio_scaled num den q).trans hy) hlow hhigh hodd
  have hparts : (num = 0 || den = 0) = false := by simp [hnum.ne', hden.ne']
  have hcarry : m ≠ twoTo 53 := fun h => absurd hlt (by rw [h]; exact Nat.lt_irrefl _)
  unfold ofRatio
  simp only [hparts, hunit, hround, Bool.false_eq_true, if_false, if_neg hcarry, if_neg hm.ne', if_neg (show ¬ q > 971 by omega)]

/-- A ratio that is less than a half below the end of its binade is rounded to the least value of the next one. -/
theorem ofRatio_eq_of_carry (hnum : 0 < num) (hden : 0 < den) (hunit : max (binaryMagnitude num den - 52) (-1074) = q)
    (hq : q < 971) (hy : (num / den : ℚ) / 2 ^ q = y) (hlow : (2 : ℚ) ^ (53 : Int) ≤ y + 1 / 2) (hhigh : y < 2 ^ (53 : Int)) :
    ofRatio negative num den = .finite negative (2 ^ 52) (q + 1) := by
  have hround : roundDiv (num * twoTo (-q).toNat) (den * twoTo q.toNat) = twoTo 53 := by
    refine roundDiv_eq_of_div_eq (Nat.mul_pos hden (twoTo_pos _)) ((ratio_scaled num den q).trans hy) ?_ ?_ fun h => absurd h (by decide)
    · rw [cast_twoTo]
      exact hlow
    · rw [cast_twoTo]
      norm_num at hhigh ⊢
      linarith
  have hparts : (num = 0 || den = 0) = false := by simp [hnum.ne', hden.ne']
  unfold ofRatio
  simp only [hparts, hunit, hround, Bool.false_eq_true, if_false, if_true, if_neg (show ¬ q + 1 > 971 by omega),
    if_neg (show twoTo 52 ≠ 0 by decide)]
  rfl

/-- A ratio that rounds to a value is rounded to it. -/
theorem ofRatio_eq (hm : 0 < m) (hc : Canonical (.finite negative m q)) (hnum : 0 < num) (hden : 0 < den)
    (hx : Rounds m q (num / den)) : ofRatio negative num den = .finite negative m q := by
  obtain ⟨hlt, ⟨hqlow, hqhigh⟩, hnormal⟩ := hc
  obtain ⟨hlow, hhigh, hodd⟩ := hx.ends
  have htop := (binaryMagnitude_lt_iff hnum hden).2 (hx.lt_top hlt)
  obtain ⟨y, hy⟩ : ∃ y : ℚ, (num / den : ℚ) / 2 ^ q = y := ⟨_, rfl⟩
  rw [hy] at hlow hhigh hodd
  rcases lowEnd_cases hm q with ⟨hquarters, hgeneric⟩ | ⟨hquarters, rfl, hq⟩
  · rw [hquarters] at hlow hodd
    have hunit : max (binaryMagnitude num den - 52) (-1074) = q := by
      by_cases hq : -1074 < q
      · have hmlow : 2 ^ 52 + 1 ≤ m := by
          have := hnormal hq
          omega
        have hmlow : ((2 ^ 52 : Nat) : ℚ) + 1 ≤ m := by exact_mod_cast hmlow
        have hbottom : (2 : ℚ) ^ (52 : Int) ≤ y := by
          have hcast : (2 : ℚ) ^ (52 : Int) = ((2 ^ 52 : Nat) : ℚ) := by norm_num
          rw [hcast]
          linarith
        have := (le_binaryMagnitude_iff hnum hden).2 (hbottom.trans_eq hy.symm)
        omega
      · omega
    refine ofRatio_eq_of_near hnum hden hunit hm hlt hqhigh hy (by linarith) (by linarith) fun h => ?_
    obtain ⟨h1, h2⟩ := hodd h
    exact ⟨by linarith, by linarith⟩
  · rw [hquarters] at hlow
    by_cases hbottom : (2 : ℚ) ^ (52 : Int) ≤ y
    · have := (le_binaryMagnitude_iff hnum hden).2 (hbottom.trans_eq hy.symm)
      refine ofRatio_eq_of_near hnum hden (by omega) hm hlt hqhigh hy ?_ ?_ fun h => by norm_num at h
      · push_cast at hlow ⊢
        linarith
      · push_cast at hhigh ⊢
        linarith
    · -- Below the binade the unit is half as large, and the mantissa is carried over.
      have hbottom := not_le.1 hbottom
      have hhalf : (num / den : ℚ) / 2 ^ (q - 1) = 2 * y := by
        rw [zpow_sub_one₀ two_ne_zero, ← hy]
        field_simp
      have hbelow : 2 * y < 2 ^ (53 : Int) := by
        norm_num at hbottom ⊢
        linarith
      have habove : (2 : ℚ) ^ (53 : Int) ≤ 2 * y + 1 / 2 := by
        push_cast at hlow
        norm_num at hlow ⊢
        linarith
      have hunit : 52 + (q - 1) ≤ binaryMagnitude num den := by
        rw [le_binaryMagnitude_iff hnum hden, hhalf]
        norm_num at habove ⊢
        linarith
      have hless := (binaryMagnitude_lt_iff (q := q - 1) hnum hden).2 (hhalf.trans_lt hbelow)
      have hvalue : ofRatio negative num den = .finite negative (2 ^ 52) (q - 1 + 1) :=
        ofRatio_eq_of_carry hnum hden (by omega) (by omega) hhalf habove hbelow
      rwa [sub_add_cancel] at hvalue

end Ratio

/-- What rounds to a value of the format is neither too small nor too large for it. -/
theorem Rounds.bounds {negative : Bool} {m : Nat} {q : Int} {x : ℚ} (hm : 0 < m) (hc : Canonical (.finite negative m q))
    (h : Rounds m q x) : (2 : ℚ) ^ (-1075 : Int) ≤ x ∧ x < 2 ^ (1025 : Int) := by
  obtain ⟨hlt, ⟨hqlow, hqhigh⟩, -⟩ := hc
  obtain ⟨hlow, hhigh, -⟩ := h.ends
  have hpow : (0 : ℚ) < 2 ^ q := by positivity
  have hhalf : (1 / 2 : ℚ) ≤ x / 2 ^ q := by
    have hone : (1 : ℚ) ≤ m := by exact_mod_cast hm
    rcases lowEnd_cases hm q with ⟨hquarters, -⟩ | ⟨hquarters, -⟩ <;> rw [hquarters] at hlow <;> linarith
  have htop : x / 2 ^ q < 2 ^ (54 : Int) := by
    have hle : (m : ℚ) < 9007199254740992 := by exact_mod_cast hlt
    have hcast : (2 : ℚ) ^ (54 : Int) = 18014398509481984 := by norm_num
    rw [hcast]
    linarith
  rw [le_div_iff₀ hpow] at hhalf
  rw [div_lt_iff₀ hpow] at htop
  constructor
  · calc (2 : ℚ) ^ (-1075 : Int) = 1 / 2 * 2 ^ (-1074 : Int) := by
          rw [show (-1075 : Int) = -1 + -1074 by norm_num, zpow_add₀ two_ne_zero, zpow_neg_one, one_div]
      _ ≤ 1 / 2 * 2 ^ q := by gcongr; norm_num
      _ ≤ x := hhalf
  · calc x < 2 ^ (54 : Int) * 2 ^ q := htop
      _ ≤ 2 ^ (54 : Int) * 2 ^ (971 : Int) := by gcongr; norm_num
      _ = 2 ^ (1025 : Int) := by rw [← zpow_add₀ two_ne_zero]; norm_num

/-- What no value of the format reaches has at least 310 digits. -/
theorem two_pow_le : (2 : ℚ) ^ (1025 : Int) ≤ 10 ^ (310 : Int) := by
  have hle : ((2 ^ 1025 : Nat) : ℚ) ≤ ((10 ^ 310 : Nat) : ℚ) := Nat.cast_le.2 (by decide +kernel)
  rw [Nat.cast_pow, Nat.cast_pow] at hle
  exact hle

/-- What is less than half the least value of the format may have 330 zeros behind the point. -/
theorem ten_pow_le : (10 : ℚ) ^ (-331 : Int) ≤ 2 ^ (-1075 : Int) := by
  have hle : ((2 ^ 1075 : Nat) : ℚ) ≤ ((10 ^ 331 : Nat) : ℚ) := Nat.cast_le.2 (by decide +kernel)
  rw [Nat.cast_pow, Nat.cast_pow] at hle
  have hpos : (0 : ℚ) < 2 ^ 1075 := pow_pos two_pos 1075
  exact (inv_le_inv₀ (pow_pos (by norm_num) 331) hpos).2 hle

/-- A decimal that rounds to a value is read as it. -/
theorem ofDecimal_eq {negative : Bool} {m c : Nat} {q g : Int} (hm : 0 < m) (hc : Canonical (.finite negative m q))
    (hx : Rounds m q (c * 10 ^ g)) : ofDecimal negative c g = .finite negative m q := by
  obtain ⟨hlow, hhigh⟩ := hx.bounds hm hc
  have hten : (0 : ℚ) < 10 ^ g := by positivity
  have hpos : 0 < c := by
    refine Nat.pos_of_ne_zero fun h => ?_
    rw [h, Nat.cast_zero, zero_mul] at hlow
    exact absurd hlow (not_le.2 (by positivity))
  have hlength : 0 < (Nat.toDigits 10 c).length := Nat.length_toDigits_pos
  have hdigitsHigh : c < 10 ^ (Nat.toDigits 10 c).length := (Nat.length_toDigits_le_iff (by decide) hlength).1 (Nat.le_refl _)
  have hdigitsLow : 10 ^ ((Nat.toDigits 10 c).length - 1) ≤ c := by
    by_contra hlt
    by_cases hone : (Nat.toDigits 10 c).length = 1
    · rw [hone] at hlt
      exact hlt hpos
    · have := (Nat.length_toDigits_le_iff (b := 10) (n := c) (by decide) (by omega)).2 (not_le.1 hlt)
      omega
  unfold ofDecimal
  generalize (Nat.toDigits 10 c).length = n at hlength hdigitsHigh hdigitsLow ⊢
  have hsmall : ¬ ((n : Int) + g > 310) := by
    intro h
    have hbelow : (10 : ℚ) ^ ((n : Int) - 1 + g) ≤ c * 10 ^ g := by
      rw [zpow_add₀ (by norm_num)]
      refine mul_le_mul_of_nonneg_right ?_ hten.le
      rw [← Nat.cast_pred hlength, zpow_natCast]
      exact_mod_cast hdigitsLow
    have hlarge : (10 : ℚ) ^ (310 : Int) ≤ 10 ^ ((n : Int) - 1 + g) := zpow_le_zpow_right₀ (by norm_num) (by omega)
    exact absurd (hlarge.trans hbelow) (not_le.2 (hhigh.trans_le two_pow_le))
  have hlarge : ¬ ((n : Int) + g < -330) := by
    intro h
    have habove : (c * 10 ^ g : ℚ) < 10 ^ ((n : Int) + g) := by
      rw [zpow_add₀ (by norm_num)]
      refine mul_lt_mul_of_pos_right ?_ hten
      rw [zpow_natCast]
      exact_mod_cast hdigitsHigh
    have hsmall : (10 : ℚ) ^ ((n : Int) + g) ≤ 10 ^ (-331 : Int) := zpow_le_zpow_right₀ (by norm_num) (by omega)
    exact absurd hlow (not_le.2 ((habove.trans_le hsmall).trans_le ten_pow_le))
  have hratio : ((c * tenTo g.toNat : Nat) : ℚ) / (tenTo (-g).toNat : Nat) = c * 10 ^ g := by
    rw [Nat.cast_mul, cast_tenTo, cast_tenTo, mul_div_assoc, pow_toNat_div]
  simp only [if_neg hpos.ne', if_neg hsmall, if_neg hlarge]
  exact ofRatio_eq hm hc (Nat.mul_pos hpos (tenTo_pos _)) (tenTo_pos _) (hratio.symm ▸ hx)

end Treebank.Binary64
