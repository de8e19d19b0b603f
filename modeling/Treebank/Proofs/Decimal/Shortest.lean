import Treebank.Decimal.Shortest
import Treebank.Proofs.Decimal.Numeral
import Treebank.Proofs.Decimal.Rounding

/-!
# The text of a value has the value

The digits that are found for a value round to it, and every layout of them spells a decimal that does (`spelled_renderIn`). A spelled
number has a point or an exponent, and no zero in front that could be left out.
-/

namespace Treebank

namespace Text

/-- The number that digits write, more digits following. -/
theorem digitsValue_append (ds es : List Char) : digitsValue (ds ++ es) = digitsValue ds * 10 ^ es.length + digitsValue es := by
  have hfold : ∀ (es : List Char) (n : Nat), es.foldl (fun n c => 10 * n + (digitValue? c).getD 0) n =
      n * 10 ^ es.length + digitsValue es := by
    intro es
    induction es with
    | nil => intro n; simp [digitsValue]
    | cons c es ih =>
      intro n
      have hcons : digitsValue (c :: es) = (10 * 0 + (digitValue? c).getD 0) * 10 ^ es.length + digitsValue es := ih _
      rw [List.foldl_cons, ih, hcons, List.length_cons]
      ring
  rw [digitsValue, List.foldl_append, hfold]
  rfl

/-- Zeros write zero. -/
theorem digitsValue_replicate (n : Nat) : digitsValue (List.replicate n '0') = 0 := by
  induction n with
  | zero => rfl
  | succ n ih =>
    rw [List.replicate_succ, ← List.singleton_append, digitsValue_append, ih, Nat.add_zero,
      show digitsValue ['0'] = 0 by decide, Nat.zero_mul]

/-- Zeros in front of digits count nothing. -/
theorem digitsValue_zeros_append (n : Nat) (ds : List Char) : digitsValue (List.replicate n '0' ++ ds) = digitsValue ds := by
  rw [digitsValue_append, digitsValue_replicate, Nat.zero_mul, Nat.zero_add]

/-- A zero behind digits makes ten of one. -/
theorem digitsValue_append_zeros (ds : List Char) (n : Nat) : digitsValue (ds ++ List.replicate n '0') = digitsValue ds * 10 ^ n := by
  rw [digitsValue_append, digitsValue_replicate, List.length_replicate, Nat.add_zero]

/-- What is left out of digits when the zeros at their end are. -/
theorem exists_zeros (ds : List Char) : ∃ n, ds = (ds.reverse.dropWhile (· = '0')).reverse ++ List.replicate n '0' := by
  have hzeros : ds.reverse.takeWhile (· = '0') = List.replicate (ds.reverse.takeWhile (· = '0')).length '0' :=
    List.eq_replicate_iff.2 ⟨rfl, fun c hc => by simpa using List.mem_takeWhile_imp hc⟩
  refine ⟨(ds.reverse.takeWhile (· = '0')).length, ?_⟩
  calc ds
    _ = (ds.reverse.takeWhile (· = '0') ++ ds.reverse.dropWhile (· = '0')).reverse := by
      rw [List.takeWhile_append_dropWhile, List.reverse_reverse]
    _ = _ := by rw [List.reverse_append, hzeros, List.reverse_replicate, List.length_replicate]

end Text

namespace Binary64

/-! ## Digits that round to a value -/

/-- A decimal is tested for whether it rounds to a value. -/
theorem readsBack_iff {m c : Nat} {q g : Int} : readsBack m q c g = true ↔ Rounds m q (c * 10 ^ g) := by
  have hB : (0 : ℚ) < 2 ^ (-q).toNat := by positivity
  have hD : (0 : ℚ) < 10 ^ (-g).toNat := by positivity
  have hleft : ∀ a : Nat, ((a * (twoTo q.toNat * tenTo (-g).toNat) : Nat) : ℚ) = a * 2 ^ q * (2 ^ (-q).toNat * 10 ^ (-g).toNat) := by
    intro a
    rw [← pow_toNat_div 2 q]
    push_cast [cast_twoTo, cast_tenTo]
    field_simp
  have hright : ((4 * c * (twoTo (-q).toNat * tenTo g.toNat) : Nat) : ℚ) =
      4 * (c * 10 ^ g) * (2 ^ (-q).toNat * 10 ^ (-g).toNat) := by
    rw [← pow_toNat_div 10 g]
    push_cast [cast_twoTo, cast_tenTo]
    field_simp
  have hscale : (0 : ℚ) < 2 ^ (-q).toNat * 10 ^ (-g).toNat := mul_pos hB hD
  have hle : ∀ a : Nat, a * (twoTo q.toNat * tenTo (-g).toNat) ≤ 4 * c * (twoTo (-q).toNat * tenTo g.toNat) ↔
      (a : ℚ) * 2 ^ q ≤ 4 * (c * 10 ^ g) := by
    intro a
    rw [← Nat.cast_le (α := ℚ), hleft, hright, mul_le_mul_iff_left₀ hscale]
  have hlt : ∀ a : Nat, a * (twoTo q.toNat * tenTo (-g).toNat) < 4 * c * (twoTo (-q).toNat * tenTo g.toNat) ↔
      (a : ℚ) * 2 ^ q < 4 * (c * 10 ^ g) := by
    intro a
    rw [← Nat.cast_lt (α := ℚ), hleft, hright, mul_lt_mul_iff_left₀ hscale]
  have hge : ∀ a : Nat, 4 * c * (twoTo (-q).toNat * tenTo g.toNat) ≤ a * (twoTo q.toNat * tenTo (-g).toNat) ↔
      4 * (c * 10 ^ g) ≤ (a : ℚ) * 2 ^ q := by
    intro a
    rw [← Nat.cast_le (α := ℚ), hleft, hright, mul_le_mul_iff_left₀ hscale]
  have hgt : ∀ a : Nat, 4 * c * (twoTo (-q).toNat * tenTo g.toNat) < a * (twoTo q.toNat * tenTo (-g).toNat) ↔
      4 * (c * 10 ^ g) < (a : ℚ) * 2 ^ q := by
    intro a
    rw [← Nat.cast_lt (α := ℚ), hleft, hright, mul_lt_mul_iff_left₀ hscale]
  have hhigh : ((4 * m + 2 : Nat) : ℚ) = 4 * m + 2 := by push_cast; ring
  unfold readsBack Rounds
  show (if m % 2 = 0 then decide (lowEnd m q * (twoTo q.toNat * tenTo (-g).toNat) ≤ 4 * c * (twoTo (-q).toNat * tenTo g.toNat)) &&
      decide (4 * c * (twoTo (-q).toNat * tenTo g.toNat) ≤ (4 * m + 2) * (twoTo q.toNat * tenTo (-g).toNat))
    else decide (lowEnd m q * (twoTo q.toNat * tenTo (-g).toNat) < 4 * c * (twoTo (-q).toNat * tenTo g.toNat)) &&
      decide (4 * c * (twoTo (-q).toNat * tenTo g.toNat) < (4 * m + 2) * (twoTo q.toNat * tenTo (-g).toNat))) = true ↔ _
  split
  · rw [Bool.and_eq_true, decide_eq_true_eq, decide_eq_true_eq, hle, hge, hhigh]
  · rw [Bool.and_eq_true, decide_eq_true_eq, decide_eq_true_eq, hlt, hgt, hhigh]

/-- Rounding a ratio to an integer gives the one below it or the next one. -/
theorem roundDiv_cases (num den : Nat) : roundDiv num den = num / den ∨ roundDiv num den = num / den + 1 := by
  unfold roundDiv
  dsimp only
  split
  · exact Or.inl rfl
  · exact Or.inr rfl
  · split
    · exact Or.inl rfl
    · exact Or.inr rfl

/-- What is found on a grid rounds to the value. -/
theorem rounds_of_onGrid? {m : Nat} {q g : Int} {d : Decimal} (h : onGrid? m q g = some d) :
    Rounds m q (d.digits * 10 ^ d.exponent) := by
  rw [← readsBack_iff]
  unfold onGrid? at h
  dsimp only at h
  split at h
  · rename_i hbelow habove
    cases h
    rcases roundDiv_cases (m * twoTo q.toNat * tenTo (-g).toNat) (twoTo (-q).toNat * tenTo g.toNat) with e | e
    · exact e ▸ hbelow
    · exact e ▸ habove
  · rename_i hbelow _
    cases h
    exact hbelow
  · rename_i _ habove
    cases h
    exact habove
  · cases h

/-- The exact decimal of a value is the value. -/
theorem exactDecimal_eq (m : Nat) (q : Int) : ((exactDecimal m q).digits : ℚ) * 10 ^ (exactDecimal m q).exponent = m * 2 ^ q := by
  unfold exactDecimal
  split
  · rename_i hq
    obtain ⟨n, rfl⟩ := Int.eq_ofNat_of_zero_le hq
    push_cast [cast_twoTo]
    simp
  · rename_i hq
    obtain ⟨n, hn⟩ := Int.eq_ofNat_of_zero_le (a := -q) (by omega)
    obtain rfl : q = -(n : Int) := by omega
    show ((m * 5 ^ (-(-(n : Int))).toNat : Nat) : ℚ) * 10 ^ (-(n : Int)) = m * 2 ^ (-(n : Int))
    rw [Int.neg_neg, Int.toNat_natCast, zpow_neg, zpow_neg, zpow_natCast, zpow_natCast, show (10 : ℚ) = 5 * 2 by norm_num, mul_pow]
    push_cast
    field_simp

/-- A value rounds to itself. -/
theorem rounds_self {m : Nat} (hm : 0 < m) (q : Int) : Rounds m q (m * 2 ^ q) := by
  have hpos : (0 : ℚ) < 2 ^ q := by positivity
  have hlow : (lowEnd m q : ℚ) < 4 * m := by
    rcases lowEnd_cases hm q with ⟨h, -⟩ | ⟨h, -⟩ <;> rw [h] <;> linarith
  have hstrict : (lowEnd m q : ℚ) * 2 ^ q < 4 * (m * 2 ^ q) ∧ 4 * (m * 2 ^ q) < (4 * m + 2 : ℚ) * 2 ^ q := by
    rw [← mul_assoc]
    exact ⟨mul_lt_mul_of_pos_right hlow hpos, mul_lt_mul_of_pos_right (by linarith) hpos⟩
  unfold Rounds
  split
  · exact ⟨hstrict.1.le, hstrict.2.le⟩
  · exact hstrict

/-- The fewest digits round to the value. -/
theorem rounds_shortest {m : Nat} (hm : 0 < m) (q : Int) : Rounds m q ((shortest m q).digits * 10 ^ (shortest m q).exponent) := by
  unfold shortest
  dsimp only
  cases hfound : (List.range 17).findSome? fun (n : Nat) => onGrid? m q (decimalMagnitude m q - (n + 1)) with
  | none =>
    rw [Option.getD_none, exactDecimal_eq]
    exact rounds_self hm q
  | some d =>
    obtain ⟨n, -, hn⟩ := List.exists_of_findSome?_eq_some hfound
    exact rounds_of_onGrid? hn

/-- The digits that round to a value do not write zero. -/
theorem digits_pos_of_rounds {m c : Nat} {q g : Int} (hm : 0 < m) (h : Rounds m q (c * 10 ^ g)) : 0 < c := by
  refine Nat.pos_of_ne_zero fun hc => ?_
  obtain ⟨hlow, -, -⟩ := h.ends
  rw [hc, Nat.cast_zero, zero_mul, zero_div, mul_zero] at hlow
  have hone : (1 : ℚ) ≤ m := by exact_mod_cast hm
  rcases lowEnd_cases hm q with ⟨hquarters, -⟩ | ⟨hquarters, -⟩ <;> rw [hquarters] at hlow <;> linarith

/-! ## Spelled numbers -/

/-- Whether a text writes digits. -/
def AreDigits (cs : List Char) : Prop := ∀ c ∈ cs, Text.isAsciiDigit c

/-- Whether a text is the whole part of a number: digits, without a zero in front that could be left out. -/
structure IsWhole (cs : List Char) : Prop where
  digits : AreDigits cs
  nonempty : cs ≠ []
  lead : cs.head? = some '0' → cs.length = 1

/-- A text that spells `n * 10 ^ g`: a number with a point or an exponent. -/
inductive Spelled : List Char → Nat → Int → Prop where
  | point {whole fraction : List Char} (hwhole : IsWhole whole) (hfraction : AreDigits fraction) (hne : fraction ≠ []) :
    Spelled (whole ++ '.' :: fraction) (Text.digitsValue (whole ++ fraction)) (-fraction.length)
  | exponent {whole fraction sign digits : List Char} (hwhole : IsWhole whole) (hfraction : AreDigits fraction)
    (hsign : sign ∈ [[], ['+'], ['-']]) (hdigits : AreDigits digits) (hne : digits ≠ []) :
    Spelled (whole ++ (if fraction = [] then [] else '.' :: fraction) ++ 'e' :: sign ++ digits) (Text.digitsValue (whole ++ fraction))
      ((if sign = ['-'] then -(Text.digitsValue digits : Int) else Text.digitsValue digits) - fraction.length)

/-- Zeros are digits. -/
theorem areDigits_replicate (n : Nat) : AreDigits (List.replicate n '0') := by
  intro c hc
  rw [List.eq_of_mem_replicate hc]
  decide

/-- Digits before digits are digits. -/
theorem AreDigits.append {cs ds : List Char} (hcs : AreDigits cs) (hds : AreDigits ds) : AreDigits (cs ++ ds) := by
  intro c hc
  exact (List.mem_append.1 hc).elim (hcs c) (hds c)

/-- The significant digits of a decimal that is not zero, with the zeros that were left out, and the exponent of the first one. -/
theorem exists_significant {d : Decimal} (hd : 0 < d.digits) :
    ∃ ds e, d.significant = (ds, e) ∧ AreDigits ds ∧ (∃ c rest, ds = c :: rest ∧ c ≠ '0') ∧
      (d.digits : ℚ) * 10 ^ d.exponent = Text.digitsValue ds * 10 ^ (e + 1 - ds.length) := by
  obtain ⟨first, others, hdigits, hfirst, -⟩ := Text.toDigits_eq_cons hd
  have hdigits : Text.natDigits d.digits = first :: others := hdigits
  have hall : AreDigits (Text.natDigits d.digits) := fun c hc => Text.isAsciiDigit_of_mem hc
  have hzero : first ≠ '0' := by
    rintro rfl
    exact absurd hfirst (by decide)
  obtain ⟨ds, hds⟩ : ∃ ds, ds = ((Text.natDigits d.digits).reverse.dropWhile (· = '0')).reverse := ⟨_, rfl⟩
  obtain ⟨zeros, hzeros⟩ := Text.exists_zeros (Text.natDigits d.digits)
  rw [← hds] at hzeros
  have hvalue : (d.digits : ℚ) = Text.digitsValue ds * 10 ^ zeros := by
    have hread : Text.digitsValue (Text.natDigits d.digits) = d.digits := Text.digitsValue_toDigits d.digits
    rw [hzeros, Text.digitsValue_append_zeros] at hread
    rw [← hread]
    push_cast
    rfl
  have hlength : (Text.natDigits d.digits).length = ds.length + zeros := by rw [hzeros, List.length_append, List.length_replicate]
  refine ⟨ds, d.exponent + (Text.natDigits d.digits).length - 1, by rw [hds]; rfl, ?_, ?_, ?_⟩
  · exact fun c hc => hall c (hzeros ▸ List.mem_append_left _ hc)
  · rw [hdigits] at hzeros
    cases ds with
    | nil =>
      have hm : first ∈ List.replicate zeros '0' := by rw [← List.nil_append (List.replicate zeros '0'), ← hzeros]; exact List.mem_cons_self ..
      exact absurd (List.eq_of_mem_replicate hm) hzero
    | cons c rest => exact ⟨c, rest, rfl, (List.cons.inj hzeros).1 ▸ hzero⟩
  · rw [hvalue, hlength, mul_assoc, ← zpow_natCast, ← zpow_add₀ (by norm_num)]
    congr 2
    push_cast
    ring

/-- Digits that begin with no zero are the whole part of a number, with more digits behind. -/
theorem isWhole_of_lead {c : Char} {rest : List Char} (h : AreDigits (c :: rest)) (hc : c ≠ '0') : IsWhole (c :: rest) :=
  ⟨h, List.cons_ne_nil c rest, fun e => absurd (Option.some.inj e) hc⟩

section Positional

variable {ds : List Char} {e : Int}

/-- Digits behind a point, and zeros before them. -/
theorem spelled_below_one (hds : AreDigits ds) (hne : ds ≠ []) (he : e < 0) :
    ∃ n g, Spelled ('0' :: '.' :: List.replicate ((-e).toNat - 1) '0' ++ ds) n g ∧
      (n : ℚ) * 10 ^ g = Text.digitsValue ds * 10 ^ (e + 1 - ds.length) := by
  have hwhole : IsWhole ['0'] := ⟨by intro c hc; rw [List.mem_singleton.1 hc]; decide, by decide, fun _ => rfl⟩
  have hfraction : AreDigits (List.replicate ((-e).toNat - 1) '0' ++ ds) := (areDigits_replicate _).append hds
  have hspelled := Spelled.point hwhole hfraction (List.append_ne_nil_of_right_ne_nil _ hne)
  refine ⟨_, _, hspelled, ?_⟩
  have hzeros : ['0'] ++ (List.replicate ((-e).toNat - 1) '0' ++ ds) = List.replicate ((-e).toNat - 1 + 1) '0' ++ ds := by
    rw [List.replicate_succ]
    rfl
  rw [hzeros, Text.digitsValue_zeros_append, List.length_append, List.length_replicate]
  congr 2
  omega

/-- Digits, zeros behind them, and a zero behind a point. -/
theorem spelled_whole (hwhole : IsWhole (ds ++ List.replicate (e.toNat + 1 - ds.length) '0')) (he : 0 ≤ e)
    (hlength : ds.length ≤ e.toNat + 1) :
    ∃ n g, Spelled (ds ++ List.replicate (e.toNat + 1 - ds.length) '0' ++ ['.', '0']) n g ∧
      (n : ℚ) * 10 ^ g = Text.digitsValue ds * 10 ^ (e + 1 - ds.length) := by
  refine ⟨_, _, Spelled.point hwhole (show AreDigits ['0'] from areDigits_replicate 1) (by decide), ?_⟩
  have hzeros : ds ++ List.replicate (e.toNat + 1 - ds.length) '0' ++ ['0'] =
      ds ++ List.replicate (e.toNat + 1 - ds.length + 1) '0' := by
    rw [List.replicate_succ', List.append_assoc]
  rw [hzeros, Text.digitsValue_append_zeros]
  push_cast
  rw [mul_assoc, ← zpow_natCast, ← zpow_add₀ (by norm_num)]
  congr 2
  simp only [List.length_singleton]
  omega

/-- Digits with a point among them. -/
theorem spelled_within (hds : AreDigits ds) (hwhole : IsWhole (ds.take (e.toNat + 1))) (he : 0 ≤ e) (hlength : e.toNat + 1 < ds.length) :
    ∃ n g, Spelled (ds.take (e.toNat + 1) ++ '.' :: ds.drop (e.toNat + 1)) n g ∧
      (n : ℚ) * 10 ^ g = Text.digitsValue ds * 10 ^ (e + 1 - ds.length) := by
  have hrest : ds.drop (e.toNat + 1) ≠ [] := by
    rw [ne_eq, List.drop_eq_nil_iff]
    omega
  refine ⟨_, _, Spelled.point hwhole (fun x hx => hds x (List.mem_of_mem_drop hx)) hrest, ?_⟩
  rw [List.take_append_drop, List.length_drop]
  congr 2
  omega

/-- Digits in positional writing spell their value. -/
theorem spelled_positional (hds : AreDigits ds) (hlead : ∃ c rest, ds = c :: rest ∧ c ≠ '0') (e : Int) :
    ∃ n g, Spelled (positional ds e) n g ∧ (n : ℚ) * 10 ^ g = Text.digitsValue ds * 10 ^ (e + 1 - ds.length) := by
  obtain ⟨c, rest, rfl, hc⟩ := hlead
  unfold positional
  split
  · rename_i he
    exact spelled_below_one hds (List.cons_ne_nil c rest) he
  · rename_i he
    dsimp only
    split
    · rename_i hshort
      exact spelled_whole (isWhole_of_lead (hds.append (areDigits_replicate _)) hc) (by omega) hshort
    · rename_i hlong
      have hwhole : IsWhole ((c :: rest).take (e.toNat + 1)) :=
        isWhole_of_lead (fun x hx => hds x (List.mem_of_mem_take (i := e.toNat + 1) hx)) hc
      exact spelled_within hds hwhole (by omega) (by omega)

end Positional

/-- Digits in scientific writing spell their value. -/
theorem spelled_scientific (layout : Layout) {ds : List Char} (hds : AreDigits ds) (hlead : ∃ c rest, ds = c :: rest ∧ c ≠ '0')
    (e : Int) :
    ∃ n g, Spelled (scientific layout ds e) n g ∧ (n : ℚ) * 10 ^ g = Text.digitsValue ds * 10 ^ (e + 1 - ds.length) := by
  obtain ⟨c, rest, rfl, hc⟩ := hlead
  have hwhole : IsWhole [c] := isWhole_of_lead (fun x hx => hds x (List.mem_singleton.1 hx ▸ List.mem_cons_self ..)) hc
  have hrest : AreDigits rest := fun x hx => hds x (List.mem_cons_of_mem c hx)
  obtain ⟨sign, hsign⟩ : ∃ sign, sign = (if e < 0 then ['-'] else if layout.exponentPlus then ['+'] else []) := ⟨_, rfl⟩
  obtain ⟨padded, hpadded⟩ : ∃ padded, padded =
    List.replicate (layout.exponentWidth - (Text.natDigits e.natAbs).length) '0' ++ Text.natDigits e.natAbs := ⟨_, rfl⟩
  have hmem : sign ∈ [[], ['+'], ['-']] := by
    rw [hsign]
    split
    · simp
    · split <;> simp
  have hdigits : AreDigits padded := by
    rw [hpadded]
    exact (areDigits_replicate _).append fun x hx => Text.isAsciiDigit_of_mem hx
  have hne : padded ≠ [] := by
    rw [hpadded]
    simp [Numeral.natDigits_ne_nil]
  have hvalue : Text.digitsValue padded = e.natAbs := by
    have hread : Text.digitsValue (Text.natDigits e.natAbs) = e.natAbs := Text.digitsValue_toDigits _
    rw [hpadded, Text.digitsValue_zeros_append, hread]
  have hexponent : (if sign = ['-'] then -(Text.digitsValue padded : Int) else Text.digitsValue padded) = e := by
    rw [hvalue]
    by_cases he : e < 0
    · rw [hsign, if_pos he, if_pos rfl]
      omega
    · have hplus : sign ≠ ['-'] := by
        rw [hsign, if_neg he]
        split <;> decide
      rw [if_neg hplus]
      omega
  have htext : scientific layout (c :: rest) e = [c] ++ (if rest = [] then [] else '.' :: rest) ++ 'e' :: sign ++ padded := by
    unfold scientific
    rw [hsign, hpadded]
    cases rest with
    | nil => simp
    | cons d rest => simp
  refine ⟨_, _, htext ▸ Spelled.exponent hwhole hrest hmem hdigits hne, ?_⟩
  rw [hexponent]
  congr 2
  rw [List.length_cons]
  push_cast
  ring

/-- A finite value is written with a sign if it is negative, and spelled as a decimal that is read as the value. -/
theorem spelled_renderIn (layout : Layout) {negative : Bool} {m : Nat} {q : Int} (hc : Canonical (.finite negative m q)) :
    ∃ cs n g, renderIn layout (.finite negative m q) = (if negative then ['-'] else []) ++ cs ∧ Spelled cs n g ∧
      ofDecimal negative n g = .finite negative m q := by
  by_cases hm : m = 0
  · subst hm
    obtain ⟨-, ⟨hlow, -⟩, hnormal⟩ := hc
    have hwhole : IsWhole ['0'] := ⟨by intro c hc; rw [List.mem_singleton.1 hc]; decide, by decide, fun _ => rfl⟩
    refine ⟨['0', '.', '0'], _, _, rfl, Spelled.point hwhole hwhole.digits (by decide), ?_⟩
    have hq : q = -1074 := by
      by_contra hne
      exact absurd (hnormal (by omega)) (by decide)
    rw [hq]
    rfl
  · have hpos := Nat.pos_of_ne_zero hm
    have hrounds := rounds_shortest hpos q
    obtain ⟨ds, e, hsignificant, hds, hlead, hvalue⟩ := exists_significant (digits_pos_of_rounds hpos hrounds)
    have hspelled : ∃ n g, Spelled (if layout.plainFrom ≤ e && e < layout.plainBelow then positional ds e else scientific layout ds e) n g ∧
        (n : ℚ) * 10 ^ g = Text.digitsValue ds * 10 ^ (e + 1 - ds.length) := by
      split
      · exact spelled_positional hds hlead e
      · exact spelled_scientific layout hds hlead e
    obtain ⟨n, g, hspells, hn⟩ := hspelled
    refine ⟨_, n, g, ?_, hspells, ofDecimal_eq hpos hc ?_⟩
    · unfold renderIn
      simp only [if_neg hm, hsignificant]
    · rw [hn, ← hvalue]
      exact hrounds

end Binary64

end Treebank
