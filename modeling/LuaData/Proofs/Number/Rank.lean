import LuaData.Number.Decimal
import Mathlib

/-
  Ranks of decimal numerals. Rounding depends on the quotient only, so a numeral keeps its rank
  when zeros are put after its digits and its exponent is lowered by as many. The exact value of
  a magnitude has the rank of that magnitude, and so has the shortest numeral for it.
-/

namespace LuaData

namespace Double

/-! ## Powers -/

theorem one_eq : one = 2 ^ 1074 := rfl

theorem units_eq (rank : Nat) : units rank =
    (rank - (rank / 2 ^ 52 - 1) * 2 ^ 52) * 2 ^ (rank / 2 ^ 52 - 1) := rfl

theorem nearestRank_eq (num den : Nat) : nearestRank num den =
    ((num / den).log2 - 52) * 2 ^ 52 +
      roundQuotient num (den * 2 ^ ((num / den).log2 - 52)) := rfl

/-! ## Rounding -/

theorem roundQuotient_mul {num den k : Nat} (hk : 0 < k) :
    roundQuotient (num * k) (den * k) = roundQuotient num den := by
  have h1 : (2 * (num % den * k) < den * k) ↔ (2 * (num % den) < den) := by
    rw [← Nat.mul_assoc]
    exact Nat.mul_lt_mul_right hk
  have h2 : (2 * (num % den * k) = den * k) ↔ (2 * (num % den) = den) := by
    rw [← Nat.mul_assoc]
    exact Nat.mul_left_inj (by omega)
  simp only [roundQuotient, Nat.mul_div_mul_right _ _ hk, Nat.mul_mod_mul_right, h1, h2]

theorem nearestRank_mul {num den k : Nat} (hk : 0 < k) :
    nearestRank (num * k) (den * k) = nearestRank num den := by
  simp only [nearestRank_eq, Nat.mul_div_mul_right _ _ hk]
  rw [Nat.mul_right_comm den k, roundQuotient_mul hk]

/-- Equal quotients have the same nearest rank. -/
theorem nearestRank_congr {num den num' den' : Nat} (hd : 0 < den) (hd' : 0 < den')
    (h : num * den' = num' * den) : nearestRank num den = nearestRank num' den' := by
  rw [← nearestRank_mul hd', h, Nat.mul_comm den den', nearestRank_mul hd]

theorem roundQuotient_exact {m den : Nat} (hd : 0 < den) : roundQuotient (m * den) den = m := by
  simp only [roundQuotient, Nat.mul_mod_left, Nat.mul_div_cancel _ hd, Nat.mul_zero, if_pos,
    hd, true_or]

theorem log2_mul_two_pow {m : Nat} (hm : m ≠ 0) (k : Nat) : (m * 2 ^ k).log2 = m.log2 + k := by
  induction k with
  | zero => rw [Nat.pow_zero, Nat.mul_one, Nat.add_zero]
  | succ k ih =>
    have h0 : m * 2 ^ k ≠ 0 := Nat.mul_ne_zero hm (Nat.ne_of_gt (Nat.two_pow_pos k))
    rw [Nat.pow_succ, ← Nat.mul_assoc, Nat.mul_comm _ 2, Nat.log2_two_mul h0, ih]
    omega

/-- The nearest rank of a magnitude is its own. -/
theorem nearestRank_units (rank : Nat) {den : Nat} (hd : 0 < den) :
    nearestRank (units rank * den) den = rank := by
  rw [nearestRank_eq, Nat.mul_div_cancel _ hd, units_eq]
  by_cases hsmall : rank < 2 ^ 53
  · -- The smallest magnitudes are whole numbers of steps.
    have hscale : rank / 2 ^ 52 - 1 = 0 := by omega
    have hlog : rank.log2 - 52 = 0 := by
      by_cases h0 : rank = 0
      · rw [h0]; rfl
      · have := (Nat.log2_lt h0).2 hsmall
        omega
    simp only [hscale, Nat.zero_mul, Nat.sub_zero, Nat.pow_zero, Nat.mul_one, hlog, Nat.zero_add]
    exact roundQuotient_exact hd
  · have hm : rank - (rank / 2 ^ 52 - 1) * 2 ^ 52 < 2 ^ 53 ∧
        2 ^ 52 ≤ rank - (rank / 2 ^ 52 - 1) * 2 ^ 52 ∧
        (rank / 2 ^ 52 - 1) * 2 ^ 52 ≤ rank := by omega
    obtain ⟨hlt, hle, hrank⟩ := hm
    have hlog : (rank - (rank / 2 ^ 52 - 1) * 2 ^ 52).log2 = 52 := by
      have h0 : rank - (rank / 2 ^ 52 - 1) * 2 ^ 52 ≠ 0 := by omega
      have h1 := (Nat.log2_lt h0).2 hlt
      have h2 := (Nat.le_log2 h0).2 hle
      omega
    rw [log2_mul_two_pow (by omega), hlog, Nat.add_sub_cancel_left, Nat.mul_assoc,
      Nat.mul_comm (2 ^ _) den, roundQuotient_exact (Nat.mul_pos hd (Nat.two_pow_pos _))]
    omega

/-! ## Bounds -/

theorem units_pos {rank : Nat} (h : 0 < rank) : 0 < units rank := by
  rw [units_eq]
  exact Nat.mul_pos (by omega) (Nat.two_pow_pos _)

theorem units_lt {rank : Nat} (h : rank < 0x7FF0000000000000) :
    units rank < 2 ^ 1024 * 2 ^ 1074 := by
  rw [units_eq]
  have hm : rank - (rank / 2 ^ 52 - 1) * 2 ^ 52 < 2 ^ 53 := by omega
  have hs : rank / 2 ^ 52 - 1 ≤ 2045 := by omega
  calc (rank - (rank / 2 ^ 52 - 1) * 2 ^ 52) * 2 ^ (rank / 2 ^ 52 - 1)
      < 2 ^ 53 * 2 ^ (rank / 2 ^ 52 - 1) := Nat.mul_lt_mul_of_pos_right hm (Nat.two_pow_pos _)
    _ ≤ 2 ^ 53 * 2 ^ 2045 := Nat.mul_le_mul_left _ (Nat.pow_le_pow_right (by decide) hs)
    _ = 2 ^ 1024 * 2 ^ 1074 := by rw [← Nat.pow_add, ← Nat.pow_add]

theorem units_zero : units 0 = 0 := rfl

end Double

namespace Decimal

open Double (nearestRank units)

/-! ## Digits -/

theorem digitCount_mul_ten {n : Nat} (h : 0 < n) : digitCount (n * 10) = digitCount n + 1 := by
  rw [digitCount, if_neg (by omega), Nat.mul_div_cancel _ (by decide)]

theorem digitCount_mul_pow {n : Nat} (h : 0 < n) (k : Nat) :
    digitCount (n * 10 ^ k) = digitCount n + k := by
  induction k with
  | zero => rw [Nat.pow_zero, Nat.mul_one, Nat.add_zero]
  | succ k ih =>
    rw [Nat.pow_succ, ← Nat.mul_assoc,
      digitCount_mul_ten (Nat.mul_pos h (Nat.pow_pos (by decide))), ih]
    omega

theorem digitCount_le {k : Nat} : ∀ {n : Nat}, n < 10 ^ k → digitCount n ≤ k := by
  induction k with
  | zero =>
    intro n h
    rw [Nat.pow_zero, Nat.lt_one_iff] at h
    have h0 : digitCount 0 = 0 := by rw [digitCount, if_pos rfl]
    exact Nat.le_of_eq (h ▸ h0)
  | succ k ih =>
    intro n h
    rw [digitCount]
    split
    · exact Nat.zero_le _
    · rw [Nat.pow_succ] at h
      have := ih (n := n / 10) (by omega)
      omega

theorem lt_digitCount {k : Nat} : ∀ {n : Nat}, 10 ^ k ≤ n → k < digitCount n := by
  induction k with
  | zero =>
    intro n h
    rw [digitCount, if_neg (by rw [Nat.pow_zero] at h; omega)]
    omega
  | succ k ih =>
    intro n h
    have hpos := Nat.pow_pos (n := k + 1) (show 0 < 10 by decide)
    rw [digitCount, if_neg (by omega)]
    rw [Nat.pow_succ] at h
    have := ih (n := n / 10) (by omega)
    omega

/-! ## Ranks -/

theorem ratio_eq (d : Decimal) : d.ratio =
    (d.digits * Double.one * 10 ^ d.exponent.toNat, 10 ^ (-d.exponent).toNat) := rfl

theorem exact_eq (target : Nat) : exact target = ⟨units target * 5 ^ 1074, -1074⟩ := rfl

theorem rank_zero (e : Int) : (⟨0, e⟩ : Decimal).rank = 0 := by
  rw [rank]
  exact if_pos (Or.inl rfl)

theorem digits_ne_zero {d : Decimal} (h : d.rank ≠ 0) : d.digits ≠ 0 := by
  obtain ⟨digits, e⟩ := d
  rintro rfl
  exact h (rank_zero e)

/-- Zeros after the digits, and an exponent lower by as many, do not change the rank. -/
theorem rank_mul_pow (digits j : Nat) (e : Int) :
    (⟨digits * 10 ^ j, e - j⟩ : Decimal).rank = (⟨digits, e⟩ : Decimal).rank := by
  by_cases h0 : digits = 0
  · rw [h0, Nat.zero_mul, rank_zero, rank_zero]
  · have hpos : 0 < digits := by omega
    have hne : digits * 10 ^ j ≠ 0 := Nat.ne_of_gt (Nat.mul_pos hpos (Nat.pow_pos (by decide)))
    have hplace : (digitCount (digits * 10 ^ j) : Int) + (e - j) = digitCount digits + e := by
      rw [digitCount_mul_pow hpos]
      omega
    have hratio : nearestRank (ratio ⟨digits * 10 ^ j, e - j⟩).1
        (ratio ⟨digits * 10 ^ j, e - j⟩).2 =
        nearestRank (ratio ⟨digits, e⟩).1 (ratio ⟨digits, e⟩).2 := by
      refine Double.nearestRank_congr (Nat.pow_pos (by decide)) (Nat.pow_pos (by decide)) ?_
      have hexp : j + ((e - j).toNat + (-e).toNat) = e.toNat + (-(e - j)).toNat := by omega
      simp only [ratio_eq]
      generalize Double.one = one
      calc digits * 10 ^ j * one * 10 ^ (e - j).toNat * 10 ^ (-e).toNat
          = digits * one * 10 ^ (j + ((e - j).toNat + (-e).toNat)) := by
            rw [Nat.pow_add, Nat.pow_add]; ac_rfl
        _ = digits * one * 10 ^ e.toNat * 10 ^ (-(e - j)).toNat := by
            rw [hexp, Nat.pow_add]; ac_rfl
    simp only [rank, hplace, hratio, hne, h0, false_or]

theorem rank_eq_nearestRank {d : Decimal} (h : d.digits ≠ 0) {k m : Nat}
    (hlow : 10 ^ k ≤ d.digits) (hhigh : d.digits < 10 ^ m) (hk : -400 ≤ k + 1 + d.exponent)
    (hm : m + d.exponent ≤ 400) : d.rank = nearestRank d.ratio.1 d.ratio.2 := by
  have h1 := lt_digitCount hlow
  have h2 := digitCount_le hhigh
  simp only [rank]
  rw [if_neg (by omega), if_neg (by omega)]

theorem units_mul_lt {target a b c : Nat} (h : units target < 2 ^ a * 2 ^ b)
    (ha : 2 ^ a ≤ 10 ^ c) : units target * 5 ^ b < 10 ^ (c + b) := by
  calc units target * 5 ^ b
      < 2 ^ a * 2 ^ b * 5 ^ b := Nat.mul_lt_mul_of_pos_right h (Nat.pow_pos (by decide))
    _ = 2 ^ a * 10 ^ b := by rw [Nat.mul_assoc, ← Nat.mul_pow]
    _ ≤ 10 ^ c * 10 ^ b := Nat.mul_le_mul_right _ ha
    _ = 10 ^ (c + b) := (Nat.pow_add 10 c b).symm

theorem ratio_exact (target : Nat) :
    (exact target).ratio = (units target * 10 ^ 1074, 10 ^ 1074) := by
  have merge : ∀ u k : Nat, u * 5 ^ k * 2 ^ k = u * 10 ^ k := fun u k => by
    rw [Nat.mul_assoc, ← Nat.mul_pow]
  have hneg : (-1074 : Int).toNat = 0 := rfl
  have hpos : (-(-1074) : Int).toNat = 1074 := rfl
  simp only [ratio_eq, exact_eq, Double.one_eq]
  rw [hneg, hpos, merge, Nat.pow_zero, Nat.mul_one]

theorem rank_exact {target : Nat} (h : target < 0x7FF0000000000000) :
    (exact target).rank = target := by
  by_cases h0 : target = 0
  · rw [h0, exact_eq, Double.units_zero, Nat.zero_mul, rank_zero]
  · have hunits := Double.units_pos (Nat.pos_of_ne_zero h0)
    have hfive : (10 : Nat) ^ 750 ≤ 5 ^ 1074 := by decide +kernel
    have htwo : (2 : Nat) ^ 1024 ≤ 10 ^ 308 * 10 := by decide +kernel
    have hdigits : (exact target).digits = units target * 5 ^ 1074 := by rw [exact_eq]
    have hlow : 10 ^ 750 ≤ (exact target).digits := by
      rw [hdigits]
      exact Nat.le_trans hfive (Nat.le_mul_of_pos_left _ hunits)
    have hhigh : (exact target).digits < 10 ^ (309 + 1074) := by
      rw [hdigits]
      exact units_mul_lt (Double.units_lt h) htwo
    have hne : (exact target).digits ≠ 0 := by
      have := Nat.lt_of_lt_of_le (Nat.pow_pos (n := 750) (show 0 < 10 by decide)) hlow
      exact Nat.ne_of_gt this
    have hexp : (exact target).exponent = -1074 := rfl
    rw [rank_eq_nearestRank hne hlow hhigh (by rw [hexp]; decide) (by rw [hexp]; decide),
      ratio_exact,
      Double.nearestRank_units _ (Nat.pow_pos (by decide))]

/-- The shortest numeral for a magnitude is read as that magnitude. -/
theorem rank_shortest {target : Nat} (h : target < 0x7FF0000000000000) :
    (shortest target).rank = target := by
  have onGrid : ∀ {e : Int} {d : Decimal}, onGrid? target e = some d → d.rank = target := by
    intro e d hd
    simp only [onGrid?] at hd
    split at hd
    · rename_i hn; exact Option.some.inj hd ▸ hn
    · split at hd
      · rename_i hn; exact Option.some.inj hd ▸ hn
      · split at hd
        · rename_i hn; exact Option.some.inj hd ▸ hn
        · cases hd
  rw [shortest]
  cases hf : (List.range 17).findSome? fun n =>
      onGrid? target (leadingPlace (units target) - (n + 1 : Nat)) with
  | none => exact rank_exact h
  | some d =>
    obtain ⟨n, -, hn⟩ := List.exists_of_findSome?_eq_some hf
    exact onGrid hn

end Decimal

end LuaData
