import Mathlib.Algebra.Order.Floor.Ring
import Mathlib.Data.Rat.Floor
import Mathlib.Tactic.FieldSimp
import Mathlib.Tactic.Linarith
import Mathlib.Tactic.NormNum
import Mathlib.Tactic.Positivity
import Mathlib.Tactic.Ring
import ObserverClub.Library.Binary64

namespace Library.Binary64

theorem power_eq (e : ℤ) : power 2 e = (2 : ℚ) ^ e := by
  unfold power
  split_ifs with h
  · obtain ⟨n, rfl⟩ := Int.eq_ofNat_of_zero_le h
    simp
  · obtain ⟨n, hn⟩ := Int.eq_ofNat_of_zero_le (show 0 ≤ -e by omega)
    obtain rfl : e = -n := by omega
    rw [Rat.mkRat_eq_div]
    simp

theorem power_mono {d e : ℤ} (h : d ≤ e) : power 2 d ≤ power 2 e := by
  rw [power_eq, power_eq]
  exact zpow_le_zpow_right₀ one_le_two h

theorem power_succ (e : ℤ) : power 2 (e + 1) = power 2 e + power 2 e := by
  rw [power_eq, power_eq, zpow_add_one₀ two_ne_zero]
  ring

theorem halfEven_near (q : ℚ) : |(halfEven q : ℚ) - q| ≤ 1 / 2 := by
  have hle := Int.floor_le q
  have hlt := Int.lt_floor_add_one q
  have hfloor : (q.floor : ℚ) = ((⌊q⌋ : ℤ) : ℚ) := rfl
  unfold halfEven
  rw [abs_le]
  split_ifs with hlow hhigh heven
  · constructor <;> push_cast [hfloor] at * <;> linarith
  · constructor <;> push_cast [hfloor] at * <;> linarith
  · constructor <;> push_cast [hfloor] at * <;> linarith
  · constructor <;> push_cast [hfloor] at * <;> linarith

theorem power_leading_le {a : ℚ} (h : 0 < a) : power 2 (leading a) ≤ a := by
  unfold leading
  simp only
  split_ifs with hle
  · exact hle
  · have hnum : 0 < a.num := Rat.num_pos.mpr h
    have hlow : 2 ^ Nat.log2 a.num.natAbs ≤ a.num.natAbs := Nat.log2_self_le (by omega)
    have hhigh : a.den < 2 ^ (Nat.log2 a.den + 1) := Nat.lt_log2_self
    have hnumq : (2 : ℚ) ^ (Nat.log2 a.num.natAbs) ≤ a.num := by
      have hcast : ((2 ^ Nat.log2 a.num.natAbs : ℕ) : ℚ) ≤ (a.num.natAbs : ℕ) := Nat.cast_le.mpr hlow
      have habs : ((a.num.natAbs : ℕ) : ℚ) = (a.num : ℚ) := by
        rw [← Int.cast_natCast, Int.natAbs_of_nonneg hnum.le]
      rw [habs] at hcast
      exact_mod_cast hcast
    have hdenq : (a.den : ℚ) ≤ 2 ^ (Nat.log2 a.den + 1) := by exact_mod_cast hhigh.le
    have hden : (0 : ℚ) < a.den := by exact_mod_cast a.den_pos
    have ha : (a.num : ℚ) / a.den = a := Rat.num_div_den a
    rw [power_eq]
    calc (2 : ℚ) ^ ((Nat.log2 a.num.natAbs : ℤ) - Nat.log2 a.den - 1)
        = 2 ^ Nat.log2 a.num.natAbs / 2 ^ (Nat.log2 a.den + 1) := by
          rw [sub_sub, zpow_sub₀ two_ne_zero]
          norm_cast
      _ ≤ a.num / a.den := div_le_div₀ (by positivity) hnumq hden hdenq
      _ = a := ha

/-- The exponent of the last place that a magnitude keeps. -/
def place (a : ℚ) : ℤ := max (leading a - 52) (-1074)

/-- The multiple of the last place that is nearest to a magnitude, ties to even. -/
def nearest (a : ℚ) : ℚ := halfEven (a / power 2 (place a)) * power 2 (place a)

theorem power_pos (e : ℤ) : 0 < power 2 e := by
  rw [power_eq]
  exact zpow_pos two_pos e

theorem round_eq {neg : Bool} {a : ℚ} (h : a ≠ 0) :
    round neg a = if power 2 1024 ≤ nearest a then inf neg else signed neg (nearest a) := by
  rw [round, if_neg h]
  rfl

theorem nearest_half (a : ℚ) : |nearest a - a| ≤ 1 / 2 * power 2 (place a) := by
  have hpos := power_pos (place a)
  have hfactor : nearest a - a = ((halfEven (a / power 2 (place a)) : ℚ) - a / power 2 (place a)) * power 2 (place a) := by
    rw [nearest]
    field_simp
  rw [hfactor, abs_mul, abs_of_pos hpos]
  exact mul_le_mul_of_nonneg_right (halfEven_near _) hpos.le

theorem power_place_le {a : ℚ} (h : 0 < a) : power 2 (place a) ≤ a / 2 ^ 52 ∨ power 2 (place a) = power 2 (-1074) := by
  obtain hmax | hmax := max_choice (leading a - 52) (-1074)
  · left
    have hlead := power_leading_le h
    have hcast : ((2 : ℚ) ^ (52 : ℤ)) = 2 ^ 52 := by norm_cast
    rw [place, hmax, power_eq, zpow_sub₀ two_ne_zero, ← power_eq, hcast]
    gcongr
  · right
    rw [place, hmax]

theorem nearest_near {a : ℚ} (h : 0 < a) : |nearest a - a| ≤ a / 2 ^ 53 + power 2 (-1075) := by
  have hhalf := nearest_half a
  have htiny := power_succ (-1075)
  norm_num only at htiny
  obtain hplace | hplace := power_place_le h
  · have hleast := power_pos (-1075)
    linarith
  · rw [hplace] at hhalf
    have hnone : 0 ≤ a / 2 ^ 53 := by positivity
    linarith

theorem round_near {a : ℚ} (hlow : 1 / 2 ≤ a) (hhigh : a ≤ power 2 1023) :
    ∃ r, round false a = fin r ∧ |r - a| ≤ a / 2 ^ 53 := by
  have hpos : 0 < a := lt_of_lt_of_le (by norm_num) hlow
  have hunit : power 2 (place a) ≤ a / 2 ^ 52 := by
    obtain hplace | hplace := power_place_le hpos
    · exact hplace
    · rw [hplace]
      calc power 2 (-1074) ≤ power 2 (-53) := power_mono (by decide)
        _ = (1 / 2) / 2 ^ 52 := by rw [power_eq]; norm_num
        _ ≤ a / 2 ^ 52 := by gcongr
  have hdist : |nearest a - a| ≤ a / 2 ^ 53 := by
    have hhalf := nearest_half a
    linarith
  refine ⟨nearest a, ?_, hdist⟩
  have hsmall : ¬ power 2 1024 ≤ nearest a := by
    rw [not_le]
    have hupper := (abs_le.mp hdist).2
    have htop := power_succ 1023
    have hpart : a / 2 ^ 53 < a := div_lt_self hpos (by norm_num)
    calc nearest a ≤ a + a / 2 ^ 53 := by linarith
      _ < a + a := add_lt_add_right hpart a
      _ ≤ power 2 1023 + power 2 1023 := add_le_add hhigh hhigh
      _ = power 2 1024 := htop.symm
  rw [round_eq hpos.ne', if_neg hsmall, signed]
  simp only [Bool.false_eq_true, if_false]
  split_ifs with hzero
  · rw [hzero]
  · rfl

theorem ofInt_near {n : ℕ} (hpos : 0 < n) (hhigh : (n : ℚ) ≤ power 2 1023) : ∃ r, ofInt n = fin r ∧ |r - n| ≤ n / 2 ^ 53 := by
  have hone : (1 : ℚ) ≤ n := by exact_mod_cast hpos
  have hcast : ((n : ℤ).natAbs : ℚ) = n := by simp
  have hneg : decide ((n : ℤ) < 0) = false := by simp
  rw [ofInt, hneg, hcast]
  exact round_near (by linarith) hhigh

section Value

/-- The value of a number; an infinity stands beyond the greatest one. -/
def value : Binary64 → ℚ
  | fin q => q
  | inf neg => if neg then -power 2 1024 else power 2 1024
  | _ => 0

/-- The result of an operation on binary64 numbers whose exact result is `q`. -/
def rounded (q : ℚ) : ℚ := (ofRat q).value

theorem rounded_pos {q : ℚ} (h : 0 < q) : rounded q = min (nearest q) (power 2 1024) := by
  rw [rounded, ofRat, abs_of_pos h, decide_eq_false (not_lt.mpr h.le), round_eq h.ne']
  split_ifs with htop
  · rw [min_eq_right htop]
    rfl
  · rw [min_eq_left (not_le.mp htop).le, signed]
    simp only [Bool.false_eq_true, if_false]
    split_ifs with hzero
    · exact hzero.symm
    · rfl

theorem rounded_zero : rounded 0 = 0 := rfl

theorem nearest_nonneg {q : ℚ} (h : 0 ≤ q) : 0 ≤ nearest q := by
  have hpos := power_pos (place q)
  have hquotient : 0 ≤ q / power 2 (place q) := div_nonneg h hpos.le
  have hfloor : (0 : ℤ) ≤ (q / power 2 (place q)).floor := Int.floor_nonneg.mpr hquotient
  apply mul_nonneg _ hpos.le
  rw [Int.cast_nonneg_iff, halfEven]
  split_ifs <;> omega

variable {q : ℚ}

theorem rounded_nonneg (h : 0 ≤ q) : 0 ≤ rounded q := by
  obtain rfl | hpos := h.eq_or_lt
  · exact rounded_zero.ge
  · rw [rounded_pos hpos]
    exact le_min (nearest_nonneg h) (power_pos _).le

theorem rounded_le_top (h : 0 ≤ q) : rounded q ≤ power 2 1024 := by
  obtain rfl | hpos := h.eq_or_lt
  · exact (power_pos _).le
  · rw [rounded_pos hpos]
    exact min_le_right _ _

theorem least_le : power 2 (-1075) ≤ 1 / 2 ^ 100 := by
  calc power 2 (-1075) ≤ power 2 (-100) := power_mono (by decide)
    _ = 1 / 2 ^ 100 := by rw [power_eq]; norm_num

theorem rounded_le (h : 0 ≤ q) : rounded q ≤ q + q / 2 ^ 53 + power 2 (-1075) := by
  obtain rfl | hpos := h.eq_or_lt
  · rw [rounded_zero, zero_div, zero_add, zero_add]
    exact (power_pos _).le
  · have hnear := (abs_le.mp (nearest_near hpos)).2
    have hless : rounded q ≤ nearest q := by
      rw [rounded_pos hpos]
      exact min_le_left _ _
    linarith

theorem half_le_rounded (h : 1 ≤ q) : 1 / 2 ≤ rounded q := by
  have hpos : 0 < q := one_pos.trans_le h
  have hnear := (abs_le.mp (nearest_near hpos)).1
  have htiny := least_le
  have htop : 1 / 2 ≤ power 2 1024 := by
    calc (1 / 2 : ℚ) = power 2 (-1) := by rw [power_eq]; norm_num
      _ ≤ power 2 1024 := power_mono (by decide)
  rw [rounded_pos hpos]
  apply le_min _ htop
  linarith

end Value

end Library.Binary64
