import ObserverClub.Library.Rounding

namespace Library.Binary64

theorem power_zpow (b : ℕ) (e : ℤ) : power b e = (b : ℚ) ^ e := by
  unfold power
  split_ifs with h
  · obtain ⟨n, rfl⟩ := Int.eq_ofNat_of_zero_le h
    simp
  · obtain ⟨n, hn⟩ := Int.eq_ofNat_of_zero_le (show 0 ≤ -e by omega)
    obtain rfl : e = -n := by omega
    rw [Rat.mkRat_eq_div]
    simp

theorem lt_power_leading {a : ℚ} (h : 0 < a) : a < power 2 (leading a + 1) := by
  unfold leading
  simp only
  split_ifs with hle
  · have hnum : 0 < a.num := Rat.num_pos.mpr h
    have hhigh : a.num.natAbs < 2 ^ (Nat.log2 a.num.natAbs + 1) := Nat.lt_log2_self
    have hlow : 2 ^ Nat.log2 a.den ≤ a.den := Nat.log2_self_le a.den_ne_zero
    have hnumq : (a.num : ℚ) < 2 ^ (Nat.log2 a.num.natAbs + 1) := by
      have hcast : ((a.num.natAbs : ℕ) : ℚ) < ((2 ^ (Nat.log2 a.num.natAbs + 1) : ℕ) : ℚ) := Nat.cast_lt.mpr hhigh
      have habs : ((a.num.natAbs : ℕ) : ℚ) = (a.num : ℚ) := by
        rw [← Int.cast_natCast, Int.natAbs_of_nonneg hnum.le]
      rw [habs] at hcast
      exact_mod_cast hcast
    have hdenq : (2 : ℚ) ^ (Nat.log2 a.den) ≤ a.den := by exact_mod_cast hlow
    have hnumpos : (0 : ℚ) ≤ a.num := by exact_mod_cast hnum.le
    calc a = a.num / a.den := (Rat.num_div_den a).symm
      _ ≤ a.num / 2 ^ Nat.log2 a.den := by gcongr
      _ < 2 ^ (Nat.log2 a.num.natAbs + 1) / 2 ^ Nat.log2 a.den := by gcongr
      _ = power 2 ((Nat.log2 a.num.natAbs : ℤ) - Nat.log2 a.den + 1) := by
        rw [power_eq, sub_add_eq_add_sub, zpow_sub₀ two_ne_zero]
        norm_cast
  · rw [sub_add_cancel]
    exact not_le.mp hle

theorem halfEven_of_near {q : ℚ} {k : ℤ} (h : |q - k| < 1 / 2) : halfEven q = k := by
  have hnear := abs_le.mp (halfEven_near q)
  have hk := abs_lt.mp h
  have hlow : ((k - 1 : ℤ) : ℚ) < halfEven q := by push_cast; linarith [hnear.1, hk.2]
  have hhigh : (halfEven q : ℚ) < ((k + 1 : ℤ) : ℚ) := by push_cast; linarith [hnear.2, hk.1]
  have hlow' : k - 1 < halfEven q := by exact_mod_cast hlow
  have hhigh' : halfEven q < k + 1 := by exact_mod_cast hhigh
  omega

structure Representable (a : ℚ) : Prop where
  pos : 0 < a
  bounded : a < power 2 1024
  scaled : ∃ (n : ℕ) (u : ℤ), n < 2 ^ 53 ∧ -1074 ≤ u ∧ a = n * 2 ^ u

section Reading

variable {a d : ℚ}

theorem Representable.round_near (h : Representable a) (hd : |d - a| ≤ a / (2 * 10 ^ 16)) : round false d = fin a := by
  obtain ⟨n, v, hn, hv, hscale⟩ := h.scaled
  have hbounds := abs_le.mp hd
  have ha := h.pos
  have hpos : 0 < d := by linarith [hbounds.1]
  set u := max (leading d - 52) (-1074) with hu
  have hupos : (0 : ℚ) < 2 ^ u := zpow_pos two_pos u
  have hlow : (2 : ℚ) ^ leading d ≤ d := by
    rw [← power_eq]
    exact power_leading_le hpos
  have hhigh : d < 2 ^ (leading d + 1) := by
    rw [← power_eq]
    exact lt_power_leading hpos
  -- The unit of the last place is no larger than that of the number.
  have hle : u ≤ v := by
    rw [hu, max_le_iff]
    refine ⟨?_, hv⟩
    by_contra hlt
    have hexp : v + 53 ≤ leading d := by omega
    have hpow : (2 : ℚ) ^ (v + 53) ≤ d := (zpow_le_zpow_right₀ one_le_two hexp).trans hlow
    have hvpos : (0 : ℚ) < 2 ^ v := zpow_pos two_pos v
    have hn' : (n : ℚ) ≤ 2 ^ 53 - 1 := by
      have hcast : ((n + 1 : ℕ) : ℚ) ≤ ((2 ^ 53 : ℕ) : ℚ) := Nat.cast_le.mpr hn
      push_cast at hcast
      linarith
    have hmul : a ≤ (2 ^ 53 - 1) * 2 ^ v := by
      rw [hscale]
      exact mul_le_mul_of_nonneg_right hn' hvpos.le
    rw [zpow_add₀ two_ne_zero] at hpow
    have h53 : (2 : ℚ) ^ (53 : ℤ) = 2 ^ 53 := by norm_cast
    rw [h53] at hpow
    have hgap : a / (2 * 10 ^ 16) ≤ 2 ^ v / 2 := by
      calc a / (2 * 10 ^ 16) ≤ (2 ^ 53 - 1) * 2 ^ v / (2 * 10 ^ 16) := by gcongr
        _ ≤ 2 ^ v / 2 := by
          rw [div_le_div_iff₀ (by norm_num) (by norm_num)]
          nlinarith [hvpos]
    linarith [hbounds.2]
  obtain ⟨k, hk⟩ : ∃ k : ℤ, a = k * 2 ^ u := by
    obtain ⟨m, hm⟩ := Int.eq_ofNat_of_zero_le (show 0 ≤ v - u by omega)
    refine ⟨n * 2 ^ m, ?_⟩
    rw [hscale, show v = m + u by omega, zpow_add₀ two_ne_zero]
    push_cast
    rw [zpow_natCast]
    ring
  have hunit : d / 2 ^ 53 < 2 ^ u := by
    have hexp : leading d - 52 ≤ u := le_max_left _ _
    calc d / 2 ^ 53 < 2 ^ (leading d + 1) / 2 ^ 53 := by gcongr
      _ = 2 ^ (leading d - 52) := by
        rw [show leading d - 52 = leading d + 1 - (53 : ℤ) by ring, zpow_sub₀ two_ne_zero]
        norm_cast
      _ ≤ 2 ^ u := zpow_le_zpow_right₀ one_le_two hexp
  have hhalf : halfEven (d / power 2 u) = k := by
    apply halfEven_of_near
    rw [power_eq, show (k : ℚ) = a / 2 ^ u by rw [hk, mul_div_assoc, div_self hupos.ne', mul_one], ← sub_div, abs_div,
      abs_of_pos hupos, div_lt_iff₀ hupos]
    apply lt_of_le_of_lt hd
    have hd' : a - a / (2 * 10 ^ 16) ≤ d := by linarith [hbounds.1]
    have hsmall : a / (2 * 10 ^ 16) ≤ 1 / 2 * (d / 2 ^ 53) := by
      have : a / (2 * 10 ^ 16) ≤ 1 / 2 * ((a - a / (2 * 10 ^ 16)) / 2 ^ 53) := by
        rw [show a - a / (2 * 10 ^ 16) = a * (1 - 1 / (2 * 10 ^ 16)) by ring]
        rw [div_le_iff₀ (by norm_num)]
        nlinarith [ha]
      refine this.trans ?_
      gcongr
    linarith
  have hvalue : (halfEven (d / power 2 u) : ℚ) * power 2 u = a := by rw [hhalf, power_eq, ← hk]
  have hnot : ¬power 2 1024 ≤ a := not_le.mpr h.bounded
  unfold round
  rw [if_neg hpos.ne']
  simp only [← hu, hvalue]
  rw [if_neg hnot, signed, if_neg ha.ne']
  rfl

theorem power_leadingDecimal_le (h : 0 < a) : power 10 (leadingDecimal a) ≤ a := by
  rw [power_zpow, leadingDecimal]
  split_ifs with hone
  · have hfloor : 1 ≤ ⌊a⌋ := Int.le_floor.mpr (by exact_mod_cast hone)
    have hlog : 10 ^ Nat.log 10 ⌊a⌋.natAbs ≤ ⌊a⌋.natAbs := Nat.pow_log_le_self 10 (by omega)
    have habs : ((⌊a⌋.natAbs : ℕ) : ℚ) = ((⌊a⌋ : ℤ) : ℚ) := by
      rw [← Int.cast_natCast, Int.natAbs_of_nonneg (by omega)]
    have hcast : ((10 ^ Nat.log 10 ⌊a⌋.natAbs : ℕ) : ℚ) ≤ (⌊a⌋ : ℚ) := by
      rw [← habs]
      exact Nat.cast_le.mpr hlog
    rw [zpow_natCast]
    push_cast at hcast ⊢
    exact hcast.trans (Int.floor_le a)
  · have hpos : 0 < 1 / a := by positivity
    have hceil : 0 < (1 / a).ceil := Rat.lt_ceil_iff.mpr (by exact_mod_cast hpos)
    have hclog : (1 / a).ceil.natAbs ≤ 10 ^ Nat.clog 10 (1 / a).ceil.natAbs := Nat.le_pow_clog (by norm_num) _
    have habs : (((1 / a).ceil.natAbs : ℕ) : ℚ) = (((1 / a).ceil : ℤ) : ℚ) := by
      rw [← Int.cast_natCast, Int.natAbs_of_nonneg hceil.le]
    have hcast : 1 / a ≤ ((10 ^ Nat.clog 10 (1 / a).ceil.natAbs : ℕ) : ℚ) := by
      apply (Rat.le_ceil (x := 1 / a)).trans
      rw [← habs]
      exact Nat.cast_le.mpr hclog
    rw [zpow_neg, zpow_natCast, inv_le_comm₀ (by positivity) h, inv_eq_one_div]
    exact_mod_cast hcast

theorem digitsOfLength_isSome (h : Representable a) : (digitsOfLength a 17).isSome = true := by
  have hpos := h.pos
  unfold digitsOfLength
  simp only [Option.isSome_map]
  set e := leadingDecimal a - (17 : ℕ) + 1 with he
  have hp : (0 : ℚ) < power 10 e := by
    rw [power_zpow]
    exact zpow_pos (by norm_num) e
  have hfloor : 0 ≤ ⌊a / power 10 e⌋ := Int.floor_nonneg.mpr (by positivity)
  have hback : ∀ m : ℕ, (m : ℤ) = halfEven (a / power 10 e) → round false (m * power 10 e) = fin a := by
    intro m hm
    apply h.round_near
    have hnear := halfEven_near (a / power 10 e)
    rw [← hm] at hnear
    have hfactor : (m : ℚ) * power 10 e - a = (((m : ℤ) : ℚ) - a / power 10 e) * power 10 e := by
      rw [Int.cast_natCast]
      field_simp
    have hsmall : power 10 e ≤ a / 10 ^ 16 := by
      have hlead := power_leadingDecimal_le hpos
      rw [power_zpow] at hlead ⊢
      rw [he, show leadingDecimal a - (17 : ℕ) + 1 = leadingDecimal a - (16 : ℤ) by push_cast; ring,
        zpow_sub₀ (by norm_num)]
      have h16 : ((10 : ℕ) : ℚ) ^ (16 : ℤ) = 10 ^ 16 := by norm_cast
      rw [h16]
      gcongr
    rw [hfactor, abs_mul, abs_of_pos hp]
    calc |((m : ℤ) : ℚ) - a / power 10 e| * power 10 e ≤ 1 / 2 * (a / 10 ^ 16) :=
          mul_le_mul hnear hsmall hp.le (by norm_num)
      _ = a / (2 * 10 ^ 16) := by ring
  have hcases : halfEven (a / power 10 e) = ⌊a / power 10 e⌋ ∨ halfEven (a / power 10 e) = ⌊a / power 10 e⌋ + 1 := by
    unfold halfEven
    split_ifs <;> first | exact .inl rfl | exact .inr rfl
  have hlo : ((⌊a / power 10 e⌋.natAbs : ℕ) : ℤ) = ⌊a / power 10 e⌋ := Int.natAbs_of_nonneg hfloor
  rw [List.find?_isSome]
  split_ifs with hnear
  · exact ⟨_, List.mem_cons_self, decide_eq_true (hback _ hnear.symm)⟩
  · refine ⟨_, List.mem_cons_self, decide_eq_true (hback _ ?_)⟩
    rw [Nat.cast_add, Nat.cast_one]
    change ((⌊a / power 10 e⌋.natAbs : ℕ) : ℤ) + 1 = _
    obtain hc | hc := hcases
    · exact absurd (hc.trans hlo.symm) hnear
    · rw [hlo, hc]

theorem round_shortest (h : Representable a) : round false ((shortest a).1 * power 10 (shortest a).2) = fin a := by
  have hsome : ((List.range 17).findSome? (fun k => digitsOfLength a (k + 1))).isSome = true := by
    rw [List.findSome?_isSome_iff]
    exact ⟨16, by decide, digitsOfLength_isSome h⟩
  obtain ⟨p, hp⟩ := Option.isSome_iff_exists.mp hsome
  obtain ⟨k, -, hk⟩ := List.exists_of_findSome?_eq_some hp
  rw [shortest, hp, Option.getD_some]
  simp only [digitsOfLength, Option.map_eq_some_iff] at hk
  obtain ⟨m, hm, rfl⟩ := hk
  have hback := List.find?_some hm
  exact of_decide_eq_true hback

end Reading

theorem round_sign {a b : ℚ} (h : round false a = fin b) (hb : b ≠ 0) (neg : Bool) :
    round neg a = fin (if neg then -b else b) := by
  have hsigned {v : ℚ} (hv : signed false v = fin b) : signed neg v = fin (if neg then -b else b) := by
    unfold signed at hv ⊢
    simp only [Bool.false_eq_true, if_false] at hv
    by_cases hzero : v = 0
    · rw [if_pos hzero] at hv
      exact absurd (fin.inj hv).symm hb
    · rw [if_neg hzero] at hv
      obtain rfl := fin.inj hv
      rw [if_neg hzero]
  unfold round at h ⊢
  split_ifs at h with hzero
  · exact absurd (fin.inj h).symm hb
  · rw [if_neg hzero]
    dsimp only at h ⊢
    split_ifs at h with hbig
    rw [if_neg hbig]
    exact hsigned h

theorem representable_of_round {neg : Bool} {a q : ℚ} (ha : 0 ≤ a) (h : round neg a = fin q) :
    q = 0 ∧ neg = false ∨ Representable |q| ∧ decide (q < 0) = neg := by
  have hsigned {v : ℚ} (hv : 0 ≤ v) (hr : v ≠ 0 → Representable v) (hs : signed neg v = fin q) :
      q = 0 ∧ neg = false ∨ Representable |q| ∧ decide (q < 0) = neg := by
    unfold signed at hs
    split_ifs at hs with hzero hneg hneg
    · obtain rfl : 0 = q := by simpa using hs
      exact .inl ⟨rfl, by simpa using hneg⟩
    · obtain rfl : -v = q := by simpa using hs
      have hpos := (hr hzero).pos
      exact .inr ⟨by rw [abs_neg, abs_of_pos hpos]; exact hr hzero, by simp [hneg, hpos]⟩
    · obtain rfl : v = q := by simpa using hs
      have hpos := (hr hzero).pos
      exact .inr ⟨by rw [abs_of_pos hpos]; exact hr hzero, by simp [hneg, hpos.le]⟩
  unfold round at h
  by_cases hzero : a = 0
  · rw [if_pos hzero] at h
    exact hsigned le_rfl (absurd rfl) h
  rw [if_neg hzero] at h
  dsimp only at h
  have hpos : 0 < a := lt_of_le_of_ne ha (Ne.symm hzero)
  set u := max (leading a - 52) (-1074) with hu
  have hupos : (0 : ℚ) < 2 ^ u := zpow_pos two_pos u
  split_ifs at h with hbig
  have hnear := abs_le.mp (halfEven_near (a / power 2 u))
  have hquot : 0 < a / power 2 u := by
    rw [power_eq]
    positivity
  have hlow : 0 ≤ halfEven (a / power 2 u) := by
    have : ((-1 : ℤ) : ℚ) < halfEven (a / power 2 u) := by push_cast; linarith [hnear.1]
    have : -1 < halfEven (a / power 2 u) := by exact_mod_cast this
    omega
  obtain ⟨n, hn⟩ := Int.eq_ofNat_of_zero_le hlow
  have hhigh : n ≤ 2 ^ 53 := by
    have hlt : a / power 2 u < 2 ^ 53 := by
      rw [power_eq, div_lt_iff₀ hupos]
      have hlead := lt_power_leading hpos
      rw [power_eq] at hlead
      apply hlead.trans_le
      have hexp : leading a + 1 ≤ 53 + u := by omega
      calc (2 : ℚ) ^ (leading a + 1) ≤ 2 ^ (53 + u) := zpow_le_zpow_right₀ one_le_two hexp
        _ = 2 ^ 53 * 2 ^ u := by
          rw [zpow_add₀ two_ne_zero]
          norm_cast
    have : (halfEven (a / power 2 u) : ℚ) < ((2 ^ 53 + 1 : ℤ) : ℚ) := by push_cast; linarith [hnear.2]
    have : halfEven (a / power 2 u) < 2 ^ 53 + 1 := by exact_mod_cast this
    omega
  have hv : (halfEven (a / power 2 u) : ℚ) * power 2 u = n * 2 ^ u := by rw [hn, power_eq, Int.cast_natCast]
  rw [hv] at h hbig
  apply hsigned (by positivity) ?_ h
  intro hne
  refine ⟨lt_of_le_of_ne (by positivity) (Ne.symm hne), lt_of_not_ge hbig, ?_⟩
  obtain hlt | heq := Nat.lt_or_eq_of_le hhigh
  · exact ⟨n, u, hlt, le_max_right _ _, rfl⟩
  · have hmin : -1074 ≤ u := le_max_right _ _
    refine ⟨2 ^ 52, u + 1, by norm_num, by omega, ?_⟩
    rw [heq, zpow_add_one₀ two_ne_zero]
    push_cast
    ring

end Library.Binary64
