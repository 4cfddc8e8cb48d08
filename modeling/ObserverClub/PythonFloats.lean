import ObserverClub.PythonText
import ObserverClub.Library.Shortest

/-!
Floats as Python writes them, read back by `float()`.
-/

namespace ObserverClub.Python

open Library Json

section Values

theorem digitsValue_join (s t : Text) : digitsValue (s ++ t) = digitsValue s * 10 ^ t.length + digitsValue t := by
  induction t using List.reverseRecOn with
  | nil => simp [digitsValue]
  | append_singleton t c ih =>
    rw [← List.append_assoc, digitsValue_append, ih, digitsValue_append, List.length_append, List.length_singleton, pow_succ]
    ring

theorem digitsValue_zeros (n : ℕ) : digitsValue (List.replicate n 48) = 0 := by
  induction n with
  | zero => rfl
  | succ n ih =>
    rw [List.replicate_succ', digitsValue_append, ih]

theorem significant_value (m : ℕ) (e : ℤ) :
    (digitsValue (significant m) : ℚ) * Binary64.power 10 ((decimal m).length + e - (significant m).length) =
      m * Binary64.power 10 e := by
  obtain ⟨zeros, hm, hz⟩ := significant_prefix m
  have hrep : zeros = List.replicate zeros.length 48 := List.eq_replicate_of_mem hz
  have hvalue : m = digitsValue (significant m) * 10 ^ zeros.length := by
    conv_lhs => rw [← digitsValue_decimal m, hm, digitsValue_join, hrep, digitsValue_zeros, add_zero, List.length_replicate]
  have hlength : ((decimal m).length : ℤ) = (significant m).length + zeros.length := by
    rw [hm, List.length_append]
    push_cast
    ring
  rw [hlength, show ((significant m).length : ℤ) + zeros.length + e - (significant m).length = zeros.length + e by ring,
    Binary64.power_zpow, Binary64.power_zpow, zpow_add₀ (by norm_num), zpow_natCast]
  conv_rhs => rw [hvalue]
  push_cast
  ring

def Spells (t : Text) (a : ℚ) : Prop :=
  ∃ i f e x, t = i ++ f ++ e ∧ IntPart i ∧ FracPart f ∧ ExpPart e ∧ exponentOf e = some x ∧ scaled i (f.drop 1) x = a

theorem exponentOf_padded (neg : Bool) (n w : ℕ) :
    exponentOf (101 :: (if neg then 45 else 43) :: Binary64.padded n w) = some (if neg then -(n : ℤ) else n) := by
  obtain ⟨hne, hd⟩ := padded_digits n w
  have hvalue : digitsValue (Binary64.padded n w) = n := by
    rw [Binary64.padded, digitsValue_join, digitsValue_zeros, zero_mul, zero_add, digitsValue_decimal]
  cases neg <;> simp [exponentOf, splitSign, digitGroups_digits hne hd, hvalue]

theorem layout_spells {m : ℕ} (h : 0 < m) (e : ℤ) : Spells (Binary64.layout m e) (m * Binary64.power 10 e) := by
  have hne := significant_ne_nil h
  have hd := significant_digits m
  have hvalue := significant_value m e
  have zeros : ∀ n, ∀ c ∈ List.replicate n 48, isDigit c = true := by
    intro n c hc
    rw [(List.mem_replicate.mp hc).2]
    rfl
  have hlayout : Binary64.layout m e =
      if -4 < (decimal m).length + e ∧ (decimal m).length + e ≤ 16 then
        if (decimal m).length + e ≤ 0 then
          txt "0." ++ List.replicate (-((decimal m).length + e)).toNat 48 ++ significant m
        else if (significant m).length ≤ ((decimal m).length + e).toNat then
          significant m ++ List.replicate (((decimal m).length + e).toNat - (significant m).length) 48 ++ txt ".0"
        else (significant m).take ((decimal m).length + e).toNat ++ [46] ++
          (significant m).drop ((decimal m).length + e).toNat
      else
        (significant m).take 1 ++ (if (significant m).length ≤ 1 then [] else 46 :: (significant m).drop 1) ++
          (if (decimal m).length + e - 1 < 0 then txt "e-" else txt "e+") ++
          Binary64.padded ((decimal m).length + e - 1).natAbs 2 := rfl
  generalize (decimal m).length + e = point at hlayout hvalue
  rw [hlayout, ← hvalue]
  have hpos : 0 < (significant m).length := List.length_pos_iff.mpr hne
  split_ifs with h₁ h₂ h₃ hone hneg hneg
  · refine ⟨[48], 46 :: (List.replicate (-point).toNat 48 ++ significant m), [], 0, by simp [txt], ?_, ?_, .inl rfl, rfl, ?_⟩
    · exact ⟨by simp [isDigit], by simp, fun _ => rfl⟩
    · refine .inr ⟨_, rfl, by simp [hne], ?_⟩
      rw [List.forall_mem_append]
      exact ⟨zeros _, hd⟩
    · rw [scaled, List.drop_succ_cons, List.drop_zero, ← List.append_assoc, digitsValue_join, digitsValue_join, digitsValue_zeros]
      rw [List.length_append, List.length_replicate]
      congr 2
      · simp [digitsValue]
      · omega
  · refine ⟨significant m ++ List.replicate (point.toNat - (significant m).length) 48, [46, 48], [], 0, by simp [txt], ?_, ?_,
      .inl rfl, rfl, ?_⟩
    · refine significant_part h _ [] (by simp [hne]) ?_ (.inr ⟨_, rfl⟩)
      rw [List.forall_mem_append]
      exact ⟨hd, zeros _⟩
    · exact .inr ⟨[48], rfl, by simp, by simp [isDigit]⟩
    · rw [scaled, List.drop_succ_cons, List.drop_zero, digitsValue_join, digitsValue_join, digitsValue_zeros,
        List.length_replicate, List.length_singleton, Binary64.power_zpow, Binary64.power_zpow]
      obtain ⟨k, hk⟩ : ∃ k : ℕ, point = (significant m).length + k := ⟨point.toNat - (significant m).length, by omega⟩
      rw [show point.toNat - (significant m).length = k by omega, show point - ((significant m).length : ℤ) = k by omega,
        zpow_natCast]
      have hzero : digitsValue [48] = 0 := rfl
      rw [hzero]
      push_cast
      ring
  · refine ⟨(significant m).take point.toNat, 46 :: (significant m).drop point.toNat, [], 0, by simp, ?_, ?_, .inl rfl, rfl, ?_⟩
    · refine significant_part h _ ((significant m).drop point.toNat) ?_ (fun c hc => hd c (List.mem_of_mem_take hc))
        (.inl (List.take_append_drop _ _))
      rw [ne_eq, List.take_eq_nil_iff, not_or]
      exact ⟨by omega, hne⟩
    · refine .inr ⟨_, rfl, ?_, fun c hc => hd c (List.mem_of_mem_drop hc)⟩
      rw [ne_eq, List.drop_eq_nil_iff]
      omega
    · rw [scaled, List.drop_succ_cons, List.drop_zero, List.take_append_drop, List.length_drop]
      congr 2
      omega
  all_goals
    have hi : IntPart ((significant m).take 1) := by
      refine significant_part h _ ((significant m).drop 1) ?_ (fun c hc => hd c (List.mem_of_mem_take hc))
        (.inl (List.take_append_drop _ _))
      rw [ne_eq, List.take_eq_nil_iff, not_or]
      exact ⟨by omega, hne⟩
    obtain ⟨hp, hpd⟩ := padded_digits (point - 1).natAbs 2
    have hscaled : ∀ x : ℤ, x = point - 1 →
        scaled ((significant m).take 1) ((significant m).drop 1) x =
          digitsValue (significant m) * Binary64.power 10 (point - (significant m).length) := by
      rintro x rfl
      rw [scaled, List.take_append_drop, List.length_drop]
      congr 2
      omega
    have hminus (hn : point - 1 < 0) : exponentOf (101 :: 45 :: Binary64.padded (point - 1).natAbs 2) = some (point - 1) := by
      rw [show (45 : ℕ) = if true then 45 else 43 from rfl, exponentOf_padded, if_pos rfl]
      congr 1
      omega
    have hplus (hn : ¬point - 1 < 0) : exponentOf (101 :: 43 :: Binary64.padded (point - 1).natAbs 2) = some (point - 1) := by
      rw [show (43 : ℕ) = if false then 45 else 43 from rfl, exponentOf_padded, if_neg Bool.false_ne_true]
      congr 1
      omega
  · refine ⟨_, [], 101 :: 45 :: Binary64.padded (point - 1).natAbs 2, _, by simp [txt], hi, .inl rfl,
      .inr ⟨45, _, rfl, .inr rfl, hp, hpd⟩, hminus hneg, ?_⟩
    rw [← hscaled _ rfl, List.drop_eq_nil_of_le hone]
    rfl
  · refine ⟨_, [], 101 :: 43 :: Binary64.padded (point - 1).natAbs 2, _, by simp [txt], hi, .inl rfl,
      .inr ⟨43, _, rfl, .inl rfl, hp, hpd⟩, hplus hneg, ?_⟩
    rw [← hscaled _ rfl, List.drop_eq_nil_of_le hone]
    rfl
  all_goals
    have hf : FracPart (46 :: (significant m).drop 1) := by
      refine .inr ⟨_, rfl, ?_, fun c hc => hd c (List.mem_of_mem_drop hc)⟩
      rw [ne_eq, List.drop_eq_nil_iff]
      omega
  · exact ⟨_, 46 :: (significant m).drop 1, 101 :: 45 :: Binary64.padded (point - 1).natAbs 2, _, by simp [txt], hi, hf,
      .inr ⟨45, _, rfl, .inr rfl, hp, hpd⟩, hminus hneg, hscaled _ rfl⟩
  · exact ⟨_, 46 :: (significant m).drop 1, 101 :: 43 :: Binary64.padded (point - 1).natAbs 2, _, by simp [txt], hi, hf,
      .inr ⟨43, _, rfl, .inl rfl, hp, hpd⟩, hplus hneg, hscaled _ rfl⟩

end Values

section Reading

theorem magnitudeOf_parts {i f : Text} (hi : IntPart i) (hf : FracPart f) : magnitudeOf (i ++ f) = some (i, f.drop 1) := by
  have hspan : ∀ r : Text, (∀ c ∈ r.head?, c = 46) → (i ++ r).takeWhile (fun c => isDigit c || c == 95) = i ∧
      (i ++ r).dropWhile (fun c => isDigit c || c == 95) = r := by
    intro r hr
    have hall : ∀ c ∈ i, (isDigit c || c == 95) = true := by
      intro c hc
      rw [hi.digits c hc, Bool.true_or]
    rw [List.takeWhile_append_of_pos hall, List.dropWhile_append_of_pos hall]
    cases r with
    | nil => simp
    | cons c r =>
      obtain rfl : c = 46 := hr c rfl
      simp [isDigit]
  have hgroup := digitGroups_digits hi.nonempty hi.digits
  unfold magnitudeOf
  obtain rfl | ⟨ds, rfl, hne, hds⟩ := hf
  · obtain ⟨ht, hd⟩ := hspan [] (by simp)
    simp only [ht, hd, hgroup, Option.map_some, List.drop_nil]
  · obtain ⟨ht, hd⟩ := hspan (46 :: ds) (by simp)
    simp only [ht, hd, if_neg hne, if_neg hi.nonempty, hgroup, digitGroups_digits hne hds, List.drop_succ_cons, List.drop_zero]

theorem mantissa_chars {i f : Text} (hi : IntPart i) (hf : FracPart f) : ∀ c ∈ i ++ f, isDigit c = true ∨ c = 46 := by
  rw [List.forall_mem_append]
  refine ⟨fun c hc => .inl (hi.digits c hc), ?_⟩
  obtain rfl | ⟨ds, rfl, -, hds⟩ := hf
  · exact fun c hc => absurd hc List.not_mem_nil
  · rw [List.forall_mem_cons]
    exact ⟨.inr rfl, fun c hc => .inl (hds c hc)⟩

theorem exponent_chars {e : Text} (he : ExpPart e) : ∀ c ∈ e, isDigit c = true ∨ c = 101 ∨ c = 43 ∨ c = 45 := by
  obtain rfl | ⟨g, ds, rfl, hg, -, hds⟩ := he
  · exact fun c hc => absurd hc List.not_mem_nil
  · rw [List.forall_mem_cons, List.forall_mem_cons]
    exact ⟨.inr (.inl rfl), .inr (.inr hg), fun c hc => .inl (hds c hc)⟩

theorem floatOfText_spells {t : Text} {a : ℚ} (h : Spells t a) (neg : Bool) :
    floatOfText ((if neg then [45] else []) ++ t) = .ok (Binary64.round neg a) := by
  obtain ⟨i, f, e, x, rfl, hi, hf, he, hx, rfl⟩ := h
  have hmantissa := mantissa_chars hi hf
  have hexponent := exponent_chars he
  have hchars : ∀ c ∈ i ++ f ++ e, isDigit c = true ∨ c = 46 ∨ c = 101 ∨ c = 43 ∨ c = 45 := by
    rw [List.forall_mem_append]
    exact ⟨fun c hc => (hmantissa c hc).imp id .inl, fun c hc => (hexponent c hc).imp id .inr⟩
  have hall : ∀ c ∈ (if neg then [45] else []) ++ (i ++ f ++ e), isDigit c = true ∨ c = 46 ∨ c = 101 ∨ c = 43 ∨ c = 45 := by
    rw [List.forall_mem_append]
    refine ⟨fun c hc => ?_, hchars⟩
    cases neg with
    | false => cases hc
    | true => exact .inr (.inr (.inr (.inr (List.mem_singleton.mp hc))))
  have hrange : ∀ c : ℕ, (isDigit c = true ∨ c = 46 ∨ c = 101 ∨ c = 43 ∨ c = 45) →
      toAscii c = c ∧ isSpaceAscii c = false ∧ lowerAscii c = c := by
    intro c hc
    simp only [isDigit, Bool.and_eq_true, decide_eq_true_eq] at hc
    refine ⟨if_pos (by omega), ?_, if_neg (by omega)⟩
    simp only [isSpaceAscii, Bool.or_eq_false_iff, Bool.and_eq_false_iff, decide_eq_false_iff_not, beq_eq_false_iff_ne]
    omega
  have hascii : ((if neg then [45] else []) ++ (i ++ f ++ e)).map toAscii = (if neg then [45] else []) ++ (i ++ f ++ e) :=
    (List.map_congr_left fun c hc => (hrange c (hall c hc)).1).trans (List.map_id _)
  obtain ⟨c, ds, hc⟩ := List.exists_cons_of_ne_nil hi.nonempty
  have hdigit : isDigit c = true := hi.digits c (hc ▸ List.mem_cons_self)
  simp only [isDigit, Bool.and_eq_true, decide_eq_true_eq] at hdigit
  have hsign : splitSign ((if neg then [45] else []) ++ (i ++ f ++ e)) = (neg, i ++ f ++ e) := by
    cases neg with
    | true => rfl
    | false =>
      rw [hc]
      exact splitSign.eq_3 _ (by rintro s ⟨⟩; omega) (by rintro s ⟨⟩; omega)
  have hlower : (i ++ f ++ e).map lowerAscii = i ++ f ++ e :=
    (List.map_congr_left fun c hc => (hrange c (hchars c hc)).2.2).trans (List.map_id _)
  have hword : ∀ w : Text, (∀ d ∈ w.head?, 57 < d) → i ++ f ++ e ≠ w := by
    rintro w hw rfl
    have := hw c (by rw [hc]; rfl)
    omega
  have hbefore : ∀ c ∈ i ++ f, decide (c ≠ 101) = true := by
    intro c hc
    have := hmantissa c hc
    simp only [isDigit, Bool.and_eq_true, decide_eq_true_eq] at this
    rw [decide_eq_true_eq]
    omega
  have hsplit : (i ++ f ++ e).takeWhile (· ≠ 101) = i ++ f ∧ (i ++ f ++ e).dropWhile (· ≠ 101) = e := by
    rw [List.takeWhile_append_of_pos hbefore, List.dropWhile_append_of_pos hbefore]
    obtain rfl | ⟨g, ds, rfl, -⟩ := he
    · simp
    · simp
  unfold floatOfText
  rw [hascii, trim_eq (fun c hc => (hrange c (hall c hc)).2.1), hsign]
  simp only [hlower, if_neg (not_or.mpr ⟨hword (txt "inf") (by decide), hword (txt "infinity") (by decide)⟩),
    if_neg (hword (txt "nan") (by decide)), hsplit.1, hsplit.2, magnitudeOf_parts hi hf, hx]

def Rounded (x : Binary64) : Prop := ∀ q, x = .fin q → q = 0 ∨ Binary64.Representable |q|

/-- What `repr` writes of a float is read back as the float. -/
theorem floatOfText_repr {x : Binary64} (h : Rounded x) : floatOfText x.repr = .ok x := by
  cases x with
  | fin q =>
    by_cases hq : q = 0
    · subst hq
      decide +kernel
    · have hr := (h q rfl).resolve_left hq
      have hcases := shortest_cases (a := |q|) (by simpa using hq)
      have hround := Binary64.round_shortest hr
      have hm : 0 < (Binary64.shortest |q|).1 := by
        apply hcases.resolve_left
        intro hzero
        rw [hzero] at hround
        have : Binary64.round false (((0 : ℕ) : ℚ) * Binary64.power 10 0) = .fin 0 := by decide +kernel
        have hfin := Binary64.fin.inj (this.symm.trans hround)
        exact hr.pos.ne hfin
      have hread := floatOfText_spells (layout_spells hm (Binary64.shortest |q|).2) (decide (q < 0))
      have hrepr : Binary64.repr (.fin q) = (if decide (q < 0) then [45] else []) ++
          Binary64.layout (Binary64.shortest |q|).1 (Binary64.shortest |q|).2 := by
        rw [Binary64.repr, if_neg hq]
        simp
      rw [hrepr, hread, Binary64.round_sign hround hr.pos.ne']
      congr 2
      by_cases hneg : q < 0
      · simp [hneg, abs_of_neg hneg]
      · simp [hneg, abs_of_nonneg (not_lt.mp hneg)]
  | negZero => decide +kernel
  | inf neg => cases neg <;> decide +kernel
  | nan => decide +kernel

end Reading

end ObserverClub.Python
