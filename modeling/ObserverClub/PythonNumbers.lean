import ObserverClub.Library.JsonScalars
import ObserverClub.Python

namespace ObserverClub.Python

open Library

theorem trim_eq {p : ℕ → Bool} {t : Text} (h : ∀ c ∈ t, p c = false) : trim p t = t := by
  have drop : ∀ u : Text, (∀ c ∈ u, p c = false) → u.dropWhile p = u := by
    intro u hu
    cases u with
    | nil => rfl
    | cons c u => simp [hu c (by simp)]
  rw [trim, drop t h, drop t.reverse (by simpa using h), List.reverse_reverse]

theorem digitGroups_digits {t : Text} (hne : t ≠ []) (h : ∀ c ∈ t, isDigit c = true) :
    digitGroups t = some t := by
  induction t with
  | nil => exact absurd rfl hne
  | cons c t ih =>
    have hc := h c (by simp)
    cases t with
    | nil => simp [digitGroups, hc]
    | cons d t =>
      have hd : d ≠ 95 := by
        rintro rfl
        simpa [isDigit] using h 95 (by simp)
      rw [digitGroups.eq_4 _ _ (by simp) (by simp [hd]), if_pos hc, ih (by simp) (fun x hx => h x (by simp [hx]))]
      rfl

/-- The sign and the digits of what `%d` writes. -/
theorem splitSign_decimalInt (i : ℤ) : splitSign (decimalInt i) = (decide (i < 0), decimal i.natAbs) := by
  unfold decimalInt
  split_ifs with hi
  · simp [splitSign, hi]
  · obtain ⟨c, t, ht⟩ := List.exists_cons_of_ne_nil (decimal_ne_nil i.natAbs)
    have hc : isDigit c = true := isDigit_of_mem_decimal (n := i.natAbs) (by simp [ht])
    simp only [isDigit, Bool.and_eq_true, decide_eq_true_eq] at hc
    rw [ht]
    simp only [hi, decide_false]
    exact splitSign.eq_3 _ (by rintro s ⟨⟩; omega) (by rintro s ⟨⟩; omega)

/-- Every character that `%d` writes is ASCII and no white space. -/
theorem decimalInt_ascii {i : ℤ} {c : ℕ} (hc : c ∈ decimalInt i) : c < 128 ∧ isSpaceAscii c = false := by
  rcases mem_decimalInt hc with rfl | hd
  · decide
  · simp only [isDigit, Bool.and_eq_true, decide_eq_true_eq] at hd
    simp [isSpaceAscii]
    omega

/-- `int()` reads back what `%d` writes. -/
theorem intOfText_decimalInt {i : ℤ} (h : (decimal i.natAbs).length ≤ maxStrDigits) :
    intOfText (decimalInt i) = .ok i := by
  have hmap : (decimalInt i).map toAscii = decimalInt i := by
    rw [List.map_congr_left (g := id) (fun c hc => by simp [toAscii, (decimalInt_ascii hc).1]), List.map_id]
  unfold intOfText
  rw [hmap, trim_eq (fun c hc => (decimalInt_ascii hc).2), splitSign_decimalInt]
  simp only [digitGroups_digits (decimal_ne_nil _) (fun c => isDigit_of_mem_decimal), digitsValue_decimal]
  rw [if_neg (by omega)]
  congr 1
  split_ifs with hi <;> simp only [decide_eq_true_eq] at hi <;> omega

section Literals

def plainInteger (lit : Text) : Bool := !isFloat lit && lit ≠ txt "-0"

theorem literal_integer {s lit r : Text} (h : Json.readNumber s = some (lit, r)) (hf : isFloat lit = false) :
    ∃ i s₁, Json.readInt (Json.readSign s).2 = some (i, s₁) ∧ lit = (Json.readSign s).1 ++ i := by
  have hmark : ∀ c ∈ lit, c ≠ 46 ∧ c ≠ 101 ∧ c ≠ 69 := by
    intro c hc
    simp only [isFloat, List.any_eq_false, Bool.or_eq_true, beq_iff_eq] at hf
    have := hf c hc
    omega
  unfold Json.readNumber at h
  split at h
  · simp at h
  · rename_i i s₁ hi
    split at h
    · simp at h
    · rename_i f s₂ hfrac
      split at h
      · simp at h
      · rename_i e s₃ hexp
        simp only [Option.some.injEq, Prod.mk.injEq] at h
        obtain ⟨rfl, rfl⟩ := h
        have hf0 : f = [] := by
          unfold Json.readFrac at hfrac
          split at hfrac
          · simp only [Option.map_eq_some_iff, Prod.mk.injEq] at hfrac
            obtain ⟨q, -, rfl, -⟩ := hfrac
            exact absurd rfl (hmark 46 (by simp)).1
          · simp only [Option.some.injEq, Prod.mk.injEq] at hfrac
            exact hfrac.1.symm
        have he0 : e = [] := by
          unfold Json.readExp at hexp
          split at hexp
          · simp_all
          · rename_i c t
            split_ifs at hexp with hc
            · have mark : c ∈ (Json.readSign s).1 ++ i ++ f ++ e → False := fun hm => by
                have := hmark c hm
                omega
              split at hexp
              · simp at hexp
              · split_ifs at hexp
                all_goals
                  simp only [Option.map_eq_some_iff, Prod.mk.injEq] at hexp
                  obtain ⟨q, -, rfl, -⟩ := hexp
                  exact (mark (by simp)).elim
            · simp only [Option.some.injEq, Prod.mk.injEq] at hexp
              exact hexp.1.symm
        exact ⟨i, s₁, hi, by simp [hf0, he0]⟩

theorem literal_decimal {s lit r : Text} (h : Json.readNumber s = some (lit, r)) (hp : plainInteger lit = true) :
    ∃ n : ℤ, lit = decimalInt n := by
  simp only [plainInteger, Bool.and_eq_true, Bool.not_eq_true', decide_eq_true_eq] at hp
  obtain ⟨hf, hz⟩ := hp
  obtain ⟨i, s₁, hi, rfl⟩ := literal_integer h hf
  have hint : i = [48] ∨ ∃ n : ℕ, 0 < n ∧ i = decimal n := by
    cases hs : (Json.readSign s).2 with
    | nil => simp [hs, Json.readInt] at hi
    | cons c t =>
      simp only [hs, Json.readInt] at hi
      split_ifs at hi with h0 hd
      · simp only [Option.some.injEq, Prod.mk.injEq] at hi
        exact .inl hi.1.symm
      · simp only [Option.some.injEq, Prod.mk.injEq] at hi
        have hdig : ∀ x ∈ t.takeWhile isDigit, isDigit x = true := List.all_eq_true.mp List.all_takeWhile
        have hdec := decimal_digitsValue (t.takeWhile isDigit) hd h0 hdig
        refine .inr ⟨_, ?_, by rw [hdec]; exact hi.1.symm⟩
        rw [Nat.pos_iff_ne_zero]
        intro hv
        rw [hv] at hdec
        simp only [decimal, Nat.toDigits_zero, List.map_cons, List.cons.injEq] at hdec
        exact h0 hdec.1.symm
  have hsign : (Json.readSign s).1 = [] ∨ (Json.readSign s).1 = [45] := by
    unfold Json.readSign
    split <;> simp
  rcases hsign with hs | hs <;> rw [hs] at hz ⊢ <;> rcases hint with rfl | ⟨n, hn, rfl⟩
  · exact ⟨0, rfl⟩
  · exact ⟨n, by simp [decimalInt]⟩
  · exact absurd rfl hz
  · exact ⟨-n, by simp [decimalInt, hn]⟩

theorem filter_decimalInt (n : ℤ) : (decimalInt n).filter isDigit = decimal n.natAbs := by
  have h : (decimal n.natAbs).filter isDigit = decimal n.natAbs :=
    List.filter_eq_self.mpr fun c hc => isDigit_of_mem_decimal hc
  unfold decimalInt
  split_ifs
  · rw [List.filter_cons_of_neg (by decide), h]
  · exact h

theorem isFloat_decimalInt (n : ℤ) : isFloat (decimalInt n) = false := by
  simp only [isFloat, List.any_eq_false, Bool.or_eq_true, beq_iff_eq]
  intro c hc
  rcases mem_decimalInt hc with rfl | hd
  · decide
  · simp only [isDigit, Bool.and_eq_true, decide_eq_true_eq] at hd
    omega

theorem numText_numberOf {py : Interpreter} {s lit r : Text} (h : Json.readNumber s = some (lit, r))
    (hok : (dialect py).numberOk lit = true) (hp : plainInteger lit = true) :
    numText (numberOf lit) = lit ∧ (numberOf lit).short = true := by
  obtain ⟨n, rfl⟩ := literal_decimal h hp
  have hlen : (decimal n.natAbs).length ≤ maxStrDigits := by
    simpa [dialect, isFloat_decimalInt, filter_decimalInt] using hok
  have hn : numberOf (decimalInt n) = .int n := by
    simp [numberOf, isFloat_decimalInt, intOfText_decimalInt hlen, Except.toOption]
  exact ⟨by rw [hn]; rfl, by rw [hn]; simpa [Num.short] using hlen⟩

end Literals

end ObserverClub.Python
