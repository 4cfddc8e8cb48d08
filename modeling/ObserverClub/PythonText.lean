import ObserverClub.Library.JsonRoundTrip
import ObserverClub.PythonNumbers

namespace ObserverClub.Python

open Library Json

section Digits

theorem decimal_head {n : ℕ} (h : 0 < n) : (decimal n).head? ≠ some 48 := by
  induction n using Nat.strong_induction_on with
  | _ n ih =>
    by_cases hlt : n < 10
    · rw [decimal_of_lt hlt, List.head?_cons, ne_eq, Option.some.injEq]
      omega
    · have hs := decimal_step (n := n / 10) (by omega) (d := n % 10) (by omega)
      rw [show 10 * (n / 10) + n % 10 = n by omega] at hs
      rw [hs, List.head?_append_of_ne_nil _ (decimal_ne_nil _)]
      exact ih (n / 10) (by omega) (by omega)

theorem decimal_part (n : ℕ) : IntPart (decimal n) where
  digits _ := isDigit_of_mem_decimal
  nonempty := decimal_ne_nil n
  leading h := by
    rcases Nat.eq_zero_or_pos n with rfl | hn
    · rfl
    · exact absurd h (decimal_head hn)

def significant (m : ℕ) : Text := ((decimal m).reverse.dropWhile (· = 48)).reverse

theorem significant_prefix (m : ℕ) : ∃ zeros, decimal m = significant m ++ zeros ∧ ∀ c ∈ zeros, c = 48 := by
  refine ⟨((decimal m).reverse.takeWhile (· = 48)).reverse, ?_, ?_⟩
  · rw [significant, ← List.reverse_append, List.takeWhile_append_dropWhile, List.reverse_reverse]
  · intro c hc
    simpa using List.mem_takeWhile_imp (List.mem_reverse.mp hc)

theorem significant_digits (m : ℕ) : ∀ c ∈ significant m, isDigit c = true := by
  obtain ⟨zeros, h, -⟩ := significant_prefix m
  intro c hc
  exact isDigit_of_mem_decimal (n := m) (by rw [h]; simp [hc])

theorem significant_ne_nil {m : ℕ} (h : 0 < m) : significant m ≠ [] := by
  obtain ⟨zeros, hm, hz⟩ := significant_prefix m
  intro he
  rw [he, List.nil_append] at hm
  have hne := decimal_ne_nil m
  obtain ⟨c, t, hc⟩ := List.exists_cons_of_ne_nil hne
  apply decimal_head h
  rw [hc, List.head?_cons, hz c (by rw [← hm, hc]; simp)]

theorem significant_head {m : ℕ} (h : 0 < m) : (significant m).head? ≠ some 48 := by
  obtain ⟨zeros, hm, -⟩ := significant_prefix m
  have := decimal_head h
  rwa [hm, List.head?_append_of_ne_nil _ (significant_ne_nil h)] at this

theorem significant_part {m : ℕ} (h : 0 < m) (i t : Text) (hi : i ≠ []) (hd : ∀ c ∈ i, isDigit c = true)
    (hs : i ++ t = significant m ∨ ∃ zeros, i = significant m ++ zeros) : IntPart i := by
  have hhead : i.head? ≠ some 48 := by
    obtain hs | ⟨zeros, hs⟩ := hs
    · have := significant_head h
      rwa [← hs, List.head?_append_of_ne_nil _ hi] at this
    · rw [hs, List.head?_append_of_ne_nil _ (significant_ne_nil h)]
      exact significant_head h
  exact ⟨hd, hi, fun h48 => absurd h48 hhead⟩

theorem padded_digits (n w : ℕ) : Binary64.padded n w ≠ [] ∧ ∀ c ∈ Binary64.padded n w, isDigit c = true := by
  constructor
  · simp [Binary64.padded, decimal_ne_nil]
  · intro c hc
    simp only [Binary64.padded, List.mem_append, List.mem_replicate] at hc
    obtain ⟨-, rfl⟩ | hc := hc
    · rfl
    · exact isDigit_of_mem_decimal hc

end Digits

section Floats

def InParts (t : Text) : Prop := ∃ i f e, t = i ++ f ++ e ∧ IntPart i ∧ FracPart f ∧ ExpPart e

theorem layout_parts {m : ℕ} (h : 0 < m) (e : ℤ) : InParts (Binary64.layout m e) := by
  have hne := significant_ne_nil h
  have hd := significant_digits m
  have zeros : ∀ n, ∀ c ∈ List.replicate n 48, isDigit c = true := by
    intro n c hc
    rw [(List.mem_replicate.mp hc).2]
    rfl
  have hlayout : Binary64.layout m e =
      if -4 < (decimal m).length + e ∧ (decimal m).length + e ≤ 16 then
        if (decimal m).length + e ≤ 0 then
          txt "0." ++ List.replicate (-((decimal m).length + e)).toNat 48 ++ significant m
        else if (significant m).length ≤ ((decimal m).length + e).toNat then
          significant m ++ List.replicate (((decimal m).length + e).toNat - (significant m).length) 48 ++ txt ".0"
        else (significant m).take ((decimal m).length + e).toNat ++ [46] ++
          (significant m).drop ((decimal m).length + e).toNat
      else
        (significant m).take 1 ++ (if (significant m).length ≤ 1 then [] else 46 :: (significant m).drop 1) ++
          (if (decimal m).length + e - 1 < 0 then txt "e-" else txt "e+") ++
          Binary64.padded ((decimal m).length + e - 1).natAbs 2 := rfl
  generalize (decimal m).length + e = point at hlayout
  rw [hlayout]
  split_ifs with h₁ h₂ h₃ h₄ h₅ h₅
  · refine ⟨[48], 46 :: (List.replicate (-point).toNat 48 ++ significant m), [], ?_, ?_, ?_, .inl rfl⟩
    · simp [txt]
    · exact ⟨by simp [isDigit], by simp, fun _ => rfl⟩
    · refine .inr ⟨_, rfl, by simp [hne], ?_⟩
      rw [List.forall_mem_append]
      exact ⟨zeros _, hd⟩
  · refine ⟨significant m ++ List.replicate (point.toNat - (significant m).length) 48, [46, 48], [], ?_, ?_, ?_,
      .inl rfl⟩
    · simp [txt]
    · refine significant_part h _ [] (by simp [hne]) ?_ (.inr ⟨_, rfl⟩)
      rw [List.forall_mem_append]
      exact ⟨hd, zeros _⟩
    · exact .inr ⟨[48], rfl, by simp, by simp [isDigit]⟩
  · refine ⟨(significant m).take point.toNat, 46 :: (significant m).drop point.toNat, [], ?_, ?_, ?_, .inl rfl⟩
    · simp
    · refine significant_part h _ ((significant m).drop point.toNat) ?_ (fun c hc => hd c (List.mem_of_mem_take hc))
        (.inl (List.take_append_drop _ _))
      rw [ne_eq, List.take_eq_nil_iff, not_or]
      exact ⟨by omega, hne⟩
    · refine .inr ⟨_, rfl, ?_, fun c hc => hd c (List.mem_of_mem_drop hc)⟩
      rw [ne_eq, List.drop_eq_nil_iff]
      omega
  all_goals
    have hi : IntPart ((significant m).take 1) := by
      refine significant_part h _ ((significant m).drop 1) ?_ (fun c hc => hd c (List.mem_of_mem_take hc))
        (.inl (List.take_append_drop _ _))
      rw [ne_eq, List.take_eq_nil_iff, not_or]
      exact ⟨by omega, hne⟩
    obtain ⟨hp, hpd⟩ := padded_digits (point - 1).natAbs 2
  · exact ⟨_, [], 101 :: 45 :: Binary64.padded (point - 1).natAbs 2, by simp [txt], hi, .inl rfl,
      .inr ⟨45, _, rfl, .inr rfl, hp, hpd⟩⟩
  · exact ⟨_, [], 101 :: 43 :: Binary64.padded (point - 1).natAbs 2, by simp [txt], hi, .inl rfl,
      .inr ⟨43, _, rfl, .inl rfl, hp, hpd⟩⟩
  all_goals
    have hf : FracPart (46 :: (significant m).drop 1) := by
      refine .inr ⟨_, rfl, ?_, fun c hc => hd c (List.mem_of_mem_drop hc)⟩
      rw [ne_eq, List.drop_eq_nil_iff]
      omega
  · exact ⟨_, _, 101 :: 45 :: Binary64.padded (point - 1).natAbs 2, by simp [txt], hi, hf,
      .inr ⟨45, _, rfl, .inr rfl, hp, hpd⟩⟩
  · exact ⟨_, _, 101 :: 43 :: Binary64.padded (point - 1).natAbs 2, by simp [txt], hi, hf,
      .inr ⟨43, _, rfl, .inl rfl, hp, hpd⟩⟩

theorem shortest_cases {a : ℚ} (h : a ≠ 0) : Binary64.shortest a = (0, 0) ∨ 0 < (Binary64.shortest a).1 := by
  rw [Binary64.shortest]
  cases hs : (List.range 17).findSome? (fun k => Binary64.digitsOfLength a (k + 1)) with
  | none => exact .inl rfl
  | some p =>
    right
    obtain ⟨k, -, hk⟩ := List.exists_of_findSome?_eq_some hs
    simp only [Binary64.digitsOfLength, Option.map_eq_some_iff] at hk
    obtain ⟨m, hm, rfl⟩ := hk
    have hback := List.find?_some hm
    rw [Option.getD_some, Nat.pos_iff_ne_zero]
    rintro rfl
    simp only [Nat.cast_zero, zero_mul, decide_eq_true_eq] at hback
    rw [Binary64.round, if_pos rfl, Binary64.signed, if_pos rfl] at hback
    simp only [Bool.false_eq_true, if_false, Binary64.fin.injEq] at hback
    exact h hback.symm

theorem layout_shortest {a : ℚ} (h : a ≠ 0) :
    InParts (Binary64.layout (Binary64.shortest a).1 (Binary64.shortest a).2) := by
  obtain hs | hs := shortest_cases h
  · rw [hs]
    exact ⟨[48], [46, 48], [], by decide, ⟨by decide, by decide, fun _ => rfl⟩,
      .inr ⟨[48], rfl, by decide, by decide⟩, .inl rfl⟩
  · exact layout_parts hs _

end Floats

section Printing

def anyDialect (depth : ℕ) : Dialect := ⟨depth, true, fun _ => true⟩

def isFinite : Num → Bool
  | .int _ => true
  | .float (.fin _) => true
  | .float .negZero => true
  | .float _ => false

def tokenOf (n : Num) : Tree := if isFinite n then .num (numText n) else .const (numText n)

theorem numText_parts {n : Num} (h : isFinite n = true) : ∃ (neg : Bool) (t : Text),
    numText n = (if neg then [45] else []) ++ t ∧ InParts t := by
  have integer : ∀ k, InParts (decimal k) := by
    intro k
    exact ⟨decimal k, [], [], by simp, decimal_part k, .inl rfl, .inl rfl⟩
  have zero : InParts (txt "0.0") :=
    ⟨[48], [46, 48], [], by decide, ⟨by decide, by decide, fun _ => rfl⟩, .inr ⟨[48], rfl, by decide, by decide⟩, .inl rfl⟩
  cases n with
  | int i =>
    refine ⟨decide (i < 0), decimal i.natAbs, ?_, integer _⟩
    rw [numText, decimalInt]
    by_cases hi : i < 0
    · simp [hi]
    · simp [hi]
  | float x =>
    cases x with
    | fin q =>
      by_cases hq : q = 0
      · refine ⟨false, txt "0.0", ?_, zero⟩
        simp [numText, floatText, Binary64.repr, hq]
      · refine ⟨decide (q < 0), _, ?_, layout_shortest (a := |q|) (by simpa using hq)⟩
        simp [numText, floatText, Binary64.repr, hq]
    | negZero => exact ⟨true, txt "0.0", by decide, zero⟩
    | inf neg => cases h
    | nan => cases h

theorem readNumber_numText {n : Num} (h : isFinite n = true) {r : Text} (hr : NumberEnds r) :
    readNumber (numText n ++ r) = some (numText n, r) := by
  obtain ⟨neg, t, ht, i, f, e, rfl, hi, hf, he⟩ := numText_parts h
  have := readNumber_parts neg hi hf he hr
  rw [ht]
  simpa only [List.append_assoc] using this

theorem readScalar_numText (k : ℕ) (n : Num) : ∃ c s, numText n = c :: s ∧ c ≠ 34 ∧ c ≠ 91 ∧ c ≠ 93 ∧ c ≠ 123 ∧
    isWs c = false ∧ ∀ r, NumberEnds r → readScalar (anyDialect k) c (s ++ r) = .ok (tokenOf n, r) := by
  have constant : ∀ c s, isFinite n = false → numText n = c :: s →
      (∀ r, keywordAt (anyDialect k) c (s ++ r) = some (c :: s, .const (c :: s))) →
      ∀ r, readScalar (anyDialect k) c (s ++ r) = .ok (tokenOf n, r) := by
    intro c s hn ht hk r
    rw [tokenOf, hn, ht]
    exact readScalar_word _ r (hk r)
  cases hn : isFinite n with
  | true =>
    have hread := fun r hr => readNumber_numText hn (r := r) hr
    obtain ⟨c, s, hc⟩ : ∃ c s, numText n = c :: s := by
      have := (readNumber_split (hread [] (by simp [NumberEnds]))).2
      exact List.exists_cons_of_ne_nil this
    have hhead : isDigit c = true ∨ c = 45 := by
      have := hread [] (by simp [NumberEnds])
      rw [List.append_nil, hc] at this
      obtain hd | ⟨rfl, -⟩ := readNumber_head this
      · exact .inl hd
      · exact .inr rfl
    have hrange : c = 45 ∨ 48 ≤ c ∧ c ≤ 57 := by
      simp only [isDigit, Bool.and_eq_true, decide_eq_true_eq] at hhead
      omega
    refine ⟨c, s, hc, by omega, by omega, by omega, by omega, ?_, ?_⟩
    · simp only [isWs, Bool.or_eq_false_iff, beq_eq_false_iff_ne]
      omega
    · intro r hr
      have hn' := hread r hr
      rw [hc, List.cons_append] at hn'
      have hkey := keywordAt_number (d := anyDialect k) hn' []
      rw [List.append_nil] at hkey
      rw [readScalar, hkey]
      simp only [hn', anyDialect, if_true]
      rw [tokenOf, hn, if_pos rfl, hc]
  | false =>
    cases n with
    | int i => cases hn
    | float x =>
      cases x with
      | fin q => cases hn
      | negZero => cases hn
      | inf neg =>
        cases neg with
        | true =>
          exact ⟨45, txt "Infinity", rfl, by decide, by decide, by decide, by decide, by decide,
            fun r _ => constant 45 (txt "Infinity") hn rfl (fun _ => rfl) r⟩
        | false =>
          exact ⟨73, txt "nfinity", rfl, by decide, by decide, by decide, by decide, by decide,
            fun r _ => constant 73 (txt "nfinity") hn rfl (fun _ => rfl) r⟩
      | nan =>
        exact ⟨78, txt "aN", rfl, by decide, by decide, by decide, by decide, by decide,
          fun r _ => constant 78 (txt "aN") hn rfl (fun _ => rfl) r⟩

theorem writer_printed (k : ℕ) : Printed (anyDialect k) tokenOf (writer false) where
  symbol _ := rfl
  num := readScalar_numText k
  str _ := rfl
  key _ := rfl
  arrange _ := rfl

theorem readFirst_render (v : Value) :
    readFirst (anyDialect v.depth) ((writer false).render v) = .ok (treeOf tokenOf v, []) :=
  (writer_printed v.depth).readFirst v (le_refl _)

end Printing

end ObserverClub.Python
