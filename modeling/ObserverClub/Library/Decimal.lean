import Mathlib.Tactic.IntervalCases
import ObserverClub.Library.Text

namespace Library

def decimal (n : ℕ) : Text := (Nat.toDigits 10 n).map Char.toNat

def decimalInt (i : ℤ) : Text := if i < 0 then 45 :: decimal i.natAbs else decimal i.natAbs

def digitsValue (t : Text) : ℕ := t.foldl (fun n c => 10 * n + (c - 48)) 0

theorem decimal_ne_nil (n : ℕ) : decimal n ≠ [] := by simp [decimal, Nat.toDigits_ne_nil]

theorem isDigit_of_mem_decimal {n c : ℕ} (h : c ∈ decimal n) : isDigit c = true := by
  simp only [decimal, List.mem_map] at h
  obtain ⟨d, hd, rfl⟩ := h
  have := Nat.isDigit_of_mem_toDigits (b := 10) (by norm_num) (by norm_num) hd
  simp only [Char.isDigit, Bool.and_eq_true, decide_eq_true_eq, UInt32.le_iff_toNat_le, ge_iff_le] at this
  simp only [isDigit, Bool.and_eq_true, decide_eq_true_eq]
  exact this

theorem digitsValue_decimal (n : ℕ) : digitsValue (decimal n) = n := by
  have h := Nat.ofDigitChars_ten_toDigits (n := n)
  rw [Nat.ofDigitChars_eq_foldl] at h
  simpa [digitsValue, decimal, List.foldl_map] using h

theorem digitsValue_append (s : Text) (c : ℕ) :
    digitsValue (s ++ [c]) = 10 * digitsValue s + (c - 48) := by simp [digitsValue]

theorem decimal_of_lt {n : ℕ} (h : n < 10) : decimal n = [48 + n] := by
  rw [decimal, Nat.toDigits_of_lt_base h]
  interval_cases n <;> rfl

theorem decimal_step {n : ℕ} (h : 0 < n) {d : ℕ} (hd : d < 10) :
    decimal (10 * n + d) = decimal n ++ [48 + d] := by
  have := Nat.toDigits_append_toDigits (b := 10) (by norm_num) h hd
  rw [decimal, ← this, List.map_append, ← decimal, ← decimal, decimal_of_lt hd]

theorem decimal_digitsValue {c : ℕ} (t : Text) (hc : isDigit c = true) (h0 : c ≠ 48)
    (ht : ∀ x ∈ t, isDigit x = true) : decimal (digitsValue (c :: t)) = c :: t := by
  have hpos : ∀ t : Text, 0 < digitsValue (c :: t) := by
    intro t
    induction t using List.reverseRecOn with
    | nil =>
      simp only [isDigit, Bool.and_eq_true, decide_eq_true_eq] at hc
      simp only [digitsValue, List.foldl_cons, List.foldl_nil]
      omega
    | append_singleton t x ih =>
      rw [← List.cons_append, digitsValue_append]
      omega
  induction t using List.reverseRecOn with
  | nil =>
    simp only [isDigit, Bool.and_eq_true, decide_eq_true_eq] at hc
    simp only [digitsValue, List.foldl_cons, List.foldl_nil]
    rw [decimal_of_lt (by omega)]
    congr 1
    omega
  | append_singleton t x ih =>
    have hx := ht x (by simp)
    simp only [isDigit, Bool.and_eq_true, decide_eq_true_eq] at hx
    rw [← List.cons_append, digitsValue_append, decimal_step (hpos t) (by omega),
      ih (fun y hy => ht y (by simp [hy]))]
    simp only [List.cons_append, List.cons.injEq, List.append_cancel_left_eq, List.cons.injEq, and_true, true_and]
    omega

theorem mem_decimalInt {i : ℤ} {c : ℕ} (h : c ∈ decimalInt i) : c = 45 ∨ isDigit c = true := by
  unfold decimalInt at h
  split_ifs at h
  · rcases List.mem_cons.mp h with rfl | h
    · exact .inl rfl
    · exact .inr (isDigit_of_mem_decimal h)
  · exact .inr (isDigit_of_mem_decimal h)

end Library
