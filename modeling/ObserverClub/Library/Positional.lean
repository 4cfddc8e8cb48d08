import Mathlib.Data.Nat.Digits.Lemmas
import Mathlib.Tactic.Ring

namespace Library.Positional

/-- The number that digits spell in a base, the highest first. -/
def value (base : ℕ) (ds : List ℕ) : ℕ := ds.foldl (fun n d => n * base + d) 0

theorem foldl_value (base n : ℕ) (ds : List ℕ) :
    ds.foldl (fun n d => n * base + d) n = n * base ^ ds.length + value base ds := by
  induction ds generalizing n with
  | nil => simp [value]
  | cons d ds ih =>
    rw [value, List.foldl_cons, List.foldl_cons, ih, ih (0 * base + d), List.length_cons]
    ring

theorem value_append (base : ℕ) (ds es : List ℕ) : value base (ds ++ es) = value base ds * base ^ es.length + value base es := by
  rw [value, List.foldl_append, foldl_value]
  rfl

theorem value_cons (base d : ℕ) (ds : List ℕ) : value base (d :: ds) = d * base ^ ds.length + value base ds := by
  rw [value, List.foldl_cons, foldl_value, Nat.zero_mul, Nat.zero_add]

theorem value_reverse (base : ℕ) (ds : List ℕ) : value base ds.reverse = Nat.ofDigits base ds := by
  induction ds with
  | nil => rfl
  | cons d ds ih =>
    rw [List.reverse_cons, value_append, ih, Nat.ofDigits_cons, value_cons]
    simp only [List.length_nil, List.length_cons, value, List.foldl_nil]
    ring

theorem value_lt {base : ℕ} {ds : List ℕ} (h : ∀ d ∈ ds, d < base) : value base ds < base ^ ds.length := by
  induction ds with
  | nil => exact Nat.one_pos
  | cons d ds ih =>
    obtain ⟨hd, hds⟩ := List.forall_mem_cons.mp h
    have hrest := ih hds
    rw [value_cons, List.length_cons, Nat.pow_succ]
    calc d * base ^ ds.length + value base ds < d * base ^ ds.length + base ^ ds.length := Nat.add_lt_add_left hrest _
      _ = (d + 1) * base ^ ds.length := by ring
      _ ≤ base * base ^ ds.length := Nat.mul_le_mul_right _ hd
      _ = base ^ ds.length * base := Nat.mul_comm _ _

theorem value_digits (base n : ℕ) : value base (Nat.digits base n).reverse = n := by
  rw [value_reverse, Nat.ofDigits_digits]

theorem value_zeros (base k : ℕ) (ds : List ℕ) : value base (List.replicate k 0 ++ ds) = value base ds := by
  induction k with
  | zero => rfl
  | succ k ih =>
    rw [List.replicate_succ, List.cons_append, value_cons, Nat.zero_mul, Nat.zero_add, ih]

end Library.Positional
