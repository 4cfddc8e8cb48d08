import Mathlib.Algebra.Order.Group.Defs
import Mathlib.Algebra.Order.Sub.Basic
import Mathlib.Data.List.Count
import Mathlib.Tactic.Abel
import Mathlib.Algebra.Order.Group.Abs

namespace Library.Window

variable {α : Type} [AddCommGroup α] [LinearOrder α]

/-- How many of the times lie in the window that starts at `start`. -/
def within (w start : α) (ts : List α) : ℕ := ts.countP (fun t => start ≤ t ∧ t < start + w)

/-- How many of the times a clock that reads `now` still counts. -/
def recent (w now : α) (ts : List α) : ℕ := ts.countP (fun t => now - w < t)

/-- No window holds more than `n` of the times. -/
def Spaced (w : α) (n : ℕ) (ts : List α) : Prop := ∀ start, within w start ts ≤ n

theorem recent_append (w now : α) (ts us : List α) :
    recent w now (ts ++ us) = recent w now ts + recent w now us := List.countP_append

theorem recent_le_length (w now : α) (ts : List α) : recent w now ts ≤ ts.length := List.countP_le_length

theorem Spaced.nil (w : α) (n : ℕ) : Spaced w n [] := fun _ => Nat.zero_le n

theorem Spaced.sublist {w : α} {n : ℕ} {ts us : List α} (h : Spaced w n ts) (hs : us.Sublist ts) : Spaced w n us :=
  fun start => (hs.countP_le).trans (h start)

variable [IsOrderedAddMonoid α]

theorem recent_filter {w now later : α} (h : now ≤ later) (ts : List α) :
    recent w later (ts.filter (fun t => now - w < t)) = recent w later ts := by
  rw [recent, recent, List.countP_filter]
  apply List.countP_congr
  intro t _
  simp only [Bool.and_eq_true, decide_eq_true_eq]
  constructor
  · exact fun ht => ht.1
  · exact fun ht => ⟨ht, (sub_le_sub_right h w).trans_lt ht⟩

theorem Spaced.append {w : α} {n : ℕ} {ts : List α} {t : α} (h : Spaced w n ts) (hr : recent w t ts < n) :
    Spaced w n (ts ++ [t]) := by
  intro start
  rw [within, List.countP_append]
  by_cases ht : start ≤ t ∧ t < start + w
  · have hle : within w start ts ≤ recent w t ts := by
      apply List.countP_mono_left
      intro s _ hs
      simp only [decide_eq_true_eq] at hs ⊢
      exact (sub_lt_iff_lt_add.mpr ht.2).trans_le hs.1
    have hone : List.countP (fun t => decide (start ≤ t ∧ t < start + w)) [t] = 1 := by simp [ht]
    rw [hone]
    exact Nat.succ_le_of_lt (hle.trans_lt hr)
  · have hzero : List.countP (fun t => decide (start ≤ t ∧ t < start + w)) [t] = 0 := by simpa using ht
    rw [hzero]
    exact h start

end Library.Window
