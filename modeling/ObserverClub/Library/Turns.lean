import Mathlib.Data.Nat.Basic
import Mathlib.Tactic.SplitIfs

/-!
Two sides share out rounds between them. Each has slots that are free, and the side with more of them goes
next, the left one where both have as many. A side on which nobody waits leaves its rounds to the other.
-/

namespace Library.Turns

inductive Side where
  | left
  | right
  deriving DecidableEq

/-- Who goes next, with `a` and `b` slots free. -/
def turn (a b : ℕ) : Option Side :=
  if 0 < a ∧ b ≤ a then some .left else if 0 < b then some .right else none

/-- The next `n` rounds, with `l` and `r` waiting, where each round takes `k` slots of its side. -/
def rounds (k : ℕ) : ℕ → ℕ → ℕ → ℕ → ℕ → List Side
  | 0, _, _, _, _ => []
  | _ + 1, 0, 0, _, _ => []
  | n + 1, l + 1, 0, a, b => .left :: rounds k n l 0 (a - k) b
  | n + 1, 0, r + 1, a, b => .right :: rounds k n 0 r a (b - k)
  | n + 1, l + 1, r + 1, a, b =>
    match turn a b with
    | none => []
    | some .left => .left :: rounds k n l (r + 1) (a - k) b
    | some .right => .right :: rounds k n (l + 1) r a (b - k)

/-- After how many rounds of each side it first tells whether a round takes two slots or one. -/
def parting (a b : ℕ) : Option (ℕ × ℕ) :=
  if a ≤ 1 ∧ b ≤ 1 then none
  else if max b 1 < a then some ((a - max b 1) / 2 + 1, 0)
  else if a + 2 ≤ b then some (0, (b - a + 1) / 2)
  else some ((a + 1) / 2, (b + 1) / 2)

section Turn

variable {a b : ℕ}

theorem turn_left (ha : 0 < a) (h : b ≤ a) : turn a b = some .left := if_pos ⟨ha, h⟩

theorem turn_right (h : a < b) : turn a b = some .right := by
  unfold turn
  rw [if_neg (by omega), if_pos (by omega)]

theorem turn_ne_left (h : a = 0 ∨ a < b) : turn a b ≠ some .left := by
  unfold turn
  rw [if_neg (by omega)]
  split_ifs <;> simp

theorem turn_ne_right (h : b ≤ a) : turn a b ≠ some .right := by
  unfold turn
  by_cases ha : 0 < a
  · rw [if_pos ⟨ha, h⟩]
    simp
  · rw [if_neg (by omega), if_neg (by omega)]
    simp

end Turn

inductive Parts : ℕ → ℕ → ℕ → ℕ → Option (ℕ × ℕ) → Prop where
  | here {a b a' b' : ℕ} (h : turn a b ≠ turn a' b') : Parts a b a' b' (some (0, 0))
  | finished {a b a' b' : ℕ} (h : turn a b = none) (h' : turn a' b' = none) : Parts a b a' b' none
  | left {a b a' b' : ℕ} {d : Option (ℕ × ℕ)} (h : turn a b = some .left) (h' : turn a' b' = some .left)
      (hd : Parts (a - 2) b (a' - 1) b' d) : Parts a b a' b' (d.map fun x => (x.1 + 1, x.2))
  | right {a b a' b' : ℕ} {d : Option (ℕ × ℕ)} (h : turn a b = some .right) (h' : turn a' b' = some .right)
      (hd : Parts a (b - 2) a' (b' - 1) d) : Parts a b a' b' (d.map fun x => (x.1, x.2 + 1))

section Phases

theorem parts_left (b j : ℕ) {a a' : ℕ} (hlast : max b 1 + j ≤ a') (hsoon : a < max b 1 + 2 * j)
    (hnot : j = 0 ∨ max b 1 + 2 * j ≤ a + 2) :
    Parts a b a' b (some (j, 0)) := by
  induction j generalizing a a' with
  | zero =>
    apply Parts.here
    rw [turn_left (a := a') (by omega) (by omega)]
    exact turn_ne_left (by omega)
  | succ j ih =>
    exact Parts.left (turn_left (by omega) (by omega)) (turn_left (by omega) (by omega))
      (ih (by omega) (by omega) (by omega))

theorem parts_right (a j : ℕ) {b b' : ℕ} (hlast : a + j < b') (hsoon : b ≤ a + 2 * j) (hnot : j = 0 ∨ a + 2 * j < b + 2) :
    Parts a b a b' (some (0, j)) := by
  induction j generalizing b b' with
  | zero =>
    apply Parts.here
    rw [turn_right (b := b') (by omega)]
    exact turn_ne_right (by omega)
  | succ j ih =>
    exact Parts.right (turn_right (by omega)) (turn_right (by omega)) (ih (by omega) (by omega) (by omega))

theorem parts_even (j : ℕ) {a a' : ℕ} (hlast : j < a') (hsoon : a ≤ 2 * j) (hnot : j = 0 ∨ 2 * j < a + 2) :
    Parts a a a' a' (some (j, j)) := by
  induction j generalizing a a' with
  | zero =>
    apply Parts.here
    rw [turn_left (a := a') (by omega) (le_refl _)]
    exact turn_ne_left (by omega)
  | succ j ih =>
    exact Parts.left (turn_left (by omega) (le_refl _)) (turn_left (by omega) (le_refl _))
      (Parts.right (turn_right (by omega)) (turn_right (by omega)) (ih (by omega) (by omega) (by omega)))

theorem parts_odd (a : ℕ) {a' : ℕ} (hlast : a / 2 < a') : Parts a (a + 1) a' (a' + 1) (some ((a + 1) / 2, (a + 2) / 2)) := by
  induction a using Nat.twoStepInduction generalizing a' with
  | zero =>
    refine Parts.right (d := some (0, 0)) (turn_right (by omega)) (turn_right (by omega)) (Parts.here ?_)
    rw [turn_left (a := a' ) (by omega) (by omega)]
    exact turn_ne_left (by omega)
  | one =>
    refine Parts.right (d := some (1, 0)) (turn_right (by omega)) (turn_right (by omega)) ?_
    refine Parts.left (d := some (0, 0)) (turn_left (by omega) (by omega)) (turn_left (by omega) (by omega)) (Parts.here ?_)
    rw [turn_right (b := a' + 1 - 1) (by omega)]
    exact turn_ne_right (by omega)
  | more a ih _ =>
    obtain ⟨a', rfl⟩ : ∃ x, a' = x + 1 := ⟨a' - 1, by omega⟩
    have hrest : Parts a (a + 1) a' (a' + 1) (some ((a + 1) / 2, (a + 2) / 2)) := ih (by omega)
    have hleft := Parts.left (turn_left (by omega : 0 < a + 2) (by omega : a + 1 ≤ a + 2))
      (turn_left (by omega : 0 < a' + 1) (le_refl _)) hrest
    have hright := Parts.right (turn_right (by omega : a + 2 < a + 3)) (turn_right (by omega : a' + 1 < a' + 2)) hleft
    have hhalf : ((a + 2 + 1) / 2, (a + 2 + 2) / 2) = ((a + 1) / 2 + 1, (a + 2) / 2 + 1) := by
      rw [Prod.mk.injEq]
      omega
    rw [hhalf]
    exact hright

theorem parts_parting (a b : ℕ) : Parts a b a b (parting a b) := by
  unfold parting
  split_ifs with hfew hleft hright
  · obtain ⟨ha, hb⟩ := hfew
    obtain rfl | rfl : a = 0 ∨ a = 1 := by omega
    · obtain rfl | rfl : b = 0 ∨ b = 1 := by omega
      · exact Parts.finished rfl rfl
      · exact Parts.right (d := none) rfl rfl (Parts.finished rfl rfl)
    · obtain rfl | rfl : b = 0 ∨ b = 1 := by omega
      · exact Parts.left (d := none) rfl rfl (Parts.finished rfl rfl)
      · exact Parts.left (d := none) rfl rfl (Parts.right (d := none) rfl rfl (Parts.finished rfl rfl))
  · exact parts_left b _ (by omega) (by omega) (by omega)
  · exact parts_right a _ (by omega) (by omega) (by omega)
  · obtain rfl | rfl : b = a ∨ b = a + 1 := by omega
    · exact parts_even _ (by omega) (by omega) (by omega)
    · exact parts_odd a (by omega)

end Phases

section Rounds

variable {k n l r a b : ℕ}

theorem rounds_one_side {a' b' k' : ℕ} (h : l = 0 ∨ r = 0) : rounds k n l r a b = rounds k' n l r a' b' := by
  induction n generalizing l r a b a' b' with
  | zero => rfl
  | succ n ih =>
    cases l with
    | zero =>
      cases r with
      | zero => rfl
      | succ r => exact congrArg (Side.right :: ·) (ih (Or.inl rfl))
    | succ l =>
      obtain rfl : r = 0 := by omega
      exact congrArg (Side.left :: ·) (ih (Or.inr rfl))

theorem one_side_or (n l r : ℕ) : (n = 0 ∨ l = 0 ∨ r = 0) ∨ ∃ n' l' r', n = n' + 1 ∧ l = l' + 1 ∧ r = r' + 1 := by
  by_cases h : n = 0 ∨ l = 0 ∨ r = 0
  · exact Or.inl h
  · exact Or.inr ⟨n - 1, l - 1, r - 1, by omega, by omega, by omega⟩

theorem rounds_none_or_one {a' b' k' : ℕ} (h : n = 0 ∨ l = 0 ∨ r = 0) : rounds k n l r a b = rounds k' n l r a' b' := by
  obtain rfl | h := h
  · rfl
  · exact rounds_one_side h

theorem forall_none_or_one {d : Option (ℕ × ℕ)} (h : n = 0 ∨ l = 0 ∨ r = 0) :
    ∀ x ∈ d, ¬(x.1 + x.2 < n ∧ x.1 < l ∧ x.2 < r) := by
  rintro x - hx
  omega

theorem forall_mem_shift {d : Option (ℕ × ℕ)} {f : ℕ × ℕ → ℕ × ℕ} {P Q : ℕ × ℕ → Prop} (h : ∀ x, P x ↔ Q (f x)) :
    (∀ x ∈ d, ¬P x) ↔ ∀ x ∈ d.map f, ¬Q x := by
  cases d with
  | none => simp
  | some x => simpa using not_congr (h x)

theorem Parts.rounds_iff {a' b' : ℕ} {d : Option (ℕ × ℕ)} (h : Parts a b a' b' d) :
    rounds 2 n l r a b = rounds 1 n l r a' b' ↔ ∀ x ∈ d, ¬(x.1 + x.2 < n ∧ x.1 < l ∧ x.2 < r) := by
  induction h generalizing n l r with
  | @here a b a' b' h =>
    obtain hone | ⟨n, l, r, rfl, rfl, rfl⟩ := one_side_or n l r
    · exact iff_of_true (rounds_none_or_one hone) (forall_none_or_one hone)
    · refine iff_of_false (fun he => ?_) fun hn => hn (0, 0) rfl ⟨by omega, by omega, by omega⟩
      simp only [rounds] at he
      generalize turn a b = x at h he
      generalize turn a' b' = y at h he
      rcases x with _ | _ | _ <;> rcases y with _ | _ | _ <;> simp at h he
  | finished h h' =>
    obtain hone | ⟨n, l, r, rfl, rfl, rfl⟩ := one_side_or n l r
    · exact iff_of_true (rounds_none_or_one hone) (forall_none_or_one hone)
    · simp only [rounds, h, h']
      simp
  | left h h' hd ih =>
    obtain hone | ⟨n, l, r, rfl, rfl, rfl⟩ := one_side_or n l r
    · exact iff_of_true (rounds_none_or_one hone) (forall_none_or_one hone)
    · simp only [rounds, h, h', List.cons.injEq, true_and, ih]
      exact forall_mem_shift fun x => by omega
  | right h h' hd ih =>
    obtain hone | ⟨n, l, r, rfl, rfl, rfl⟩ := one_side_or n l r
    · exact iff_of_true (rounds_none_or_one hone) (forall_none_or_one hone)
    · simp only [rounds, h, h', List.cons.injEq, true_and, ih]
      exact forall_mem_shift fun x => by omega

theorem rounds_iff : rounds 2 n l r a b = rounds 1 n l r a b ↔ ∀ x ∈ parting a b, ¬(x.1 + x.2 < n ∧ x.1 < l ∧ x.2 < r) :=
  (parts_parting a b).rounds_iff

end Rounds

end Library.Turns
