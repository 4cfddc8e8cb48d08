import Mathlib.Data.List.Basic
import Mathlib.Data.List.Infix
import Mathlib.Data.List.TakeWhile

namespace Library

/-- A string as its list of code points, lone surrogates included. -/
abbrev Text := List ℕ

instance : LawfulBEq Text := inferInstanceAs (LawfulBEq (List ℕ))

abbrev Bytes := List UInt8

def txt (s : String) : Text := s.toList.map Char.toNat

def ascii (s : String) : Bytes := s.toList.map (fun c => UInt8.ofNat c.toNat)

def isDigit (c : ℕ) : Bool := 48 ≤ c && c ≤ 57

def hexDigit (n : ℕ) : ℕ := if n < 10 then 48 + n else 87 + n

def hexText (s : Bytes) : Text := s.flatMap (fun b => [hexDigit (b.toNat / 16), hexDigit (b.toNat % 16)])

theorem hexDigit_spec {n : ℕ} (h : n < 16) : hexDigit n ≠ 58 ∧ hexDigit n < 128 := by
  unfold hexDigit
  split_ifs <;> omega

theorem mem_hexText {s : Bytes} {c : ℕ} (h : c ∈ hexText s) : c ≠ 58 ∧ c < 128 := by
  simp only [hexText, List.mem_flatMap, List.mem_cons, List.not_mem_nil, or_false] at h
  obtain ⟨b, -, rfl | rfl⟩ := h
  · exact hexDigit_spec (by have := b.toNat_lt; omega)
  · exact hexDigit_spec (by omega)

theorem hexText_length (s : Bytes) : (hexText s).length = 2 * s.length := by
  induction s with
  | nil => rfl
  | cons b s ih =>
    simp only [hexText, List.flatMap_cons, List.length_append, List.length_cons] at ih ⊢
    rw [ih]
    simp only [List.length_nil]
    omega

theorem some_of_any {α : Type} {o : Option α} {p : α → Bool} (h : o.any p = true) : ∃ x, o = some x ∧ p x = true :=
  (Option.any_eq_true p o).mp h

theorem ok_of_any {ε α : Type} {r : Except ε α} {p : α → Bool} (h : r.toOption.any p = true) :
    ∃ x, r = .ok x ∧ p x = true := by
  cases r with
  | error e => simp [Except.toOption] at h
  | ok x => exact ⟨x, rfl, h⟩

section Records

variable {α : Type} [DecidableEq α]

/-- The records closed by the terminator `t`, and what follows the last one. -/
def records (t : α) : List α → List (List α) × List α
  | [] => ([], [])
  | x :: xs =>
    match records t xs with
    | (rs, tail) =>
      if x = t then ([] :: rs, tail)
      else match rs with
        | [] => ([], x :: tail)
        | r :: rs => ((x :: r) :: rs, tail)

theorem records_open (t : α) (r : List α) (h : t ∉ r) : records t r = ([], r) := by
  induction r with
  | nil => rfl
  | cons y r ih =>
    simp only [List.mem_cons, not_or] at h
    simp [records, ih h.2, Ne.symm h.1]

theorem records_record (t : α) (r xs : List α) (h : t ∉ r) :
    records t (r ++ t :: xs) = (r :: (records t xs).1, (records t xs).2) := by
  induction r with
  | nil => simp [records]
  | cons y r ih =>
    simp only [List.mem_cons, not_or] at h
    simp [records, ih h.2, Ne.symm h.1]

theorem records_append (t : α) (xs ys : List α) :
    records t (xs ++ t :: ys) =
      ((records t (xs ++ [t])).1 ++ (records t ys).1, (records t ys).2) := by
  induction hn : xs.length using Nat.strong_induction_on generalizing xs with
  | _ n ih =>
    by_cases ht : t ∈ xs
    · obtain ⟨r, zs, rfl, hr⟩ := List.eq_append_cons_of_mem ht
      have hz := ih zs.length (by simp only [List.length_append, List.length_cons] at hn; omega) zs rfl
      simp only [List.append_assoc, List.cons_append]
      rw [records_record t r _ hr, records_record t r _ hr, hz, List.cons_append]
    · rw [records_record t xs ys ht, records_record t xs [] ht]
      rfl

theorem records_terminated (t : α) (xs : List α) : (records t (xs ++ [t])).2 = [] := by
  rw [records_append t xs []]
  rfl

theorem records_flatMap (t : α) (parts : List (List α)) :
    records t (parts.flatMap (· ++ [t])) = (parts.flatMap (fun p => (records t (p ++ [t])).1), []) := by
  induction parts with
  | nil => rfl
  | cons p parts ih =>
    simp only [List.flatMap_cons, List.append_assoc, List.cons_append, List.nil_append]
    rw [records_append, ih]

theorem records_join (t : α) (xs : List α) :
    (records t xs).1.flatMap (· ++ [t]) ++ (records t xs).2 = xs := by
  induction xs with
  | nil => rfl
  | cons x xs ih =>
    rcases hr : records t xs with ⟨rs, tail⟩
    rw [hr] at ih
    simp only [records, hr]
    split_ifs with hx
    · simp [hx, ← ih]
    · cases rs <;> simp [← ih]

end Records

section Trim

variable {α : Type} (p : α → Bool)

def trim (s : List α) : List α := ((s.dropWhile p).reverse.dropWhile p).reverse

theorem trim_split (s : List α) : ∃ a b, s = a ++ trim p s ++ b ∧ (∀ x ∈ a, p x = true) ∧ ∀ x ∈ b, p x = true := by
  refine ⟨s.takeWhile p, ((s.dropWhile p).reverse.takeWhile p).reverse, ?_, ?_, ?_⟩
  · rw [trim, List.append_assoc, ← List.reverse_append, List.takeWhile_append_dropWhile, List.reverse_reverse,
      List.takeWhile_append_dropWhile]
  · exact fun x hx => List.mem_takeWhile_imp hx
  · exact fun x hx => List.mem_takeWhile_imp (List.mem_reverse.mp hx)

theorem trim_eq_nil {s : List α} (h : trim p s = []) : ∀ x ∈ s, p x = true := by
  obtain ⟨a, b, hs, ha, hb⟩ := trim_split p s
  rw [h, List.append_nil] at hs
  intro x hx
  rw [hs] at hx
  exact (List.mem_append.mp hx).elim (ha x) (hb x)

end Trim

end Library
