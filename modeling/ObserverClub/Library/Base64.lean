import Mathlib.Tactic.IntervalCases
import ObserverClub.Library.Text

/-!
Base64 in the URL alphabet. The reader is the lenient one: it takes both alphabets, skips what is in
neither, and stops at the padding that closes a group of four.
-/

namespace Library.Base64

def letter (n : ℕ) : ℕ :=
  if n < 26 then 65 + n else if n < 52 then 71 + n else if n < 62 then n - 4 else if n = 62 then 45 else 95

def sextet (c : ℕ) : Option ℕ :=
  if 65 ≤ c ∧ c ≤ 90 then some (c - 65)
  else if 97 ≤ c ∧ c ≤ 122 then some (c - 71)
  else if 48 ≤ c ∧ c ≤ 57 then some (c + 4)
  else if c = 45 ∨ c = 43 then some 62
  else if c = 95 ∨ c = 47 then some 63
  else none

def encode : Bytes → Text
  | [] => []
  | [a] => [letter (a.toNat / 4), letter (a.toNat % 4 * 16), 61, 61]
  | [a, b] =>
    [letter (a.toNat / 4), letter (a.toNat % 4 * 16 + b.toNat / 16), letter (b.toNat % 16 * 4), 61]
  | a :: b :: c :: s =>
    letter (a.toNat / 4) :: letter (a.toNat % 4 * 16 + b.toNat / 16) ::
      letter (b.toNat % 16 * 4 + c.toNat / 64) :: letter (c.toNat % 64) :: encode s

/-- The position in the group of four, the bits left over, and the padding seen, then the text. -/
def decodeFrom : ℕ → ℕ → ℕ → Text → Option Bytes
  | q, _, _, [] => if q = 0 then some [] else none
  | q, left, pads, c :: s =>
    if c = 61 then
      if q < 2 then decodeFrom q left pads s
      else if 4 ≤ q + (pads + 1) then some []
      else decodeFrom q left (pads + 1) s
    else match sextet c with
      | none => decodeFrom q left pads s
      | some v =>
        match q with
        | 0 => decodeFrom 1 v 0 s
        | 1 => (decodeFrom 2 (v % 16) 0 s).map (.ofNat (left * 4 + v / 16) :: ·)
        | 2 => (decodeFrom 3 (v % 4) 0 s).map (.ofNat (left * 16 + v / 4) :: ·)
        | _ => (decodeFrom 0 0 0 s).map (.ofNat (left * 64 + v) :: ·)

def decode (t : Text) : Option Bytes := if t.all (· < 128) then decodeFrom 0 0 0 t else none

theorem letter_spec {n : ℕ} (h : n < 64) : letter n ≠ 61 ∧ letter n < 128 ∧ sextet (letter n) = some n := by
  interval_cases n <;> decide

theorem letter_ne_pad {n : ℕ} (h : n < 64) : letter n ≠ 61 := (letter_spec h).1

theorem sextet_letter {n : ℕ} (h : n < 64) : sextet (letter n) = some n := (letter_spec h).2.2

theorem encode_ascii (s : Bytes) : ∀ c ∈ encode s, c < 128 := by
  have hl : ∀ n < 64, letter n < 128 := fun n h => (letter_spec h).2.1
  have hb : ∀ a : UInt8, a.toNat < 256 := fun a => a.toNat_lt
  fun_induction encode s with
  | case1 => simp
  | case2 a =>
    have := hb a
    simp [hl _ (show a.toNat / 4 < 64 by omega), hl _ (show a.toNat % 4 * 16 < 64 by omega)]
  | case3 a b =>
    have := hb a
    have := hb b
    simp [hl _ (show a.toNat / 4 < 64 by omega), hl _ (show a.toNat % 4 * 16 + b.toNat / 16 < 64 by omega),
      hl _ (show b.toNat % 16 * 4 < 64 by omega)]
  | case4 a b c s ih =>
    have := hb a
    have := hb b
    have := hb c
    simp only [List.mem_cons, forall_eq_or_imp]
    exact ⟨hl _ (by omega), hl _ (by omega), hl _ (by omega), hl _ (by omega), ih⟩

theorem decodeFrom_encode (s : Bytes) : decodeFrom 0 0 0 (encode s) = some s := by
  have hb : ∀ a : UInt8, a.toNat < 256 := fun a => a.toNat_lt
  have byte : ∀ (a : UInt8) (n : ℕ), n = a.toNat → UInt8.ofNat n = a := by
    rintro a n rfl
    exact UInt8.ofNat_toNat
  fun_induction encode s with
  | case1 => rfl
  | case2 a =>
    have ha := hb a
    have h₁ : a.toNat / 4 < 64 := by omega
    have h₂ : a.toNat % 4 * 16 < 64 := by omega
    simp [-UInt8.ofNat_add, -UInt8.ofNat_mul, decodeFrom, letter_ne_pad h₁, letter_ne_pad h₂, sextet_letter h₁,
      sextet_letter h₂]
    exact byte a _ (by omega)
  | case3 a b =>
    have ha := hb a
    have hb' := hb b
    have h₁ : a.toNat / 4 < 64 := by omega
    have h₂ : a.toNat % 4 * 16 + b.toNat / 16 < 64 := by omega
    have h₃ : b.toNat % 16 * 4 < 64 := by omega
    simp [-UInt8.ofNat_add, -UInt8.ofNat_mul, decodeFrom, letter_ne_pad h₁, letter_ne_pad h₂, letter_ne_pad h₃,
      sextet_letter h₁, sextet_letter h₂, sextet_letter h₃]
    exact ⟨byte a _ (by omega), byte b _ (by omega)⟩
  | case4 a b c s ih =>
    have ha := hb a
    have hb' := hb b
    have hc := hb c
    have h₁ : a.toNat / 4 < 64 := by omega
    have h₂ : a.toNat % 4 * 16 + b.toNat / 16 < 64 := by omega
    have h₃ : b.toNat % 16 * 4 + c.toNat / 64 < 64 := by omega
    have h₄ : c.toNat % 64 < 64 := by omega
    simp [-UInt8.ofNat_add, -UInt8.ofNat_mul, decodeFrom, letter_ne_pad h₁, letter_ne_pad h₂, letter_ne_pad h₃,
      letter_ne_pad h₄, sextet_letter h₁, sextet_letter h₂, sextet_letter h₃, sextet_letter h₄, ih]
    exact ⟨byte a _ (by omega), byte b _ (by omega), byte c _ (by omega)⟩

theorem decode_encode (s : Bytes) : decode (encode s) = some s := by
  rw [decode, if_pos (by simpa using encode_ascii s), decodeFrom_encode]

def stripPadding (t : Text) : Text := (t.reverse.dropWhile (· = 61)).reverse

def padding (t : Text) : Text := List.replicate ((4 - t.length % 4) % 4) 61

theorem stripPadding_cons (c : ℕ) {t : Text} (h : stripPadding t ≠ [] ∨ c ≠ 61) :
    stripPadding (c :: t) = c :: stripPadding t := by
  unfold stripPadding at h ⊢
  rw [List.reverse_cons, List.dropWhile_append]
  split_ifs with hn
  · have hc : c ≠ 61 := h.resolve_left (by simpa using hn)
    simp only [List.isEmpty_iff] at hn
    simp [hc, hn]
  · simp

theorem padding_group (c₁ c₂ c₃ c₄ : ℕ) (t : Text) : padding (c₁ :: c₂ :: c₃ :: c₄ :: t) = padding t := by
  simp only [padding, List.length_cons]
  congr 1
  omega

theorem restore_padding (s : Bytes) : stripPadding (encode s) ++ padding (stripPadding (encode s)) = encode s := by
  have hb : ∀ a : UInt8, a.toNat < 256 := fun a => a.toNat_lt
  fun_induction encode s with
  | case1 => rfl
  | case2 a =>
    have ha := hb a
    have h₁ : letter (a.toNat / 4) ≠ 61 := letter_ne_pad (by omega)
    have h₂ : letter (a.toNat % 4 * 16) ≠ 61 := letter_ne_pad (by omega)
    rw [stripPadding_cons _ (.inr h₁), stripPadding_cons _ (.inr h₂)]
    rfl
  | case3 a b =>
    have ha := hb a
    have hb' := hb b
    have h₁ : letter (a.toNat / 4) ≠ 61 := letter_ne_pad (by omega)
    have h₂ : letter (a.toNat % 4 * 16 + b.toNat / 16) ≠ 61 := letter_ne_pad (by omega)
    have h₃ : letter (b.toNat % 16 * 4) ≠ 61 := letter_ne_pad (by omega)
    rw [stripPadding_cons _ (.inr h₁), stripPadding_cons _ (.inr h₂), stripPadding_cons _ (.inr h₃)]
    rfl
  | case4 a b c s ih =>
    have ha := hb a
    have hb' := hb b
    have hc := hb c
    have h₁ : letter (a.toNat / 4) ≠ 61 := letter_ne_pad (by omega)
    have h₂ : letter (a.toNat % 4 * 16 + b.toNat / 16) ≠ 61 := letter_ne_pad (by omega)
    have h₃ : letter (b.toNat % 16 * 4 + c.toNat / 64) ≠ 61 := letter_ne_pad (by omega)
    have h₄ : letter (c.toNat % 64) ≠ 61 := letter_ne_pad (by omega)
    rw [stripPadding_cons _ (.inr h₁), stripPadding_cons _ (.inr h₂), stripPadding_cons _ (.inr h₃),
      stripPadding_cons _ (.inr h₄)]
    rw [padding_group]
    simpa using ih

end Library.Base64
