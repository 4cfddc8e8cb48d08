import Mathlib.Algebra.Group.Nat.Defs
import ObserverClub.Library.Text

/-!
Numbers in seven bits to a byte, the lowest first, each byte but the last with its high bit set.
-/

namespace Library.Varint

def encode (n : ℕ) : Bytes :=
  if n < 128 then [.ofNat n] else .ofNat (n % 128 + 128) :: encode (n / 128)
termination_by n
decreasing_by omega

/-- Bytes that spell a number, zeros at the end allowed. -/
inductive Spells : Bytes → ℕ → Prop
  | last {b : UInt8} (h : b.toNat < 128) : Spells [b] b.toNat
  | more {b : UInt8} {s : Bytes} {n : ℕ} (h : 128 ≤ b.toNat) (tail : Spells s n) :
      Spells (b :: s) (b.toNat % 128 + 128 * n)

def padded (s : Bytes) : Bool := 1 < s.length && s.getLast? = some 0

theorem toNat_ofNat {n : ℕ} (h : n < 256) : (UInt8.ofNat n).toNat = n := by
  rw [UInt8.toNat_ofNat']
  exact Nat.mod_eq_of_lt h

theorem spells_encode (n : ℕ) : Spells (encode n) n := by
  induction n using Nat.strongRecOn with
  | ind n ih =>
    rw [encode]
    split_ifs with h
    · have hlast := @Spells.last (.ofNat n) (by rw [toNat_ofNat (by omega)]; exact h)
      rwa [toNat_ofNat (by omega)] at hlast
    · have hbyte : (UInt8.ofNat (n % 128 + 128)).toNat = n % 128 + 128 := toNat_ofNat (by omega)
      have hmore := @Spells.more (.ofNat (n % 128 + 128)) _ _ (by rw [hbyte]; omega) (ih (n / 128) (by omega))
      have hvalue : (UInt8.ofNat (n % 128 + 128)).toNat % 128 + 128 * (n / 128) = n := by
        rw [hbyte]
        omega
      rwa [hvalue] at hmore

theorem Spells.ne_nil {s : Bytes} {n : ℕ} (h : Spells s n) : s ≠ [] := by
  cases h <;> exact List.cons_ne_nil _ _

theorem Spells.unique {a b s t : Bytes} {m n : ℕ} (ha : Spells a m) (hb : Spells b n) (h : a ++ s = b ++ t) :
    a = b ∧ s = t ∧ m = n := by
  induction ha generalizing b n with
  | @last c hc =>
    cases hb with
    | last hd =>
      obtain ⟨rfl, hrest⟩ := List.cons.inj h
      exact ⟨rfl, hrest, rfl⟩
    | more hd tail =>
      obtain ⟨rfl, -⟩ := List.cons.inj h
      omega
  | @more c form v hc tail ih =>
    cases hb with
    | last hd =>
      obtain ⟨rfl, -⟩ := List.cons.inj h
      omega
    | more hd tail' =>
      obtain ⟨rfl, hrest⟩ := List.cons.inj h
      obtain ⟨rfl, hst, rfl⟩ := ih tail' hrest
      exact ⟨rfl, hst, rfl⟩

theorem encode_ne_nil (n : ℕ) : encode n ≠ [] := (spells_encode n).ne_nil

theorem padded_cons (b : UInt8) {s : Bytes} (h : s ≠ []) : padded (b :: s) = (s.getLast? = some 0 : Bool) := by
  cases s with
  | nil => exact absurd rfl h
  | cons c s => simp [padded]

theorem Spells.pos {s : Bytes} {n : ℕ} (h : Spells s n) (hlast : s.getLast? ≠ some 0) : 0 < n := by
  induction h with
  | @last b h =>
    apply Nat.pos_of_ne_zero
    intro hzero
    apply hlast
    rw [List.getLast?_singleton, ← UInt8.toNat_inj.mp (hzero.trans rfl : b.toNat = (0 : UInt8).toNat)]
  | @more b s n h tail ih =>
    have hs := tail.ne_nil
    obtain ⟨c, s, rfl⟩ := List.exists_cons_of_ne_nil hs
    rw [List.getLast?_cons_cons] at hlast
    have hn := ih hlast
    omega

theorem Spells.eq_encode {s : Bytes} {n : ℕ} (h : Spells s n) (hp : padded s = false) : s = encode n := by
  induction h with
  | @last b h =>
    rw [encode, if_pos h]
    congr 1
    exact UInt8.ofNat_toNat.symm
  | @more b s n h tail ih =>
    have hs := tail.ne_nil
    rw [padded_cons b hs, decide_eq_false_iff_not] at hp
    have hn := tail.pos hp
    have hlt := b.toNat_lt
    have hrest : padded s = false := by
      rw [padded, Bool.and_eq_false_iff]
      exact .inr (decide_eq_false hp)
    rw [encode, if_neg (by omega), ih hrest]
    congr 1
    · apply UInt8.toNat_inj.mp
      rw [toNat_ofNat (by omega)]
      omega
    · congr 1
      omega

theorem encode_getLast {n : ℕ} (h : n ≠ 0) : (encode n).getLast? ≠ some 0 := by
  induction n using Nat.strongRecOn with
  | ind n ih =>
    rw [encode]
    split_ifs with hn
    · rw [List.getLast?_singleton]
      intro hzero
      have hbyte := congrArg UInt8.toNat (Option.some.inj hzero)
      rw [toNat_ofNat (by omega)] at hbyte
      exact h hbyte
    · obtain ⟨b, s, hs⟩ := List.exists_cons_of_ne_nil (encode_ne_nil (n / 128))
      have hrest := ih (n / 128) (by omega) (by omega)
      rw [hs] at hrest ⊢
      rwa [List.getLast?_cons_cons]

theorem padded_encode (n : ℕ) : padded (encode n) = false := by
  by_cases h : n = 0
  · subst h
    rw [encode, if_pos (by decide)]
    rfl
  · rw [padded, Bool.and_eq_false_iff]
    exact .inr (decide_eq_false (encode_getLast h))

end Library.Varint
