import Mathlib.Tactic.IntervalCases
import ObserverClub.Base58
import ObserverClub.Licenses

namespace ObserverClub.UnixFs

open Library Library.Positional Python

theorem letter_congr {m n : ℕ} (h : m % 32 = n % 32) : b32letters.letter m = b32letters.letter n := by
  rw [b32letters.letter, b32letters.letter, h]

theorem b32letters_mod {bits : ℕ} (h : bits < 5) (value : ℕ) (raw : Bytes) :
    b32letters bits value raw = b32letters bits (value % 2 ^ bits) raw := by
  induction raw generalizing bits value with
  | nil =>
    have hlast : b32letters.letter (value * 2 ^ (5 - bits)) = b32letters.letter (value % 2 ^ bits * 2 ^ (5 - bits)) := by
      apply letter_congr
      interval_cases bits <;> omega
    rw [b32letters, b32letters, hlast]
  | cons b raw ih =>
    have hfirst : b32letters.letter ((value * 256 + b.toNat) / 2 ^ (bits + 3)) =
        b32letters.letter ((value % 2 ^ bits * 256 + b.toNat) / 2 ^ (bits + 3)) := by
      apply letter_congr
      interval_cases bits <;> omega
    rw [b32letters, b32letters, hfirst]
    split_ifs with hfew
    · have hmod : (value * 256 + b.toNat) % 2 ^ (bits + 3) = (value % 2 ^ bits * 256 + b.toNat) % 2 ^ (bits + 3) := by
        interval_cases bits <;> omega
      rw [ih (by omega) (value * 256 + b.toNat), ih (by omega) (value % 2 ^ bits * 256 + b.toNat), hmod]
    · have hsecond : b32letters.letter ((value * 256 + b.toNat) / 2 ^ (bits - 2)) =
          b32letters.letter ((value % 2 ^ bits * 256 + b.toNat) / 2 ^ (bits - 2)) := by
        apply letter_congr
        interval_cases bits <;> omega
      have hmod : (value * 256 + b.toNat) % 2 ^ (bits - 2) = (value % 2 ^ bits * 256 + b.toNat) % 2 ^ (bits - 2) := by
        interval_cases bits <;> omega
      rw [ih (by omega) (value * 256 + b.toNat), ih (by omega) (value % 2 ^ bits * 256 + b.toNat), hmod, hsecond]

def quintets : Bytes → List ℕ
  | [] => []
  | [a] => [a.toNat / 8, a.toNat % 8 * 4]
  | [a, b] => [a.toNat / 8, a.toNat % 8 * 4 + b.toNat / 64, b.toNat / 2 % 32, b.toNat % 2 * 16]
  | [a, b, c] =>
    [a.toNat / 8, a.toNat % 8 * 4 + b.toNat / 64, b.toNat / 2 % 32, b.toNat % 2 * 16 + c.toNat / 16, c.toNat % 16 * 2]
  | [a, b, c, d] =>
    [a.toNat / 8, a.toNat % 8 * 4 + b.toNat / 64, b.toNat / 2 % 32, b.toNat % 2 * 16 + c.toNat / 16,
      c.toNat % 16 * 2 + d.toNat / 128, d.toNat / 4 % 32, d.toNat % 4 * 8]
  | a :: b :: c :: d :: e :: s =>
    [a.toNat / 8, a.toNat % 8 * 4 + b.toNat / 64, b.toNat / 2 % 32, b.toNat % 2 * 16 + c.toNat / 16,
      c.toNat % 16 * 2 + d.toNat / 128, d.toNat / 4 % 32, d.toNat % 4 * 8 + e.toNat / 32, e.toNat % 32] ++ quintets s

theorem b32letters_eq (raw : Bytes) : b32letters 0 0 raw = (quintets raw).map b32letters.letter := by
  induction raw using quintets.induct with
  | case1 => rfl
  | case2 a =>
    simp only [b32letters, quintets, List.map_cons, List.map_nil]
    norm_num
    apply letter_congr
    omega
  | case3 a b =>
    simp only [b32letters, quintets, List.map_cons, List.map_nil]
    norm_num
    refine ⟨letter_congr ?_, letter_congr ?_, letter_congr ?_⟩ <;> omega
  | case4 a b c =>
    simp only [b32letters, quintets, List.map_cons, List.map_nil]
    norm_num
    refine ⟨letter_congr ?_, letter_congr ?_, letter_congr ?_, letter_congr ?_⟩ <;> omega
  | case5 a b c d =>
    simp only [b32letters, quintets, List.map_cons, List.map_nil]
    norm_num
    refine ⟨letter_congr ?_, letter_congr ?_, letter_congr ?_, letter_congr ?_, letter_congr ?_, letter_congr ?_⟩ <;> omega
  | case6 a b c d e s ih =>
    simp only [b32letters, quintets, List.map_cons, List.map_append]
    norm_num
    refine ⟨letter_congr ?_, letter_congr ?_, letter_congr ?_, letter_congr ?_, letter_congr ?_, letter_congr ?_,
      letter_congr ?_, ?_⟩ <;> first | omega | skip
    rw [b32letters_mod (by decide), pow_zero, Nat.mod_one]
    exact ih

def b32letter (d : ℕ) : ℕ := Cid.b32Alphabet.getD d 0

theorem b32letter_spec : ∀ d < 32, Cid.indexIn Cid.b32Alphabet (b32letter d) = some d ∧ b32letter d ≠ 61 ∧
    b32letter d < 128 ∧ Extract.isSettled (b32letters.letter d) = true ∧
    Extract.upperSettled (b32letters.letter d) = b32letter d := by
  decide +kernel

theorem quintets_lt (raw : Bytes) : ∀ d ∈ quintets raw, d < 32 := by
  intro d hd
  have hbyte (b : UInt8) : b.toNat < 256 := b.toNat_lt
  induction raw using quintets.induct with
  | case1 => cases hd
  | case2 a =>
    have ha := hbyte a
    simp only [quintets, List.mem_cons, List.not_mem_nil, or_false] at hd
    omega
  | case3 a b =>
    have ha := hbyte a
    have hb := hbyte b
    simp only [quintets, List.mem_cons, List.not_mem_nil, or_false] at hd
    omega
  | case4 a b c =>
    have ha := hbyte a
    have hb := hbyte b
    have hc := hbyte c
    simp only [quintets, List.mem_cons, List.not_mem_nil, or_false] at hd
    omega
  | case5 a b c e =>
    have ha := hbyte a
    have hb := hbyte b
    have hc := hbyte c
    have he := hbyte e
    simp only [quintets, List.mem_cons, List.not_mem_nil, or_false] at hd
    omega
  | case6 a b c e f s ih =>
    have ha := hbyte a
    have hb := hbyte b
    have hc := hbyte c
    have he := hbyte e
    have hf := hbyte f
    rw [quintets] at hd
    obtain hd | hd := List.mem_append.mp hd
    · simp only [List.mem_cons, List.not_mem_nil, or_false] at hd
      omega
    · exact ih hd

/-- `rest.upper()` gives the letters of the alphabet that `b32decode` knows. -/
theorem upper_b32letters (chars : Extract.Alphabet) (raw : Bytes) :
    Extract.upper chars (b32letters 0 0 raw) = (quintets raw).map b32letter := by
  rw [b32letters_eq, Extract.upper, List.flatMap_map, List.map_eq_flatMap]
  apply List.flatMap_congr
  intro d hd
  obtain ⟨-, -, -, hsettled, hupper⟩ := b32letter_spec d (quintets_lt raw d hd)
  rw [Extract.upperChar, if_pos hsettled, hupper]

theorem bigEndian_five {a b c d e : UInt8} {n : ℕ}
    (h : n = (((a.toNat * 256 + b.toNat) * 256 + c.toNat) * 256 + d.toNat) * 256 + e.toNat) :
    Cid.bigEndian 5 n = [a, b, c, d, e] := by
  have hbytes := bigEndian_bytesValue [a, b, c, d, e]
  have hvalue : bytesValue [a, b, c, d, e] = n := by
    rw [h]
    simp only [bytesValue, List.foldl_cons, List.foldl_nil, Nat.zero_mul, Nat.zero_add]
  rwa [hvalue] at hbytes

def unpadded (padchars : ℕ) (r : Bytes × ℕ) : Bytes :=
  if padchars = 0 ∨ r.1 = [] then r.1
  else r.1.take (r.1.length - 5) ++ (Cid.bigEndian 5 (r.2 * 2 ^ (5 * padchars))).take ((43 - 5 * padchars) / 8)

def padFor (raw : Bytes) : ℕ := (8 - (quintets raw).length % 8) % 8

theorem padFor_group (a b c d e : UInt8) (s : Bytes) : padFor (a :: b :: c :: d :: e :: s) = padFor s := by
  rw [padFor, padFor, quintets, List.length_append]
  simp only [List.length_cons, List.length_nil]
  omega

theorem b32quanta_nil (fuel : ℕ) (decoded : Bytes) (acc : ℕ) : Cid.b32quanta (fuel + 1) [] decoded acc = some (decoded, acc) := by
  rw [Cid.b32quanta, if_pos rfl]

theorem b32quanta_group {fuel : ℕ} {ds : List ℕ} {rest : Text} (hds : ∀ d ∈ ds, d < 32) (hne : ds ≠ [])
    (hfull : ds.length = 8 ∨ ds.length < 8 ∧ rest = []) (decoded : Bytes) (acc : ℕ) :
    Cid.b32quanta (fuel + 1) (ds.map b32letter ++ rest) decoded acc =
      Cid.b32quanta fuel rest (decoded ++ Cid.bigEndian 5 (value 32 ds)) (value 32 ds) := by
  have htake : (ds.map b32letter ++ rest).take 8 = ds.map b32letter := by
    obtain h8 | ⟨hlt, rfl⟩ := hfull
    · rw [List.take_left' (by rw [List.length_map, h8])]
    · rw [List.append_nil, List.take_of_length_le (by rw [List.length_map]; omega)]
  have hdrop : (ds.map b32letter ++ rest).drop 8 = rest := by
    obtain h8 | ⟨hlt, rfl⟩ := hfull
    · rw [List.drop_left' (by rw [List.length_map, h8])]
    · rw [List.append_nil, List.drop_of_length_le (by rw [List.length_map]; omega)]
  have hcons : ds.map b32letter ++ rest ≠ [] := by
    apply List.append_ne_nil_of_left_ne_nil
    rwa [Ne, List.map_eq_nil_iff]
  have hnumber := @numberIn_map Cid.b32Alphabet 32 0 ds b32letter fun d hd => (b32letter_spec d (hds d hd)).1
  rw [Cid.b32quanta, if_neg hcons, htake, hdrop, hnumber, Nat.zero_mul, Nat.zero_add]

theorem unpadded_last {padchars : ℕ} (hpad : padchars ≠ 0) (decoded : Bytes) (p : ℕ) :
    unpadded padchars (decoded ++ Cid.bigEndian 5 p, p) =
      decoded ++ (Cid.bigEndian 5 (p * 2 ^ (5 * padchars))).take ((43 - 5 * padchars) / 8) := by
  have hne : decoded ++ Cid.bigEndian 5 p ≠ [] := by
    apply List.append_ne_nil_of_right_ne_nil
    apply List.ne_nil_of_length_pos
    rw [bigEndian_length]
    decide
  rw [unpadded, if_neg (not_or.mpr ⟨hpad, hne⟩)]
  congr 1
  rw [List.length_append, bigEndian_length, Nat.add_sub_cancel, List.take_left]

theorem take_bigEndian_five {a b c d e : UInt8} {n k : ℕ}
    (h : n = (((a.toNat * 256 + b.toNat) * 256 + c.toNat) * 256 + d.toNat) * 256 + e.toNat) :
    (Cid.bigEndian 5 n).take k = [a, b, c, d, e].take k := by
  rw [bigEndian_five h]

theorem b32quanta_short {ds : List ℕ} (hds : ∀ d ∈ ds, d < 32) (hne : ds ≠ []) (hlen : ds.length < 8) (fuel : ℕ)
    (decoded : Bytes) (acc : ℕ) :
    Cid.b32quanta (fuel + 2) (ds.map b32letter) decoded acc =
      some (decoded ++ Cid.bigEndian 5 (value 32 ds), value 32 ds) := by
  have hgroup := @b32quanta_group (fuel + 1) ds [] hds hne (.inr ⟨hlen, rfl⟩) decoded acc
  rwa [List.append_nil, b32quanta_nil] at hgroup

theorem b32quanta_quintets (raw : Bytes) {fuel : ℕ} (hfuel : (quintets raw).length < fuel) (decoded : Bytes) (acc : ℕ) :
    ∃ r, Cid.b32quanta fuel ((quintets raw).map b32letter) decoded acc = some r ∧ unpadded (padFor raw) r = decoded ++ raw := by
  have hlt := quintets_lt raw
  have hbyte (b : UInt8) : b.toNat < 256 := b.toNat_lt
  induction raw using quintets.induct generalizing fuel decoded acc with
  | case1 =>
    obtain ⟨fuel, rfl⟩ : ∃ f, fuel = f + 1 := ⟨fuel - 1, by omega⟩
    refine ⟨(decoded, acc), b32quanta_nil fuel decoded acc, ?_⟩
    rw [List.append_nil, unpadded, if_pos (.inl rfl)]
  | case2 a =>
    simp only [quintets, List.length_cons, List.length_nil] at hfuel hlt
    obtain ⟨fuel, rfl⟩ : ∃ f, fuel = f + 2 := ⟨fuel - 2, by omega⟩
    refine ⟨_, b32quanta_short hlt (List.cons_ne_nil _ _) (by simp only [List.length_cons, List.length_nil]; omega) fuel _ _, ?_⟩
    have hpad : padFor [a] = 6 := rfl
    have ha := hbyte a
    rw [hpad, unpadded_last (by decide), @take_bigEndian_five a 0 0 0 0]
    · rfl
    · simp only [value, List.foldl_cons, List.foldl_nil, UInt8.toNat_zero]
      omega
  | case3 a b =>
    simp only [quintets, List.length_cons, List.length_nil] at hfuel hlt
    obtain ⟨fuel, rfl⟩ : ∃ f, fuel = f + 2 := ⟨fuel - 2, by omega⟩
    refine ⟨_, b32quanta_short hlt (List.cons_ne_nil _ _) (by simp only [List.length_cons, List.length_nil]; omega) fuel _ _, ?_⟩
    have hpad : padFor [a, b] = 4 := rfl
    have ha := hbyte a
    have hb := hbyte b
    rw [hpad, unpadded_last (by decide), @take_bigEndian_five a b 0 0 0]
    · rfl
    · simp only [value, List.foldl_cons, List.foldl_nil, UInt8.toNat_zero]
      omega
  | case4 a b c =>
    simp only [quintets, List.length_cons, List.length_nil] at hfuel hlt
    obtain ⟨fuel, rfl⟩ : ∃ f, fuel = f + 2 := ⟨fuel - 2, by omega⟩
    refine ⟨_, b32quanta_short hlt (List.cons_ne_nil _ _) (by simp only [List.length_cons, List.length_nil]; omega) fuel _ _, ?_⟩
    have hpad : padFor [a, b, c] = 3 := rfl
    have ha := hbyte a
    have hb := hbyte b
    have hc := hbyte c
    rw [hpad, unpadded_last (by decide), @take_bigEndian_five a b c 0 0]
    · rfl
    · simp only [value, List.foldl_cons, List.foldl_nil, UInt8.toNat_zero]
      omega
  | case5 a b c d =>
    simp only [quintets, List.length_cons, List.length_nil] at hfuel hlt
    obtain ⟨fuel, rfl⟩ : ∃ f, fuel = f + 2 := ⟨fuel - 2, by omega⟩
    refine ⟨_, b32quanta_short hlt (List.cons_ne_nil _ _) (by simp only [List.length_cons, List.length_nil]; omega) fuel _ _, ?_⟩
    have hpad : padFor [a, b, c, d] = 1 := rfl
    have ha := hbyte a
    have hb := hbyte b
    have hc := hbyte c
    have hd := hbyte d
    rw [hpad, unpadded_last (by decide), @take_bigEndian_five a b c d 0]
    · rfl
    · simp only [value, List.foldl_cons, List.foldl_nil, UInt8.toNat_zero]
      omega
  | case6 a b c d e s ih =>
    have ha := hbyte a
    have hb := hbyte b
    have hc := hbyte c
    have hd := hbyte d
    have he := hbyte e
    rw [quintets] at hfuel hlt ⊢
    have hfirst := fun q hq => hlt q (List.mem_append_left _ hq)
    rw [List.length_append] at hfuel
    simp only [List.length_cons, List.length_nil] at hfuel
    obtain ⟨fuel, rfl⟩ : ∃ f, fuel = f + 1 := ⟨fuel - 1, by omega⟩
    rw [List.map_append, b32quanta_group hfirst (List.cons_ne_nil _ _) (.inl rfl), padFor_group, @bigEndian_five a b c d e]
    · obtain ⟨r, hr, hbytes⟩ := @ih fuel (by omega) (decoded ++ [a, b, c, d, e]) _ fun q hq => hlt q (List.mem_append_right _ hq)
      refine ⟨r, hr, ?_⟩
      rw [hbytes, List.append_assoc]
      rfl
    · simp only [value, List.foldl_cons, List.foldl_nil]
      omega

theorem strip_padding {s : Text} {k : ℕ} (h : ∀ c ∈ s, c ≠ 61) :
    ((s ++ List.replicate k 61).reverse.dropWhile (· = 61)).reverse = s := by
  rw [List.reverse_append, List.reverse_replicate, List.dropWhile_append_of_pos]
  · cases hs : s.reverse with
    | nil =>
      rw [List.dropWhile_nil, List.reverse_nil, ← List.reverse_reverse s, hs, List.reverse_nil]
    | cons c t =>
      have hc : c ≠ 61 := h c (by rw [← List.mem_reverse, hs]; exact List.mem_cons_self)
      rw [List.dropWhile_cons, if_neg (by simpa using hc), ← hs, List.reverse_reverse]
  · intro c hc
    simpa using List.eq_of_mem_replicate hc

theorem padFor_mem (raw : Bytes) : padFor raw ∈ [0, 1, 3, 4, 6] := by
  induction raw using quintets.induct with
  | case1 => decide
  | case2 a => exact (by decide : (6 : ℕ) ∈ [0, 1, 3, 4, 6])
  | case3 a b => exact (by decide : (4 : ℕ) ∈ [0, 1, 3, 4, 6])
  | case4 a b c => exact (by decide : (3 : ℕ) ∈ [0, 1, 3, 4, 6])
  | case5 a b c d => exact (by decide : (1 : ℕ) ∈ [0, 1, 3, 4, 6])
  | case6 a b c d e s ih => rwa [padFor_group]

/-- `b32decode` undoes the hand-written packing, with the padding it left out. -/
theorem b32decode_letters (raw : Bytes) :
    Cid.b32decode ((quintets raw).map b32letter ++ List.replicate (padFor raw) 61) = some raw := by
  have hspec := fun d hd => b32letter_spec d (quintets_lt raw d hd)
  have hlength : ((quintets raw).map b32letter ++ List.replicate (padFor raw) 61).length = (quintets raw).length + padFor raw := by
    rw [List.length_append, List.length_map, List.length_replicate]
  have hwhole : ((quintets raw).length + padFor raw) % 8 = 0 := by
    rw [padFor]
    omega
  have hascii : ¬ (((quintets raw).map b32letter ++ List.replicate (padFor raw) 61).any (128 ≤ ·) = true) := by
    rw [List.any_eq_true]
    rintro ⟨c, hc, hbig⟩
    obtain hc | hc := List.mem_append.mp hc
    · obtain ⟨d, hd, rfl⟩ := List.mem_map.mp hc
      obtain ⟨-, -, hsmall, -, -⟩ := hspec d hd
      have hle := of_decide_eq_true hbig
      omega
    · rw [List.eq_of_mem_replicate hc] at hbig
      exact absurd hbig (by decide)
  have hnot : ∀ c ∈ (quintets raw).map b32letter, c ≠ 61 := by
    intro c hc
    obtain ⟨d, hd, rfl⟩ := List.mem_map.mp hc
    obtain ⟨-, hne, -, -, -⟩ := hspec d hd
    exact hne
  have hpads := padFor_mem raw
  have hfuel : (quintets raw).length < (quintets raw).length + padFor raw + 1 := by omega
  obtain ⟨r, hr, hbytes⟩ := b32quanta_quintets raw hfuel [] 0
  rw [List.nil_append, unpadded] at hbytes
  rw [Cid.b32decode, hlength, if_neg (not_or.mpr ⟨hascii, not_not.mpr hwhole⟩), strip_padding hnot]
  simp only [List.length_map, Nat.add_sub_cancel_left, hr, hpads, not_true_eq_false, if_false]
  refine Eq.trans ?_ (congrArg some hbytes)
  split_ifs <;> rfl

end ObserverClub.UnixFs
