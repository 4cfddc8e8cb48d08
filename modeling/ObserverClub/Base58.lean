import ObserverClub.Library.Positional
import ObserverClub.UnixFs

namespace ObserverClub.UnixFs

open Library Library.Positional Python

theorem bytesValue_eq (raw : Bytes) : bytesValue raw = value 256 (raw.map UInt8.toNat) := by
  rw [bytesValue, value, List.foldl_map]

theorem bytesValue_append (raw more : Bytes) : bytesValue (raw ++ more) = bytesValue raw * 256 ^ more.length + bytesValue more := by
  rw [bytesValue_eq, bytesValue_eq, bytesValue_eq, List.map_append, value_append, List.length_map]

theorem bytesValue_lt (raw : Bytes) : bytesValue raw < 256 ^ raw.length := by
  have hlt := @value_lt 256 (raw.map UInt8.toNat)
  rw [List.length_map, ← bytesValue_eq] at hlt
  apply hlt
  intro d hd
  obtain ⟨b, -, rfl⟩ := List.mem_map.mp hd
  exact b.toNat_lt

theorem bytesValue_zeros (k : ℕ) (raw : Bytes) : bytesValue (List.replicate k 0 ++ raw) = bytesValue raw := by
  rw [bytesValue_eq, List.map_append, List.map_replicate, bytesValue_eq]
  exact value_zeros 256 k _

theorem bigEndian_length (w n : ℕ) : (Cid.bigEndian w n).length = w := by
  induction w generalizing n with
  | zero => rfl
  | succ w ih => rw [Cid.bigEndian, List.length_append, ih, List.length_singleton]

theorem bigEndian_bytesValue (raw : Bytes) : Cid.bigEndian raw.length (bytesValue raw) = raw := by
  induction raw using List.reverseRecOn with
  | nil => rfl
  | append_singleton raw b ih =>
    have hlt := b.toNat_lt
    have hsingle : bytesValue [b] = b.toNat := by
      rw [bytesValue, List.foldl_cons, List.foldl_nil, Nat.zero_mul, Nat.zero_add]
    rw [bytesValue_append, hsingle, List.length_append, List.length_singleton, Cid.bigEndian, pow_one]
    have hdiv : (bytesValue raw * 256 + b.toNat) / 256 = bytesValue raw := by omega
    have hmod : (bytesValue raw * 256 + b.toNat) % 256 = b.toNat := by omega
    rw [hdiv, hmod, ih, UInt8.ofNat_toNat]

theorem byteWidth_bytesValue {raw : Bytes} (h : raw.head? ≠ some 0) : Cid.byteWidth (bytesValue raw) = raw.length := by
  cases raw with
  | nil => rfl
  | cons b raw =>
    have hb : 1 ≤ b.toNat := by
      apply Nat.pos_of_ne_zero
      intro hzero
      apply h
      rw [List.head?_cons, ← UInt8.toNat_inj.mp (hzero.trans rfl : b.toNat = (0 : UInt8).toNat)]
    have hvalue : bytesValue (b :: raw) = b.toNat * 256 ^ raw.length + bytesValue raw := by
      rw [bytesValue_eq, List.map_cons, value_cons, List.length_map, ← bytesValue_eq]
    have hlow : 256 ^ raw.length ≤ bytesValue (b :: raw) := by
      rw [hvalue]
      exact Nat.le_add_right_of_le (Nat.le_mul_of_pos_left _ hb)
    have hhigh := bytesValue_lt (b :: raw)
    have hne : bytesValue (b :: raw) ≠ 0 := (lt_of_lt_of_le (by positivity) hlow).ne'
    have hpow (k : ℕ) : (256 : ℕ) ^ k = 2 ^ (8 * k) := by rw [Nat.pow_mul]
    rw [hpow] at hlow hhigh
    rw [← Nat.le_log2 hne] at hlow
    rw [← Nat.log2_lt hne, List.length_cons] at hhigh
    rw [Cid.byteWidth, if_neg hne, List.length_cons]
    omega

def b58letter (d : ℕ) : ℕ := Cid.b58Alphabet.getD d 0

theorem b58letter_spec : ∀ d < 58, Cid.indexIn Cid.b58Alphabet (b58letter d) = some d ∧ (b58letter d = 49 ↔ d = 0) := by
  decide +kernel

theorem numberIn_map {alphabet : Text} {base n : ℕ} {ds : List ℕ} {letter : ℕ → ℕ}
    (h : ∀ d ∈ ds, Cid.indexIn alphabet (letter d) = some d) :
    Cid.numberIn alphabet base n (ds.map letter) = some (n * base ^ ds.length + value base ds) := by
  have hfold : Cid.numberIn alphabet base n (ds.map letter) = some (ds.foldl (fun n d => n * base + d) n) := by
    induction ds generalizing n with
    | nil => rfl
    | cons d ds ih =>
      obtain ⟨hd, hds⟩ := List.forall_mem_cons.mp h
      rw [List.map_cons, Cid.numberIn, hd]
      exact ih hds
  rw [hfold, foldl_value]

theorem b58digits_eq {fuel num : ℕ} (h : num < 58 ^ fuel) (enc : Text) :
    b58digits fuel num enc = (Nat.digits 58 num).reverse.map b58letter ++ enc := by
  induction fuel generalizing num enc with
  | zero =>
    obtain rfl : num = 0 := by simpa using h
    rfl
  | succ fuel ih =>
    rw [b58digits]
    split_ifs with hzero
    · rw [hzero]
      rfl
    · have hdiv : num / 58 < 58 ^ fuel := by
        apply Nat.div_lt_of_lt_mul
        rwa [Nat.pow_succ, Nat.mul_comm] at h
      rw [ih hdiv, Nat.digits_def' (by decide) (Nat.pos_of_ne_zero hzero), List.reverse_cons, List.map_append,
        List.append_assoc]
      rfl

def b58of (raw : Bytes) : List ℕ :=
  List.replicate (raw.takeWhile (· = 0)).length 0 ++ (Nat.digits 58 (bytesValue raw)).reverse

theorem b58encode_eq (raw : Bytes) : b58encode raw = (b58of raw).map b58letter := by
  have hfuel : bytesValue raw < 58 ^ (2 * raw.length) := by
    calc bytesValue raw < 256 ^ raw.length := bytesValue_lt raw
      _ ≤ (58 ^ 2) ^ raw.length := Nat.pow_le_pow_left (by decide) _
      _ = 58 ^ (2 * raw.length) := (Nat.pow_mul 58 2 raw.length).symm
  have hone : b58letter 0 = 49 := by decide +kernel
  rw [b58encode, b58digits_eq hfuel, List.append_nil, b58of, List.map_append, List.map_replicate, hone]

theorem b58of_lt (raw : Bytes) : ∀ d ∈ b58of raw, d < 58 := by
  intro d hd
  obtain hd | hd := List.mem_append.mp hd
  · rw [List.eq_of_mem_replicate hd]
    decide
  · exact Nat.digits_lt_base (by decide) (List.mem_reverse.mp hd)

theorem takeWhile_zeros {k : ℕ} {ds : List ℕ} (h : ∀ d ∈ ds, d < 58) (hhead : ds.head? ≠ some 0) :
    (((List.replicate k 0 ++ ds).map b58letter).takeWhile (· = 49)).length = k := by
  have hone : b58letter 0 = 49 := by decide +kernel
  induction k with
  | zero =>
    cases ds with
    | nil => rfl
    | cons d ds =>
      have hd : b58letter d ≠ 49 := by
        intro hletter
        apply hhead
        rw [((b58letter_spec d (h d List.mem_cons_self)).2.mp hletter)]
        rfl
      rw [List.replicate_zero, List.nil_append, List.map_cons, List.takeWhile_cons, if_neg (by simpa using hd)]
      rfl
  | succ k ih =>
    rw [List.replicate_succ, List.cons_append, List.map_cons, hone, List.takeWhile_cons, if_pos (by decide), List.length_cons, ih]

theorem digits_head (n : ℕ) : (Nat.digits 58 n).reverse.head? ≠ some 0 := by
  rw [List.head?_reverse]
  intro hlast
  by_cases hn : n = 0
  · rw [hn, Nat.digits_zero] at hlast
    cases hlast
  · have hne : Nat.digits 58 n ≠ [] := Nat.digits_ne_nil_iff_ne_zero.mpr hn
    rw [List.getLast?_eq_some_getLast hne] at hlast
    exact Nat.getLast_digit_ne_zero 58 hn (Option.some.inj hlast)

/-- `_b58decode` undoes `_b58encode`. -/
theorem b58decode_b58encode (raw : Bytes) : Cid.b58decode (b58encode raw) = some raw := by
  have hletters : ∀ d ∈ b58of raw, Cid.indexIn Cid.b58Alphabet (b58letter d) = some d :=
    fun d hd => (b58letter_spec d (b58of_lt raw d hd)).1
  have hdigits : ∀ d ∈ (Nat.digits 58 (bytesValue raw)).reverse, d < 58 :=
    fun d hd => b58of_lt raw d (List.mem_append_right _ hd)
  have hzeros : raw.takeWhile (· = 0) = List.replicate (raw.takeWhile (· = 0)).length 0 := by
    apply List.eq_replicate_of_mem
    intro b hb
    have hzero := List.mem_takeWhile_imp hb
    exact of_decide_eq_true hzero
  have hsplit := List.takeWhile_append_dropWhile (p := (· = (0 : UInt8))) (l := raw)
  have hvalue : bytesValue raw = bytesValue (raw.dropWhile (· = 0)) := by
    conv_lhs => rw [← hsplit, hzeros]
    exact bytesValue_zeros _ _
  have hhead : (raw.dropWhile (· = 0)).head? ≠ some 0 := by
    intro hzero
    have hnot := List.head?_dropWhile_not (· = (0 : UInt8)) raw
    rw [hzero] at hnot
    exact absurd hnot (by decide)
  rw [Cid.b58decode, b58encode_eq, numberIn_map hletters, Option.map_some, Nat.zero_mul, Nat.zero_add, b58of, value_zeros,
    value_digits, takeWhile_zeros hdigits (digits_head _), hvalue, byteWidth_bytesValue hhead, bigEndian_bytesValue, ← hzeros,
    hsplit]

end ObserverClub.UnixFs
