import ObserverClub.Base32
import ObserverClub.Fetch
import ObserverClub.Library.Varint

/-!
The text of a link's CID: what `unixfs.py` spells, `cidutil.py` reads back.
-/

namespace ObserverClub.UnixFs

open Library Library.Positional Python

/-- A CID in its shortest binary form. -/
inductive BinaryCid where
  | v0 (digest : Bytes) (length : digest.length = 32)
  | v1 (codec mh : ℕ) (digest : Bytes) (codec_lt : codec < 2 ^ 63) (mh_lt : mh < 2 ^ 63) (length_lt : digest.length < 2 ^ 63)
    (digest_ne : digest ≠ [])

def BinaryCid.bytes : BinaryCid → Bytes
  | v0 digest _ => 0x12 :: 0x20 :: digest
  | v1 codec mh digest _ _ _ _ =>
    Varint.encode 1 ++ (Varint.encode codec ++ (Varint.encode mh ++ (Varint.encode digest.length ++ digest)))

def BinaryCid.decoded : BinaryCid → Cid.Decoded
  | v0 digest _ => ⟨0, txt "dag-pb", 0x70, Cid.sha2_256, digest⟩
  | v1 codec mh digest _ _ _ _ => ⟨1, Cid.codecName codec, codec, mh, digest⟩

/-- Whether a block is the one that a CID names. -/
def BinaryCid.verifies (sha256 : Bytes → Bytes) (cid : BinaryCid) (data : Bytes) : Bool :=
  if cid.decoded.mhCode = Cid.sha2_256 then sha256 data = cid.decoded.digest
  else cid.decoded.mhCode = 0 && data = cid.decoded.digest

section Varints

theorem readVarintFrom_encode {k n : ℕ} (h : n < 128 ^ (k + 1)) (result : ℕ) {shift : ℕ} (hshift : shift + 7 * k ≤ 63)
    (rest : Bytes) :
    Cid.readVarintFrom result shift (Varint.encode n ++ rest) = some (result + n * 2 ^ shift, rest) := by
  induction k generalizing n result shift with
  | zero =>
    have hn : n < 128 := by simpa using h
    rw [Varint.encode, if_pos hn, List.singleton_append, Cid.readVarintFrom, Varint.toNat_ofNat (by omega), if_pos hn,
      Nat.mod_eq_of_lt hn]
  | succ k ih =>
    rw [Varint.encode]
    split_ifs with hn
    · rw [List.singleton_append, Cid.readVarintFrom, Varint.toNat_ofNat (by omega), if_pos hn, Nat.mod_eq_of_lt hn]
    · have hdiv : n / 128 < 128 ^ (k + 1) := by
        apply Nat.div_lt_of_lt_mul
        rwa [Nat.pow_succ, Nat.mul_comm] at h
      have hbyte : (UInt8.ofNat (n % 128 + 128)).toNat = n % 128 + 128 := Varint.toNat_ofNat (by omega)
      have hmod : (n % 128 + 128) % 128 = n % 128 := by omega
      rw [List.cons_append, Cid.readVarintFrom, hbyte, if_neg (by omega), if_neg (by omega), ih hdiv _ (by omega), hmod]
      congr 2
      calc result + n % 128 * 2 ^ shift + n / 128 * 2 ^ (shift + 7)
          = result + (n % 128 + 128 * (n / 128)) * 2 ^ shift := by ring
        _ = result + n * 2 ^ shift := by rw [Nat.mod_add_div]

theorem readVarint_encode {n : ℕ} (h : n < 2 ^ 63) (rest : Bytes) :
    Cid.readVarint (Varint.encode n ++ rest) = some (n, rest) := by
  have hread := @readVarintFrom_encode 8 n (lt_of_lt_of_eq h (by norm_num)) 0 0 (by decide) rest
  rwa [pow_zero, Nat.mul_one, Nat.zero_add] at hread

end Varints

/-- A CIDv0 is forty-six letters, the first two `Qm`. -/
theorem b58encode_v0 {digest : Bytes} (h : digest.length = 32) :
    (b58encode (0x12 :: 0x20 :: digest)).length = 46 ∧ (b58encode (0x12 :: 0x20 :: digest)).take 2 = txt "Qm" := by
  have hvalue : bytesValue (0x12 :: 0x20 :: digest) = 4640 * 256 ^ 32 + bytesValue digest := by
    have happend := bytesValue_append [0x12, 0x20] digest
    rwa [h] at happend
  have hlt := bytesValue_lt digest
  rw [h] at hlt
  have hdigits : b58of (0x12 :: 0x20 :: digest) = (Nat.digits 58 (bytesValue (0x12 :: 0x20 :: digest))).reverse := by
    rw [b58of, List.takeWhile_cons, if_neg (by decide)]
    rfl
  generalize bytesValue (0x12 :: 0x20 :: digest) = v at hvalue hdigits
  have hds : ∀ d ∈ (Nat.digits 58 v).reverse, d < 58 := fun d hd => Nat.digits_lt_base (by decide) (List.mem_reverse.mp hd)
  have hspell := value_digits 58 v
  have hlength : (Nat.digits 58 v).reverse.length = 46 := by
    rw [List.length_reverse]
    apply le_antisymm
    · rw [Nat.digits_length_le_iff (by decide)]
      norm_num at hlt hvalue ⊢
      omega
    · apply Nat.succ_le_of_lt
      rw [Nat.lt_digits_length_iff (by decide)]
      norm_num at hlt hvalue ⊢
      omega
  rw [b58encode_eq, hdigits, List.length_map, hlength]
  refine ⟨rfl, ?_⟩
  generalize (Nat.digits 58 v).reverse = ds at hds hspell hlength
  obtain ⟨a, b, tail, rfl⟩ : ∃ a b tail, ds = a :: b :: tail := by
    cases ds with
    | nil => simp at hlength
    | cons a ds =>
      cases ds with
      | nil => simp at hlength
      | cons b tail => exact ⟨a, b, tail, rfl⟩
  have htail : tail.length = 44 := by simpa using hlength
  have hsmall := value_lt fun d hd => hds d (List.mem_cons_of_mem _ (List.mem_cons_of_mem _ hd))
  have hb : b < 58 := hds b (by simp)
  rw [value_cons, value_cons, List.length_cons, htail] at hspell
  rw [htail] at hsmall
  have hfirst : a = 23 ∧ b = 44 := by
    norm_num at hlt hvalue hspell hsmall
    omega
  rw [hfirst.1, hfirst.2]
  have hqm : [b58letter 23, b58letter 44] = txt "Qm" := by decide +kernel
  exact hqm

theorem cidFromHash_v0 {digest : Bytes} (h : digest.length = 32) :
    cidFromHash (0x12 :: 0x20 :: digest) = b58encode (0x12 :: 0x20 :: digest) := by
  rw [cidFromHash, if_pos]
  rw [List.length_cons, List.length_cons, h]
  exact ⟨rfl, rfl⟩

theorem encode_one : Varint.encode 1 = [1] := by
  rw [Varint.encode, if_pos (by decide)]
  rfl

theorem cidFromHash_v1 (rest : Bytes) :
    cidFromHash (Varint.encode 1 ++ rest) = 98 :: b32letters 0 0 (Varint.encode 1 ++ rest) := by
  rw [cidFromHash, if_neg]
  rintro ⟨-, h⟩
  rw [encode_one] at h
  exact absurd (List.cons.inj h).1 (by decide)

theorem decodeV1_bytes {codec mh : ℕ} {digest : Bytes} (hcodec : codec < 2 ^ 63) (hmh : mh < 2 ^ 63)
    (hlength : digest.length < 2 ^ 63) (hne : digest ≠ []) :
    Cid.decodeV1 (Varint.encode 1 ++ (Varint.encode codec ++ (Varint.encode mh ++ (Varint.encode digest.length ++ digest)))) =
      some ⟨1, Cid.codecName codec, codec, mh, digest⟩ := by
  have hzero : digest.length ≠ 0 := by rwa [Ne, List.length_eq_zero_iff]
  simp only [Cid.decodeV1, readVarint_encode (show 1 < 2 ^ 63 by decide), readVarint_encode hcodec, readVarint_encode hmh,
    readVarint_encode hlength, Option.bind_eq_bind, Option.bind_some, Option.pure_def]
  rw [if_neg (by decide)]
  simp only [List.take_length, hzero, ne_eq, not_true_eq_false, or_self, if_false]

theorem multibase_letters (chars : Extract.Alphabet) (raw : Bytes) :
    Cid.multibase (Extract.upper chars) (98 :: b32letters 0 0 raw) = some raw := by
  have hpad : List.replicate ((8 - (b32letters 0 0 raw).length % 8) % 8) 61 = List.replicate (padFor raw) 61 := by
    rw [padFor, b32letters_eq, List.length_map]
  rw [Cid.multibase, hpad, if_pos rfl, upper_b32letters, b32decode_letters]

/-- `decode_cid` undoes `_cid_from_hash`. -/
theorem decodeCid_cidFromHash (chars : Extract.Alphabet) (cid : BinaryCid) :
    Cid.decodeCid (Extract.upper chars) (.str (cidFromHash cid.bytes)) = some cid.decoded := by
  cases cid with
  | v0 digest length =>
    obtain ⟨hlength, hqm⟩ := b58encode_v0 length
    rw [BinaryCid.bytes, cidFromHash_v0 length, Cid.decodeCid, if_pos ⟨hlength, hqm⟩, b58decode_b58encode, Option.bind_some,
      Cid.decodeV0]
    have hdigest : digest.take (0x20 : UInt8).toNat = digest := List.take_of_length_le (le_of_eq length)
    rw [hdigest, if_pos ⟨rfl, length⟩, BinaryCid.decoded]
  | v1 codec mh digest hcodec hmh hlength hne =>
    have hnot : ¬ ((98 :: b32letters 0 0 (BinaryCid.v1 codec mh digest hcodec hmh hlength hne).bytes).length = 46 ∧
        (98 :: b32letters 0 0 (BinaryCid.v1 codec mh digest hcodec hmh hlength hne).bytes).take 2 = txt "Qm") := by
      rintro ⟨-, h⟩
      have hq : (txt "Qm").head? = some 81 := by decide +kernel
      rw [← h] at hq
      cases hq
    rw [BinaryCid.bytes] at hnot ⊢
    rw [cidFromHash_v1, Cid.decodeCid, if_neg hnot, multibase_letters, Option.bind_some,
      decodeV1_bytes hcodec hmh hlength hne, BinaryCid.decoded]

/-- A link's CID means the same as text. -/
theorem link_cid_survives (chars : Extract.Alphabet) (host : Fetch.Host) (cid : BinaryCid) :
    Cid.decodeCid (Extract.upper chars) (.str (cidFromHash cid.bytes)) = some cid.decoded ∧
      ∀ data, Fetch.verifyBlock { host with chars.upper := Extract.upper chars } (cidFromHash cid.bytes) data =
        cid.verifies host.sha256 data := by
  refine ⟨decodeCid_cidFromHash chars cid, ?_⟩
  intro data
  rw [Fetch.verifyBlock, decodeCid_cidFromHash, BinaryCid.verifies]
  simp only
  split_ifs <;> simp_all

end ObserverClub.UnixFs
