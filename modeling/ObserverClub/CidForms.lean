import ObserverClub.Base58
import ObserverClub.Library.Varint

/-!
Which of the texts that `cidutil.valid` takes spell a CID in its one canonical form.
-/

namespace ObserverClub.Cid

open Library Library.Positional Python UnixFs

def isV0 (cid : Text) : Bool := cid.length = 46 && cid.take 2 = txt "Qm"

def binary (upper : Text → Text) (cid : Text) : Option Bytes :=
  if isV0 cid then b58decode cid else multibase upper cid

def Decoded.canonical (d : Decoded) : Bytes :=
  if d.version = 0 then .ofNat d.mhCode :: .ofNat d.digest.length :: d.digest
  else Varint.encode d.version ++ (Varint.encode d.codecCode ++ (Varint.encode d.mhCode ++
    (Varint.encode d.digest.length ++ d.digest)))

/-- The text's bytes are those of the CID read from it, thirty-four for version 0. -/
def Exact (upper : Text → Text) (cid : Text) : Prop :=
  ∃ raw d, binary upper cid = some raw ∧ decodeCid upper (.str cid) = some d ∧ raw = d.canonical ∧
    (d.version = 0 → raw.length = 34)

structure Layout (raw version codec mh length tail : Bytes) (n : ℕ) : Prop where
  bytes : raw = version ++ (codec ++ (mh ++ (length ++ tail)))
  spells_version : ∃ v, Varint.Spells version v
  spells_codec : ∃ c, Varint.Spells codec c
  spells_mh : ∃ m, Varint.Spells mh m
  spells_length : Varint.Spells length n

/-- No number is padded and no byte stands after the digest; the digest of a version 0 is not cut short. -/
def Tight (upper : Text → Text) (cid : Text) : Prop :=
  ∀ raw, binary upper cid = some raw →
    if isV0 cid then ∀ length, raw[1]? = some length → 32 ≤ length.toNat
    else ∀ version codec mh length tail n, Layout raw version codec mh length tail n →
      Varint.padded version = false ∧ Varint.padded codec = false ∧ Varint.padded mh = false ∧
        Varint.padded length = false ∧ tail.length ≤ n

section Varints

theorem readVarintFrom_spells {result shift n : ℕ} {data rest : Bytes}
    (h : readVarintFrom result shift data = some (n, rest)) :
    ∃ form v, Varint.Spells form v ∧ data = form ++ rest ∧ n = result + v * 2 ^ shift := by
  induction data generalizing result shift with
  | nil => cases h
  | cons b data ih =>
    rw [readVarintFrom] at h
    split_ifs at h with hlast hlong
    · obtain ⟨rfl, rfl⟩ := Prod.mk.inj (Option.some.inj h)
      refine ⟨[b], b.toNat, .last hlast, rfl, ?_⟩
      rw [Nat.mod_eq_of_lt hlast]
    · obtain ⟨form, v, hform, rfl, hn⟩ := ih h
      refine ⟨b :: form, _, .more (Nat.le_of_not_lt hlast) hform, rfl, ?_⟩
      rw [hn]
      ring

theorem readVarint_spells {n : ℕ} {data rest : Bytes} (h : readVarint data = some (n, rest)) :
    ∃ form, Varint.Spells form n ∧ data = form ++ rest := by
  obtain ⟨form, v, hform, hdata, hn⟩ := readVarintFrom_spells h
  rw [pow_zero, Nat.mul_one, Nat.zero_add] at hn
  exact ⟨form, hn ▸ hform, hdata⟩

end Varints

/-- What `decode_cid` found where it gave a version 1. -/
theorem decodeV1_layout {raw : Bytes} {d : Decoded} (h : decodeV1 raw = some d) :
    ∃ version codec mh length tail n, Layout raw version codec mh length tail n ∧ Varint.Spells version 1 ∧
      Varint.Spells codec d.codecCode ∧ Varint.Spells mh d.mhCode ∧ n ≤ tail.length ∧ d.version = 1 ∧ d.digest = tail.take n := by
  rw [decodeV1] at h
  simp only [Option.bind_eq_bind, Option.bind_eq_some_iff, Option.pure_def, Prod.exists] at h
  obtain ⟨v, data, hv, h⟩ := h
  split_ifs at h with hone
  · cases h
  simp only [Option.bind_eq_some_iff, Prod.exists] at h
  obtain ⟨c, data1, hc, m, data2, hm, n, tail, hn, h⟩ := h
  split_ifs at h with hbad
  · cases h
  obtain rfl := Option.some.inj h
  obtain ⟨version, hversion, rfl⟩ := readVarint_spells hv
  obtain ⟨codec, hcodec, rfl⟩ := readVarint_spells hc
  obtain ⟨mh, hmh, rfl⟩ := readVarint_spells hm
  obtain ⟨length, hlength, rfl⟩ := readVarint_spells hn
  obtain ⟨-, hlen⟩ := not_or.mp hbad
  rw [not_not, List.length_take] at hlen
  obtain rfl := not_not.mp hone
  exact ⟨version, codec, mh, length, tail, n, ⟨rfl, ⟨_, hversion⟩, ⟨_, hcodec⟩, ⟨_, hmh⟩, hlength⟩, hversion, hcodec, hmh,
    by omega, rfl, rfl⟩

theorem Layout.unique {raw version codec mh length tail version' codec' mh' length' tail' : Bytes} {n n' : ℕ}
    (h : Layout raw version codec mh length tail n) (h' : Layout raw version' codec' mh' length' tail' n') :
    version = version' ∧ codec = codec' ∧ mh = mh' ∧ length = length' ∧ tail = tail' ∧ n = n' := by
  obtain ⟨hbytes, ⟨_, hv⟩, ⟨_, hc⟩, ⟨_, hm⟩, hl⟩ := h
  obtain ⟨hbytes', ⟨_, hv'⟩, ⟨_, hc'⟩, ⟨_, hm'⟩, hl'⟩ := h'
  obtain ⟨rfl, hrest, -⟩ := hv.unique hv' (hbytes.symm.trans hbytes')
  obtain ⟨rfl, hrest, -⟩ := hc.unique hc' hrest
  obtain ⟨rfl, hrest, -⟩ := hm.unique hm' hrest
  obtain ⟨rfl, rfl, rfl⟩ := hl.unique hl' hrest
  exact ⟨rfl, rfl, rfl, rfl, rfl, rfl⟩

theorem layout_canonical {d : Decoded} (h : d.version ≠ 0) :
    Layout d.canonical (Varint.encode d.version) (Varint.encode d.codecCode) (Varint.encode d.mhCode)
      (Varint.encode d.digest.length) d.digest d.digest.length where
  bytes := by rw [Decoded.canonical, if_neg h]
  spells_version := ⟨_, Varint.spells_encode _⟩
  spells_codec := ⟨_, Varint.spells_encode _⟩
  spells_mh := ⟨_, Varint.spells_encode _⟩
  spells_length := Varint.spells_encode _

theorem numberIn_bounds {alphabet : Text} {n m : ℕ} {t : Text} (h : numberIn alphabet alphabet.length n t = some m) :
    n * alphabet.length ^ t.length ≤ m ∧ m < (n + 1) * alphabet.length ^ t.length := by
  induction t generalizing n with
  | nil =>
    obtain rfl := Option.some.inj h
    rw [List.length_nil, pow_zero]
    omega
  | cons c t ih =>
    rw [numberIn] at h
    cases hc : indexIn alphabet c with
    | none =>
      rw [hc] at h
      cases h
    | some i =>
      rw [hc] at h
      obtain ⟨hlow, hhigh⟩ := ih h
      have hi : i + 1 ≤ alphabet.length := by
        rw [indexIn] at hc
        split_ifs at hc with hmem
        obtain rfl := Option.some.inj hc
        exact List.idxOf_lt_length_of_mem hmem
      rw [List.length_cons, Nat.pow_succ]
      constructor
      · calc n * (alphabet.length ^ t.length * alphabet.length)
            = n * alphabet.length * alphabet.length ^ t.length := by ring
          _ ≤ (n * alphabet.length + i) * alphabet.length ^ t.length := Nat.mul_le_mul_right _ (Nat.le_add_right _ _)
          _ ≤ m := hlow
      · calc m < (n * alphabet.length + i + 1) * alphabet.length ^ t.length := hhigh
          _ ≤ (n * alphabet.length + alphabet.length) * alphabet.length ^ t.length :=
            Nat.mul_le_mul_right _ (Nat.add_le_add_left hi _)
          _ = (n + 1) * (alphabet.length ^ t.length * alphabet.length) := by ring

/-- Forty-six letters that start with `Qm` are thirty-four bytes. -/
theorem b58decode_length {cid : Text} (h : isV0 cid = true) {raw : Bytes} (hraw : b58decode cid = some raw) :
    raw.length = 34 := by
  rw [isV0, Bool.and_eq_true, decide_eq_true_eq, decide_eq_true_eq] at h
  obtain ⟨hlength, hqm⟩ := h
  have hsplit := List.take_append_drop 2 cid
  rw [hqm] at hsplit
  have hletters : txt "Qm" = [81, 109] ∧ indexIn b58Alphabet 81 = some 23 ∧ indexIn b58Alphabet 109 = some 44 ∧
      b58Alphabet.length = 58 := by decide +kernel
  obtain ⟨htxt, hq, hm, hbase⟩ := hletters
  rw [htxt] at hsplit
  have hrest : (cid.drop 2).length = 44 := by rw [List.length_drop, hlength]
  rw [b58decode, Option.map_eq_some_iff] at hraw
  obtain ⟨n, hn, rfl⟩ := hraw
  rw [← hsplit] at hn
  rw [List.cons_append, List.cons_append, List.nil_append, numberIn, hq] at hn
  simp only at hn
  rw [numberIn, hm] at hn
  simp only at hn
  have hbounds := @numberIn_bounds b58Alphabet _ n (cid.drop 2) (by rw [hbase]; exact hn)
  rw [hbase, hrest] at hbounds
  have hones : cid.takeWhile (· = 49) = [] := by
    rw [← hsplit]
    rfl
  have hlog : Nat.log2 n = 268 := by
    rw [Nat.log2_eq_iff (by norm_num at hbounds; omega)]
    norm_num at hbounds ⊢
    omega
  have hne : n ≠ 0 := by
    rintro rfl
    exact absurd hlog (by decide)
  rw [hones, List.length_nil, List.replicate_zero, List.nil_append, bigEndian_length, byteWidth, if_neg hne, hlog]

theorem decodeCid_eq (upper : Text → Text) (cid : Text) :
    decodeCid upper (.str cid) = (binary upper cid).bind fun raw => if isV0 cid then decodeV0 raw else decodeV1 raw := by
  have hiff : isV0 cid = true ↔ cid.length = 46 ∧ cid.take 2 = txt "Qm" := by
    rw [isV0, Bool.and_eq_true, decide_eq_true_eq, decide_eq_true_eq]
  simp only [decodeCid, binary, hiff]
  split_ifs <;> rfl

theorem canonical_v0 {raw : Bytes} {d : Decoded} (hlength : raw.length = 34) (h : decodeV0 raw = some d) :
    (raw = d.canonical ∧ (d.version = 0 → raw.length = 34)) ↔ ∀ length, raw[1]? = some length → 32 ≤ length.toNat := by
  obtain ⟨code, width, rest, rfl⟩ : ∃ code width rest, raw = code :: width :: rest := by
    match raw, hlength with
    | code :: width :: rest, _ => exact ⟨code, width, rest, rfl⟩
  have hrest : rest.length = 32 := by simpa using hlength
  rw [decodeV0] at h
  split_ifs at h with hgood
  obtain ⟨hcode, hwidth⟩ := hgood
  obtain rfl := Option.some.inj h
  rw [List.length_take] at hwidth
  have hfirst : UInt8.ofNat sha2_256 = code := by rw [← hcode, UInt8.ofNat_toNat]
  have hsecond : UInt8.ofNat (rest.take width.toNat).length = width := by
    rw [List.length_take, hwidth, UInt8.ofNat_toNat]
  rw [Decoded.canonical, if_pos rfl, hfirst, hsecond]
  constructor
  · rintro ⟨hraw, -⟩ length hlen
    obtain rfl := Option.some.inj hlen
    have htake := (List.cons.inj (List.cons.inj hraw).2).2
    have hlen := congrArg List.length htake
    rw [List.length_take] at hlen
    omega
  · intro htight
    have hwide := htight width rfl
    rw [List.take_of_length_le (by omega)]
    exact ⟨rfl, fun _ => hlength⟩

theorem canonical_v1 {raw : Bytes} {d : Decoded} (h : decodeV1 raw = some d) :
    (raw = d.canonical ∧ (d.version = 0 → raw.length = 34)) ↔
      ∀ version codec mh length tail n, Layout raw version codec mh length tail n →
        Varint.padded version = false ∧ Varint.padded codec = false ∧ Varint.padded mh = false ∧
          Varint.padded length = false ∧ tail.length ≤ n := by
  obtain ⟨version, codec, mh, length, tail, n, hlayout, hversion, hcodec, hmh, hn, hone, hdigest⟩ := decodeV1_layout h
  have hzero : d.version ≠ 0 := by
    rw [hone]
    decide
  constructor
  · rintro ⟨hraw, -⟩ version' codec' mh' length' tail' n' hlayout'
    obtain ⟨rfl, rfl, rfl, rfl, rfl, rfl⟩ := hlayout'.unique (hraw ▸ layout_canonical hzero)
    exact ⟨Varint.padded_encode _, Varint.padded_encode _, Varint.padded_encode _, Varint.padded_encode _, le_refl _⟩
  · intro htight
    obtain ⟨hpv, hpc, hpm, hpl, htail⟩ := htight _ _ _ _ _ _ hlayout
    refine ⟨?_, fun hv => absurd hv hzero⟩
    have hwhole : d.digest = tail := by
      rw [hdigest]
      exact List.take_of_length_le htail
    have hwidth : d.digest.length = n := by
      rw [hwhole]
      omega
    rw [Decoded.canonical, if_neg hzero, hwidth, hone, ← hversion.eq_encode hpv, ← hcodec.eq_encode hpc, ← hmh.eq_encode hpm,
      ← hlayout.spells_length.eq_encode hpl, hwhole]
    exact hlayout.bytes

/-- A text that passes `valid` spells its CID exactly if and only if it is tight. -/
theorem valid_exact_iff (upper : Text → Text) (cid : Text) (h : valid upper (.str cid) = true) :
    Exact upper cid ↔ Tight upper cid := by
  rw [valid, Option.any_eq_true] at h
  obtain ⟨d, hd, -⟩ := h
  have hdecode := hd
  rw [decodeCid_eq, Option.bind_eq_some_iff] at hdecode
  obtain ⟨raw, hraw, hdecode⟩ := hdecode
  have hexact : Exact upper cid ↔ raw = d.canonical ∧ (d.version = 0 → raw.length = 34) := by
    constructor
    · rintro ⟨raw', d', hraw', hd', hbytes⟩
      obtain rfl := Option.some.inj (hraw.symm.trans hraw')
      obtain rfl := Option.some.inj (hd.symm.trans hd')
      exact hbytes
    · exact fun hbytes => ⟨raw, d, hraw, hd, hbytes⟩
  have htight : Tight upper cid ↔ if isV0 cid then ∀ length, raw[1]? = some length → 32 ≤ length.toNat
      else ∀ version codec mh length tail n, Layout raw version codec mh length tail n →
        Varint.padded version = false ∧ Varint.padded codec = false ∧ Varint.padded mh = false ∧
          Varint.padded length = false ∧ tail.length ≤ n := by
    constructor
    · exact fun htight => htight raw hraw
    · intro hall raw' hraw'
      obtain rfl := Option.some.inj (hraw.symm.trans hraw')
      exact hall
  rw [hexact, htight]
  split_ifs at hdecode ⊢ with hv0
  · have hlength : raw.length = 34 := by
      rw [binary, if_pos hv0] at hraw
      exact b58decode_length hv0 hraw
    exact canonical_v0 hlength hdecode
  · exact canonical_v1 hdecode

theorem valid_exact_hex : valid id (.str (txt "f0155000141")) = true ∧
    (Exact id (txt "f0155000141") ↔ Tight id (txt "f0155000141")) := by
  have hvalid : valid id (.str (txt "f0155000141")) = true := by decide +kernel
  exact ⟨hvalid, valid_exact_iff id (txt "f0155000141") hvalid⟩

theorem trailing_byte_accepted :
    ¬ ∀ cid : Text, valid id (.str cid) = true → Exact id cid := by
  intro hall
  have hvalid : valid id (.str (txt "f0155000141ff")) = true := by decide +kernel
  obtain ⟨raw, d, hraw, hd, hbytes, -⟩ := hall _ hvalid
  have hread : binary id (txt "f0155000141ff") = some [1, 0x55, 0, 1, 0x41, 0xff] ∧
      decodeCid id (.str (txt "f0155000141ff")) = some ⟨1, txt "raw", 0x55, 0, [0x41]⟩ := by decide +kernel
  obtain rfl := Option.some.inj (hraw.symm.trans hread.1)
  obtain rfl := Option.some.inj (hd.symm.trans hread.2)
  simp [Decoded.canonical, Varint.encode] at hbytes

end ObserverClub.Cid
