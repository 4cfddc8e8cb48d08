import ObserverClub.Python

/-!
`cidutil.py`: the text form of a CID taken apart.
-/

namespace ObserverClub.Cid

open Library Python

structure Decoded where
  version : ℕ
  codec : Text
  codecCode : ℕ
  mhCode : ℕ
  digest : Bytes
  deriving DecidableEq

def b58Alphabet : Text := txt "123456789ABCDEFGHJKLMNPQRSTUVWXYZabcdefghijkmnopqrstuvwxyz"

def b32Alphabet : Text := txt "ABCDEFGHIJKLMNOPQRSTUVWXYZ234567"

def sha2_256 : ℕ := 0x12

def codecNames : List (ℕ × Text) :=
  [(0x55, txt "raw"), (0x70, txt "dag-pb"), (0x71, txt "dag-cbor"), (0x0129, txt "dag-json"),
    (0x72, txt "libp2p-key"), (0x0200, txt "json")]

def codecName (code : ℕ) : Text :=
  (codecNames.lookup code).getD (txt "codec-0x" ++ (Nat.toDigits 16 code).map Char.toNat)

def indexIn (alphabet : Text) (c : ℕ) : Option ℕ :=
  if c ∈ alphabet then some (alphabet.idxOf c) else none

/-- `n.to_bytes(width, "big")` -/
def bigEndian : ℕ → ℕ → Bytes
  | 0, _ => []
  | w + 1, n => bigEndian w (n / 256) ++ [UInt8.ofNat (n % 256)]

def byteWidth (n : ℕ) : ℕ := if n = 0 then 0 else (Nat.log2 n + 8) / 8

def numberIn (alphabet : Text) (base : ℕ) : ℕ → Text → Option ℕ
  | n, [] => some n
  | n, c :: t =>
    match indexIn alphabet c with
    | some i => numberIn alphabet base (n * base + i) t
    | none => none

def b58decode (s : Text) : Option Bytes :=
  (numberIn b58Alphabet 58 0 s).map fun n =>
    List.replicate (s.takeWhile (· = 49)).length 0 ++ bigEndian (byteWidth n) n

def b32quanta : ℕ → Text → Bytes → ℕ → Option (Bytes × ℕ)
  | 0, _, _, _ => none
  | fuel + 1, s, decoded, acc =>
    if s = [] then some (decoded, acc)
    else match numberIn b32Alphabet 32 0 (s.take 8) with
      | some acc => b32quanta fuel (s.drop 8) (decoded ++ bigEndian 5 acc) acc
      | none => none

/-- `base64.b32decode` -/
def b32decode (s : Text) : Option Bytes :=
  if s.any (128 ≤ ·) ∨ s.length % 8 ≠ 0 then none
  else
    let stripped := (s.reverse.dropWhile (· = 61)).reverse
    let padchars := s.length - stripped.length
    match b32quanta (s.length + 1) stripped [] 0 with
    | none => none
    | some (decoded, acc) =>
      if padchars ∉ [0, 1, 3, 4, 6] then none
      else if padchars = 0 ∨ decoded = [] then some decoded
      else
        let last := bigEndian 5 (acc * 2 ^ (5 * padchars))
        some (decoded.take (decoded.length - 5) ++ last.take ((43 - 5 * padchars) / 8))

/-- `bytes.fromhex`: blanks may stand between bytes. -/
def fromHex : Text → Option Bytes
  | [] => some []
  | [c] => if isSpaceAscii c then some [] else none
  | c :: d :: t =>
    if isSpaceAscii c then fromHex (d :: t)
    else match Json.hexValue c, Json.hexValue d, fromHex t with
      | some x, some y, some bs => some (UInt8.ofNat (16 * x + y) :: bs)
      | _, _, _ => none

def readVarintFrom : ℕ → ℕ → Bytes → Option (ℕ × Bytes)
  | _, _, [] => none
  | result, shift, b :: data =>
    let result := result + b.toNat % 128 * 2 ^ shift
    if b.toNat < 128 then some (result, data)
    else if 63 < shift + 7 then none
    else readVarintFrom result (shift + 7) data

def readVarint (data : Bytes) : Option (ℕ × Bytes) := readVarintFrom 0 0 data

def decodeV0 (mh : Bytes) : Option Decoded :=
  match mh with
  | code :: length :: rest =>
    let digest := rest.take length.toNat
    if code.toNat = sha2_256 ∧ digest.length = length.toNat then
      some ⟨0, txt "dag-pb", 0x70, sha2_256, digest⟩
    else none
  | _ => none

def decodeV1 (data : Bytes) : Option Decoded := do
  let (version, data) ← readVarint data
  if version ≠ 1 then none
  let (codecCode, data) ← readVarint data
  let (mhCode, data) ← readVarint data
  let (mhLen, data) ← readVarint data
  let digest := data.take mhLen
  if mhLen = 0 ∨ digest.length ≠ mhLen then none
  return ⟨1, codecName codecCode, codecCode, mhCode, digest⟩

def multibase (upper : Text → Text) : Text → Option Bytes
  | [] => none
  | c :: rest =>
    let pad := List.replicate ((8 - rest.length % 8) % 8) 61
    if c = 98 then b32decode (upper rest ++ pad)
    else if c = 66 then b32decode (rest ++ pad)
    else if c = 122 then b58decode rest
    else if c = 102 ∨ c = 70 then fromHex rest
    else none

/-- `decode_cid`; `upper` is the interpreter's `str.upper`. -/
def decodeCid (upper : Text → Text) : Value → Option Decoded
  | .str cid =>
    if cid.length = 46 ∧ cid.take 2 = txt "Qm" then (b58decode cid).bind decodeV0
    else (multibase upper cid).bind decodeV1
  | _ => none

def valid (upper : Text → Text) (cid : Value) : Bool :=
  (decodeCid upper cid).any (fun d => d.digest ≠ [])

end ObserverClub.Cid
