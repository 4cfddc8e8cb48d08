import ObserverClub.Cid
import ObserverClub.Extract

/-!
`unixfs.py`: dag-pb blocks and the UnixFS node inside.
-/

namespace ObserverClub.UnixFs

open Library Python

def unixfsTypes : List (ℕ × Text) :=
  [(0, txt "raw"), (1, txt "directory"), (2, txt "file"), (3, txt "metadata"), (4, txt "symlink"), (5, txt "hamt-shard")]

/-- The number a varint spells, of any length, and the bytes after it. -/
def readVarint : Bytes → Option (ℕ × Bytes)
  | [] => none
  | b :: data =>
    if b.toNat < 128 then some (b.toNat, data)
    else (readVarint data).map fun r => (b.toNat % 128 + 128 * r.1, r.2)

inductive Wire where
  | varint (n : ℕ)
  | bytes (b : Bytes)
  | fixed (b : Bytes)

structure Field where
  number : ℕ
  value : Wire

def readFieldsFrom : ℕ → Bytes → Option (List Field)
  | _, [] => some []
  | 0, _ => none
  | fuel + 1, data => do
    let (key, data) ← readVarint data
    let field := key / 8
    match key % 8 with
    | 0 =>
      let (n, data) ← readVarint data
      return ⟨field, .varint n⟩ :: (← readFieldsFrom fuel data)
    | 2 =>
      let (length, data) ← readVarint data
      return ⟨field, .bytes (data.take length)⟩ :: (← readFieldsFrom fuel (data.drop length))
    | 5 => return ⟨field, .fixed (data.take 4)⟩ :: (← readFieldsFrom fuel (data.drop 4))
    | 1 => return ⟨field, .fixed (data.take 8)⟩ :: (← readFieldsFrom fuel (data.drop 8))
    | _ => return []

def readFields (data : Bytes) : Option (List Field) := readFieldsFrom data.length data

def b32letters : ℕ → ℕ → Bytes → Text
  | bits, value, [] => if bits = 0 then [] else [letter (value * 2 ^ (5 - bits))]
  | bits, value, b :: raw =>
    let value := value * 256 + b.toNat
    if bits + 8 < 10 then letter (value / 2 ^ (bits + 3)) :: b32letters (bits + 3) value raw
    else letter (value / 2 ^ (bits + 3)) :: letter (value / 2 ^ (bits - 2)) :: b32letters (bits - 2) value raw
where
  letter (n : ℕ) : ℕ := (Cid.b32Alphabet.map lowerAscii).getD (n % 32) 0

def b58digits : ℕ → ℕ → Text → Text
  | 0, _, enc => enc
  | fuel + 1, num, enc =>
    if num = 0 then enc else b58digits fuel (num / 58) (Cid.b58Alphabet.getD (num % 58) 0 :: enc)

def bytesValue (raw : Bytes) : ℕ := raw.foldl (fun n b => n * 256 + b.toNat) 0

def b58encode (raw : Bytes) : Text :=
  List.replicate (raw.takeWhile (· = 0)).length 49 ++ b58digits (2 * raw.length) (bytesValue raw) []

def cidFromHash (raw : Bytes) : Text :=
  if raw.length = 34 ∧ raw.take 2 = [0x12, 0x20] then b58encode raw else 98 :: b32letters 0 0 raw

/-- How many bytes of a sequence `decode(errors="replace")` gives up at once: the longest start of a
rune, or one byte. -/
def brokenWidth : Bytes → ℕ
  | a :: b :: s =>
    let a := a.toNat
    let lo := if a = 0xE0 then 0xA0 else if a = 0xF0 then 0x90 else 0x80
    let hi := if a = 0xED then 0xA0 else if a = 0xF4 then 0x90 else 0xC0
    if a < 0xE0 ∨ 0xF5 ≤ a ∨ b.toNat < lo ∨ hi ≤ b.toNat then 1
    else if a < 0xF0 then 2
    else if s.head?.any Utf8.isTail then 3
    else 2
  | _ => 1

/-- `raw.decode("utf-8", errors="replace")`; the counter skips bytes already read. -/
def decodeReplaceFrom : ℕ → Bytes → Text
  | _, [] => []
  | k + 1, _ :: s => decodeReplaceFrom k s
  | 0, b :: s =>
    match Utf8.decodeRune (b :: s) with
    | some (c, n) => c :: decodeReplaceFrom (n - 1) s
    | none => 0xFFFD :: decodeReplaceFrom (brokenWidth (b :: s) - 1) s

def decodeReplace (raw : Bytes) : Text := decodeReplaceFrom 0 raw

structure Link where
  name : Option Text
  cid : Text
  deriving DecidableEq

structure Node where
  unixfsType : Option Text := none
  inlineData : Bytes := []
  links : List Link := []
  filesize : Option ℕ := none
  deriving DecidableEq

def Node.isDirectory (node : Node) : Bool :=
  node.unixfsType = some (txt "directory") || node.unixfsType = some (txt "hamt-shard")

def Node.isFile (node : Node) : Bool :=
  node.unixfsType = some (txt "file") || node.unixfsType = some (txt "raw")

def linkOf (fields : List Field) : Option Link :=
  let step := fun (l : Option Text × Option Text) (f : Field) =>
    match f.number, f.value with
    | 1, .bytes hash => (l.1, some (cidFromHash hash))
    | 2, .bytes name => (some (decodeReplace name), l.2)
    | _, _ => l
  match fields.foldl step (none, none) with
  | (name, some cid) => some ⟨name, cid⟩
  | (_, none) => none

def readOuter : List Field → Option (Option Bytes × List Link)
  | [] => some (none, [])
  | f :: fields => do
    let (data, links) ← readOuter fields
    match f.number, f.value with
    | 1, .bytes pbdata => return (data.or (some pbdata), links)
    | 2, .bytes link => return (data, (linkOf (← readFields link)).toList ++ links)
    | _, _ => return (data, links)

def readData (node : Node) (f : Field) : Node :=
  match f.number, f.value with
  | 1, .varint t => { node with unixfsType := some ((unixfsTypes.lookup t).getD (txt "unknown")) }
  | 2, .bytes data => { node with inlineData := data }
  | 3, .varint size => { node with filesize := some size }
  | _, _ => node

/-- `parse_dag_pb`; nothing where it raises. -/
def parseDagPb (block : Bytes) : Option Node := do
  let (pbdata, links) ← readOuter (← readFields block)
  let fields ← pbdata.elim (some []) readFields
  return fields.foldl readData { links }

def fileExt : List Text :=
  [txt ".pdf", txt ".html", txt ".htm", txt ".txt", txt ".md", txt ".css", txt ".js", txt ".mjs", txt ".cjs", txt ".ts",
    txt ".jsx", txt ".tsx", txt ".map", txt ".json", txt ".wasm", txt ".less", txt ".scss"]

section

variable (chars : Unicode)

/-- `base.isdigit()` -/
def isDigits (base : Text) : Bool := base ≠ [] && base.all chars.digit

def candidate (name : Text) : Option Text :=
  let base := trim isSpace (Extract.baseName name)
  if base = [] ∨ base = txt "." ∨ base = txt ".." ∨ 180 < base.length ∨ isDigits chars base then none else some base

def hasFileExt (base : Text) : Bool := fileExt.any (fun e => e.isSuffixOf (chars.lower base))

/-- The first name with a known extension, else the first name there is. -/
def pickFilename (names : List Text) : Option Text :=
  let bases := names.filterMap (candidate chars)
  (bases.find? (hasFileExt chars)).or bases.head?

end

end ObserverClub.UnixFs
