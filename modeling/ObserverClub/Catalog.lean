import ObserverClub.Canon
import ObserverClub.Cid
import ObserverClub.Library.Table
import ObserverClub.Library.Transaction

/-!
The catalog of `store.py`: its tables, and the values its columns take from Python objects.
-/

namespace ObserverClub

open Library Python

namespace Sqlite

inductive Cell where
  | null
  | int (i : ℤ)
  | real (x : Binary64)
  | text (t : Text)
  deriving DecidableEq

end Sqlite

/-- What the observer is given: the interpreter, its Unicode tables, SQLite's conversions of numbers,
and the configuration. -/
structure Observer where
  py : Interpreter
  lower : Text → Text
  upper : Text → Text
  sha256 : Bytes → Bytes
  realText : Binary64 → Text
  numericText : Text → Sqlite.Cell
  clubID : Text
  fields : List Text
  fieldAliases : List (Text × Text)
  skipTtlSeconds : ℤ

namespace Sqlite

def bindValue : Value → Except Error Cell
  | .null => .ok .null
  | .bool b => .ok (.int (if b then 1 else 0))
  | .num (.int i) => if -2 ^ 63 ≤ i ∧ i < 2 ^ 63 then .ok (.int i) else .error .overflowError
  | .num (.float .nan) => .ok .null
  | .num (.float x) => .ok (.real x)
  | .str t => if t.any isSurrogate then .error .valueError else .ok (.text t)
  | .arr _ => .error .sqliteError
  | .obj _ => .error .sqliteError

/-- A cell as a column hands it back to Python. -/
def Cell.value : Cell → Value
  | .null => .null
  | .int i => .num (.int i)
  | .real x => .num (.float x)
  | .text t => .str t

variable (o : Observer)

def Cell.asText : Cell → Option Text
  | .null => none
  | .int i => some (decimalInt i)
  | .real x => some (o.realText x)
  | .text t => some t

def Cell.asInteger : Cell → Cell
  | .real (.fin q) => if q.den = 1 ∧ -2 ^ 63 ≤ q ∧ q < 2 ^ 63 then .int q.num else .real (.fin q)
  | .real .negZero => .int 0
  | .text t => o.numericText t
  | c => c

def bindText (v : Value) : Except Error (Option Text) := (bindValue v).map (Cell.asText o)

def required : Option Text → Except Error Text
  | some t => .ok t
  | none => .error .integrityError

/-- `CAST(text AS INTEGER)` -/
def castInteger (t : Text) : ℤ :=
  let s := splitSign (t.dropWhile isSpaceAscii)
  if s.1 then -(digitsValue (s.2.takeWhile isDigit) : ℤ) else digitsValue (s.2.takeWhile isDigit)

end Sqlite

namespace Catalog

open Sqlite

structure Message where
  payloadHash : Text
  kind : Text
  cid : Text
  publisher : Text
  body : Text
  receivedAt : ℚ
  deriving DecidableEq

structure Description where
  mimeType : Option Text
  size : Cell
  filename : Option Text
  field : Option Text
  topic : Option Text
  keywords : Option Text
  license : Option Text
  textSha256 : Option Text
  indexedAt : Option Binary64
  deriving DecidableEq

structure Classify where
  payloadHash : Text
  cid : Text
  publisher : Text
  description : Description
  classifier : Option Text
  receivedAt : ℚ
  deriving DecidableEq

structure Doc where
  rowid : ℕ
  cid : Text
  publisher : Text
  description : Description
  receivedAt : ℚ
  deriving DecidableEq

structure Indexed where
  rowid : ℕ
  cid : Text
  filename : Text
  field : Text
  topic : Text
  keywords : Text
  deriving DecidableEq

structure Skip where
  cid : Text
  publisher : Text
  mimeType : Option Text
  reason : Option Text
  receivedAt : ℚ
  deriving DecidableEq

structure Claim where
  publisher : Text
  cid : Text
  untilTime : Binary64
  deriving DecidableEq

structure Report where
  cid : Text
  publisher : Text
  reason : Text
  receivedAt : ℚ
  deriving DecidableEq

structure Alias where
  publisher : Text
  aliasName : Text
  payloadHash : Text
  receivedAt : ℚ
  deriving DecidableEq

structure Blacklisted where
  publisher : Text
  aliasName : Text
  receivedAt : ℚ
  deriving DecidableEq

structure Tables where
  messages : List Message
  classifies : List Classify
  docs : List Doc
  docsFts : List Indexed
  skips : List Skip
  claims : List Claim
  reports : List Report
  aliases : List Alias
  blacklisted : List Blacklisted
  settings : List (Text × Text)
  deriving DecidableEq

def empty : Tables := ⟨[], [], [], [], [], [], [], [], [], []⟩

def Report.key (r : Report) : Text × Text := (r.cid, r.publisher)

abbrev Conn := Session Tables

abbrev Db := Txn Error Tables

section Fields

variable (o : Observer)

/-- `Club.normalize_field` -/
def normalizeField (value : Value) : Except Error Text :=
  if !truthy value then .ok (txt "other")
  else do
    let text ← str o.py value
    let key := (o.lower (trim isSpace text)).map (fun c => if c = 95 then 45 else c)
    let key := joined [32] (split key)
    let collapsed := key.map (fun c => if c = 32 then 45 else c)
    if key ∈ o.fields then return key
    if collapsed ∈ o.fields then return collapsed
    match o.fieldAliases.lookup key, o.fieldAliases.lookup collapsed with
    | some (c :: s), _ => return c :: s
    | _, some (c :: s) => return c :: s
    | _, _ => return txt "other"

/-- `float(value or now)` -/
def timeOr (value : Value) (now : ℚ) : Except Error Binary64 :=
  if truthy value then float value else .ok (Binary64.ofRat now)

def realCell : Binary64 → Option Binary64
  | .nan => none
  | x => some x

/-- The columns of `obj`, once its field and its time have been computed. -/
def bindDescription (obj : Value) (field : Text) (indexedAt : Binary64) : Except Error Description := do
  let mimeType ← bindText o (item obj "mime_type")
  let size ← bindValue (item obj "size")
  let filename ← bindText o (item obj "filename")
  let field ← bindText o (.str field)
  let topic ← bindText o (item obj "topic")
  let keywords ← bindText o (item obj "keywords")
  let license ← bindText o (item obj "license")
  let textSha256 ← bindText o (item obj "text_sha256")
  return ⟨mimeType, size.asInteger o, filename, field, topic, keywords, license, textSha256, realCell indexedAt⟩

/-- `dict(row)` of a row of `classifies` -/
def Classify.dict (c : Classify) : Value :=
  let text := fun t : Option Text => (t.map Json.str).getD .null
  .obj [(txt "payload_hash", .str c.payloadHash), (txt "cid", .str c.cid), (txt "publisher", .str c.publisher),
    (txt "mime_type", text c.description.mimeType), (txt "size", c.description.size.value),
    (txt "filename", text c.description.filename), (txt "field", text c.description.field),
    (txt "topic", text c.description.topic), (txt "keywords", text c.description.keywords),
    (txt "license", text c.description.license), (txt "text_sha256", text c.description.textSha256),
    (txt "classifier", text c.classifier),
    (txt "indexed_at", ((c.description.indexedAt.map Num.float).map Json.num).getD .null),
    (txt "received_at", .num (.float (Binary64.ofRat c.receivedAt)))]

end Fields

section Docs

/-- `_add_stat` -/
def addStat (key : Text) (delta : ℤ) (t : Tables) : Tables :=
  match t.settings.lookup key with
  | none => { t with settings := t.settings ++ [(key, decimalInt delta)] }
  | some _ =>
    { t with settings := t.settings.map fun p =>
        if p.1 = key then (p.1, decimalInt (castInteger p.2 + delta)) else p }

def docsCount : Text := txt "docs_count"

def orEmpty (t : Option Text) : Text := t.getD []

/-- `_index_doc` -/
def indexDoc (cid : Text) (t : Tables) : Tables :=
  match Table.row? Doc.cid cid t.docs with
  | none => t
  | some d =>
    { t with docsFts := t.docsFts.filter (fun r => r.rowid ≠ d.rowid) ++
        [⟨d.rowid, d.cid, orEmpty d.description.filename, orEmpty d.description.field, orEmpty d.description.topic,
          orEmpty d.description.keywords⟩] }

def nextRowid (docs : List Doc) : ℕ := (docs.map Doc.rowid).foldr max 0 + 1

def insertDoc (cid publisher : Text) (d : Description) (now : ℚ) (t : Tables) : Tables :=
  { t with docs := Table.putNew Doc.cid ⟨nextRowid t.docs, cid, publisher, d, now⟩ t.docs }

/-- `_drop_doc` -/
def dropDoc (cid : Text) (t : Tables) : Tables :=
  let dropped := t.docs.filter (fun d => d.cid = cid)
  let t := dropped.foldl (fun t d =>
    addStat docsCount (-1) { t with docsFts := t.docsFts.filter (fun r => r.rowid ≠ d.rowid) }) t
  { t with docs := Table.delete Doc.cid cid t.docs }

end Docs

end Catalog

end ObserverClub
