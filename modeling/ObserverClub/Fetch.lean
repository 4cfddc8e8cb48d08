import ObserverClub.Library.Loop
import ObserverClub.UnixFs

/-!
`fetch.py`: blocks checked against their CIDs, and the bytes of a file gathered from them.
-/

namespace ObserverClub.Fetch

open Library Python UnixFs

/-- The `FETCH` section of the configuration. -/
structure Settings where
  ipfsApi : Bool := false
  gateways : List Text := [txt "https://trustless-gateway.link", txt "https://ipfs.io"]
  maxBytes : ℕ := 2097152
  maxPdfBytes : ℕ := 8 * 1048576
  maxChildBlocks : ℕ := 6
  childWorkers : ℕ := 8

namespace Settings

variable (cfg : Settings)

def unixfsChunk : ℕ := 262144

def maxPdfChildBlocks : ℕ := max cfg.maxChildBlocks ((cfg.maxPdfBytes + (unixfsChunk - 1)) / unixfsChunk + 8)

def childConcurrency : ℕ := max 1 cfg.childWorkers

def maxBlock : ℕ := min (max cfg.maxBytes (2 * 1048576)) (4 * 1048576)

def gatewayOrder (offset : ℕ) : List Text := cfg.gateways.rotate offset

end Settings

def sniffMin : ℕ := 4

def sniffWindow : ℕ := 4096

def deadErrors : List Text := [txt "http 404", txt "http 410", txt "http 451"]

def slowErrors : List Text :=
  [txt "timeout", txt "http 408", txt "http 425", txt "http 429", txt "http 500", txt "http 502", txt "http 503",
    txt "http 504"]

/-- How one HTTP request ends. -/
inductive Answer where
  | timeout
  | failed (kind : Text)
  | reply (status : ℕ) (body : Bytes)

/-- What the servers say to one call of `get_block_ex`: the local API, and the gateways by their place in
the order they are tried. -/
structure Answers where
  kubo : Answer
  gateway : ℕ → Answer

/-- The network, call by call. -/
abbrev Network := ℕ → Answers

/-- What the code calls outside the repository. -/
structure Host where
  py : Interpreter
  chars : Unicode
  sha256 : Bytes → Bytes

section Blocks

variable (cfg : Settings) (host : Host)

/-- `cidutil.verify_block` -/
def verifyBlock (cid : Text) (data : Bytes) : Bool :=
  match Cid.decodeCid host.chars.upper (.str cid) with
  | some parsed =>
    if parsed.mhCode = Cid.sha2_256 then host.sha256 data = parsed.digest
    else if parsed.mhCode = 0 then data = parsed.digest
    else false
  | none => false

def httpError (status : ℕ) : Text := txt "http " ++ decimal status

def checked (cid : Text) : Answer → Except Text Bytes
  | .timeout => .error (txt "timeout")
  | .failed kind => .error (txt "request: " ++ kind)
  | .reply status data =>
    if status ≠ 200 then .error (httpError status)
    else if cfg.maxBlock < data.length then .error (txt "block too large")
    else if verifyBlock host cid data then .ok data
    else .error (txt "cid mismatch")

/-- The gateways one after the other; `last` is the error so far. -/
def tryGateways (cid : Text) (gateway : ℕ → Answer) : ℕ → List Text → Option Text → Except Text Bytes
  | _, [], last => .error (last.getD (txt "unavailable"))
  | i, _ :: gateways, _ =>
    match checked cfg host cid (gateway i) with
    | .ok data => .ok data
    | .error e => tryGateways cid gateway (i + 1) gateways (some e)

def getBlockEx (answers : Answers) (cid : Text) (gatewayOffset : ℕ) : Except Text Bytes :=
  let gateways := cfg.gatewayOrder gatewayOffset
  if cfg.ipfsApi then
    match checked cfg host cid answers.kubo with
    | .ok data => .ok data
    | .error e => tryGateways cfg host cid answers.gateway 0 gateways (some e)
  else tryGateways cfg host cid answers.gateway 0 gateways none

def getBlock (answers : Answers) (cid : Text) (gatewayOffset : ℕ) : Option Bytes :=
  (getBlockEx cfg host answers cid gatewayOffset).toOption

end Blocks

/-- The bytes one child block adds to the file, and the links below it. -/
def childBytes (block : Bytes) : Bytes × List Link :=
  match parseDagPb block with
  | none => (block, [])
  | some node =>
    if node.isDirectory then ([], [])
    else if node.isFile ∧ (node.inlineData ≠ [] ∨ node.links ≠ []) then (node.inlineData, node.links)
    else (block, [])

/-- A child link, or the bytes it resolved to. -/
inductive Entry where
  | link (l : Link)
  | resolved (data : Bytes)

/-- The locals of `_assemble_file`, with the calls of `get_block` made so far. -/
structure Walk (item : Type) where
  out : Bytes
  pending : List item
  used : ℕ
  mime : Option Text
  names : List Text
  requested : List Text
  calls : ℕ

/-- How `_assemble_file` ends: the bytes and the truncation flag, or an exception, and what its two list
arguments hold then. -/
structure Assembled where
  outcome : Except Error (Bytes × Bool)
  mime : Option Text
  names : List Text
  requested : List Text
  calls : ℕ

def Walk.ended {item : Type} (w : Walk item) (outcome : Except Error (Bytes × Bool)) : Assembled :=
  ⟨outcome, w.mime, w.names, w.requested, w.calls⟩

section Assembly

variable (cfg : Settings) (host : Host) (net : Network)

/-- The calls of one wave in link order, the first one at `calls`. -/
def firstSweep (gatewayOffset : ℕ) : ℕ → List Text → List (Text × Option Bytes)
  | _, [] => []
  | calls, cid :: cids => (cid, getBlock cfg host (net calls) cid gatewayOffset) :: firstSweep gatewayOffset (calls + 1) cids

def secondSweep (gatewayOffset : ℕ) : ℕ → List (Text × Option Bytes) → List (Option Bytes) × ℕ
  | calls, [] => ([], calls)
  | calls, (_, some block) :: blocks =>
    let rest := secondSweep gatewayOffset calls blocks
    (some block :: rest.1, rest.2)
  | calls, (cid, none) :: blocks =>
    let rest := secondSweep gatewayOffset (calls + 1) blocks
    (getBlock cfg host (net calls) cid gatewayOffset :: rest.1, rest.2)

/-- `_fetch_children`: no second sweep where a whole wave of several blocks is missing. -/
def fetchChildren (gatewayOffset calls : ℕ) (cids : List Text) : List (Option Bytes) × ℕ :=
  let blocks := firstSweep cfg host net gatewayOffset calls cids
  let missing := (blocks.filter (fun b => b.2.isNone)).length
  if missing ≠ 0 ∧ ¬(missing = cids.length ∧ 1 < cids.length) then
    secondSweep cfg host net (gatewayOffset + 1) (calls + cids.length) blocks
  else (blocks.map Prod.snd, calls + cids.length)

def sniff (buf : Bytes) (names : List Text) : Except Error Text :=
  Extract.sniffMime host.py host.chars (buf.take sniffWindow) none (pickFilename host.chars names)

def pdf : Text := txt "application/pdf"

/-- The byte budget and the most child blocks once the type is known. -/
def budgetFor (mime : Text) (filesize : Option ℕ) : ℕ × ℕ :=
  if mime ≠ pdf then (cfg.maxBytes, cfg.maxChildBlocks)
  else if filesize.any (cfg.maxPdfBytes < ·) then (0, 0)
  else (cfg.maxPdfBytes, cfg.maxPdfChildBlocks)

def namesOf (links : List Link) : List Text := (links.filterMap Link.name).filter (· ≠ [])

def Walk.sniffed {item : Type} (w : Walk item) : Walk item ⊕ Assembled :=
  if sniffMin ≤ w.out.length then
    match sniff host w.out w.names with
    | .ok mime => .inl { w with mime := some mime }
    | .error e => .inr (w.ended (.error e))
  else .inl w

def Walk.follow (w : Walk Link) (l : Link) (rest : List Link) : Walk Link :=
  { w with
    pending := rest
    used := w.used + 1
    names := w.names ++ namesOf [l]
    requested := w.requested ++ [l.cid]
    calls := w.calls + 1 }

/-- One round of the loop that goes link by link until the type is known. It is left with the walk as
it stands, or with a result. -/
def serialStep (gatewayOffset : ℕ) (w : Walk Link) : Walk Link ⊕ (Walk Link ⊕ Assembled) :=
  match w.mime, w.pending with
  | none, l :: rest =>
    let followed := w.follow l rest
    match getBlock cfg host (net w.calls) l.cid gatewayOffset with
    | none => .inr (.inr (followed.ended (.ok (w.out, true))))
    | some block =>
      let child := childBytes block
      match ({ followed with out := w.out ++ child.1, pending := child.2 ++ rest } : Walk Link).sniffed host with
      | .inl w => .inl w
      | .inr a => .inr (.inr a)
  | _, _ => .inr (.inl w)

/-- The links at the head of the queue, at most `room` of them. -/
def takeWave : ℕ → List Entry → List Link × List Entry
  | room + 1, .link l :: pending =>
    let more := takeWave room pending
    (l :: more.1, more.2)
  | _, pending => ([], pending)

def entriesOf (block : Bytes) : List Entry :=
  let child := childBytes block
  if child.2 ≠ [] then child.2.map .link
  else if child.1 ≠ [] then [.resolved child.1]
  else []

def replacement : List (Option Bytes) → Option (List Entry)
  | [] => some []
  | none :: _ => none
  | some block :: blocks => (replacement blocks).map (entriesOf block ++ ·)

def flush : Bytes → List Entry → Bytes × List Entry
  | out, .resolved data :: pending => flush (out ++ data) pending
  | out, pending => (out, pending)

def waveStep (gatewayOffset budget maxBlocks : ℕ) (w : Walk Entry) : Walk Entry ⊕ (Walk Entry ⊕ Assembled) :=
  if w.pending ≠ [] ∧ w.out.length < budget ∧ w.used < maxBlocks then
    let wave := takeWave (min cfg.childConcurrency (maxBlocks - w.used)) w.pending
    if wave.1 = [] then .inr (.inl w)
    else
      let cids := wave.1.map Link.cid
      let fetched := fetchChildren cfg host net gatewayOffset w.calls cids
      let w := { w with
        names := w.names ++ namesOf wave.1
        requested := w.requested ++ cids
        used := w.used + wave.1.length
        calls := fetched.2 }
      match replacement fetched.1 with
      | none => .inr (.inr (w.ended (.ok (w.out.take budget, true))))
      | some entries =>
        let flushed := flush w.out (entries ++ wave.2)
        .inl { w with out := flushed.1, pending := flushed.2 }
  else .inr (.inl w)

def finish (budget : ℕ) (filesize : Option ℕ) (w : Walk Entry) : Bytes × Bool :=
  let data := w.out.take budget
  (data, !w.pending.isEmpty || budget < w.out.length || filesize.any (data.length < ·))

def assembleWaves (fuel : ℕ) (root : Node) (gatewayOffset : ℕ) (mime : Text) (w : Walk Link) : Option Assembled :=
  let limits := budgetFor cfg mime root.filesize
  if limits.1 < w.out.length then some (w.ended (.ok (w.out, true)))
  else
    match Loop.iterate (waveStep cfg host net gatewayOffset limits.1 limits.2) fuel
        { w with pending := w.pending.map .link } with
    | some (.inl w) => some (w.ended (.ok (finish limits.1 root.filesize w)))
    | some (.inr a) => some a
    | none => none

def assembleRest (fuel : ℕ) (root : Node) (gatewayOffset : ℕ) (w : Walk Link) : Option Assembled :=
  match w.mime.filter Extract.processable with
  | some mime => assembleWaves cfg host net fuel root gatewayOffset mime w
  | none => some (w.ended (.ok (w.out.take cfg.maxBytes, !w.pending.isEmpty)))

def started (root : Node) (calls : ℕ) (names : List Text) : Walk Link :=
  ⟨root.inlineData, root.links, 0, none, names, [], calls⟩

/-- `_assemble_file`; nothing where a loop outlives the fuel. -/
def assembleFile (fuel : ℕ) (root : Node) (gatewayOffset calls : ℕ) (names : List Text) : Option Assembled :=
  match (started root calls names).sniffed host with
  | .inr a => some a
  | .inl w =>
    if w.mime.any (fun mime => !Extract.processable mime) then
      some (w.ended (.ok (w.out.take cfg.maxBytes, false)))
    else
      match Loop.iterate (serialStep cfg host net gatewayOffset) fuel w with
      | some (.inl w) => assembleRest cfg host net fuel root gatewayOffset w
      | some (.inr a) => some a
      | none => none

end Assembly

structure FetchResult where
  ok : Bool := false
  data : Bytes := []
  codec : Text
  truncated : Bool := false
  isDirectory : Bool := false
  unixfsType : Option Text := none
  links : List Link := []
  error : Option Text := none
  dead : Bool := false
  slow : Bool := false
  mimeType : Option Text := none
  size : Option ℕ := none
  filename : Option Text := none
  deriving DecidableEq

section

variable (cfg : Settings) (host : Host) (net : Network)

/-- `cidutil.codec_of` -/
def codecOf (cid : Text) : Text :=
  ((Cid.decodeCid host.chars.upper (.str cid)).map Cid.Decoded.codec).getD (txt "unknown")

def missed (codec err : Text) : FetchResult where
  codec := codec
  error := some err
  dead := deadErrors.contains err
  slow := slowErrors.contains err

def wholeBlock (codec : Text) (block : Bytes) : FetchResult where
  ok := true
  data := block
  codec := codec
  size := some block.length

def directory (codec : Text) (node : Node) : FetchResult where
  ok := true
  codec := codec
  isDirectory := true
  unixfsType := node.unixfsType
  links := node.links
  mimeType := some (txt "inode/directory")
  size := some 0

def fileSample (codec : Text) (file : Bytes × Bool) (filename : Option Text) : FetchResult where
  ok := true
  data := file.1
  codec := codec
  truncated := file.2
  size := some file.1.length
  filename := filename

/-- `fetch_cid` -/
def fetchCid (fuel : ℕ) (cid : Text) (codec : Option Text) (attempt : ℕ) : Option (Except Error FetchResult) :=
  let codec := (codec.filter (· ≠ [])).getD (codecOf host cid)
  match getBlockEx cfg host (net 0) cid attempt with
  | .error err => some (.ok (missed codec err))
  | .ok block =>
    if codec ≠ txt "unknown" ∧ codec ≠ txt "dag-pb" then some (.ok (wholeBlock codec block))
    else
      match parseDagPb block with
      | none => some (.ok (wholeBlock codec block))
      | some node =>
        if node.isDirectory then
          some (.ok (directory codec node))
        else
          (assembleFile cfg host net fuel node attempt 1 (namesOf node.links)).map fun a =>
            a.outcome.map fun file =>
              fileSample codec file (pickFilename host.chars a.names)

end

end ObserverClub.Fetch
