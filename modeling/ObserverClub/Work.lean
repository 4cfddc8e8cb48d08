import ObserverClub.Indexer
import Mathlib.Data.List.Sort

/-!
The work queue of `work.py`, and how the sniffer's sightings get into it. Every operation runs under one
lock.
-/

namespace ObserverClub.Work

open Library Python Indexer Sqlite

structure Config where
  minAgeSeconds : ℤ := 10
  maxAgeSeconds : ℤ := 900
  minPeerCount : ℤ := 1
  preferMinPeerCount : ℤ := 2
  maxQueue : ℕ := 400
  maxDirQueue : ℕ := 40
  maxDirDocs : ℕ := 16
  maxNamed : ℕ := 80
  concurrency : ℕ := 16
  maxDirProbes : Option ℕ := none
  maxRetries : ℕ := 1
  maxTimeoutRetries : ℕ := 3
  skipTtlSeconds : ℤ := 21600

namespace Config

variable (cfg : Config)

def laneWorkers : ℕ := max 1 (cfg.concurrency / 2)

def laneCap : ℕ := max 1 (cfg.maxQueue / 2)

def dirProbes : ℕ := cfg.maxDirProbes.getD cfg.laneWorkers

def attemptCap : ℕ := max cfg.maxRetries cfg.maxTimeoutRetries + 1

def prefer : ℤ := max cfg.minPeerCount cfg.preferMinPeerCount

end Config

def sniff : Text := txt "sniff"

def report : Text := txt "report"

def named : Text := txt "named"

/-- A row of `cids`. -/
structure Queued where
  cid : Text
  codec : Text
  firstSeen : ℚ
  lastSeen : ℚ
  peerCount : ℤ
  wantCount : ℤ
  status : Status := .discovered
  attempts : ℕ := 0
  mimeType : Option Text := none
  size : Cell := .null
  filename : Option Text := none
  lastRetrieved : Option ℚ := none
  lastChecked : Option ℚ := none
  error : Option Text := none
  source : Text := sniff
  deriving DecidableEq

structure Tables where
  cids : List Queued
  peers : List (Text × Text)
  evicted : List (Text × (ℤ × ℚ))
  seenCids : List (Text × ℚ)
  unprocessable : List (Text × (Text × ℚ))
  deriving DecidableEq

def empty : Tables := ⟨[], [], [], [], []⟩

namespace Queued

variable (r : Queued)

/-- `lower(IFNULL(filename,'')) LIKE '%.ext'`, which reads no further than a NUL. -/
def hasExt (ext : Text) : Bool := ext.isSuffixOf (((r.filename.getD []).takeWhile (· ≠ 0)).map lowerAscii)

def pdfName : Bool := r.hasExt (txt ".pdf")

def htmlName : Bool := r.hasExt (txt ".html") || r.hasExt (txt ".htm")

def dagPb : Bool := r.codec = txt "dag-pb"

/-- `_KEEP_SRC` -/
def keepSrc : Bool := r.source = report || r.source = named

/-- `_PROBE_SQL` -/
def probe : Bool := r.dagPb && !r.keepSrc && !r.pdfName

/-- `_NAMED_SQL` -/
def namedLane : Bool := r.keepSrc || r.pdfName

/-- `_PDF_LANE_SQL` -/
def pdfLane : Bool := r.pdfName || r.source = named || r.dagPb

/-- `_HTML_LANE_SQL` -/
def htmlLane : Bool := !r.pdfLane

def discovered : Bool := r.status = .discovered

def processing : Bool := r.status = .processing

def live : Bool := r.discovered || r.processing

/-- `_TAKE_ORDER` -/
def takeOrder : ℕ := if r.namedLane then 0 else if r.htmlName then 1 else if r.dagPb then 2 else 3

def capOrder : ℕ := if r.dagPb && !r.pdfName then 0 else if r.codec = txt "raw" then 1 else 2

/-- `ORDER BY last_seen ASC`; ties come as `idx_cids_status` has them. -/
def seenBefore (r s : Queued) : Prop := r.lastSeen < s.lastSeen ∨ (r.lastSeen = s.lastSeen ∧ s.peerCount ≤ r.peerCount)

instance : DecidableRel seenBefore := fun _ _ => inferInstanceAs (Decidable (_ ∨ _))

def capBefore (r s : Queued) : Prop :=
  r.capOrder < s.capOrder ∨ (r.capOrder = s.capOrder ∧ (r.lastSeen < s.lastSeen ∨ (r.lastSeen = s.lastSeen ∧
    if r.status = s.status then s.peerCount ≤ r.peerCount else r.discovered)))

instance : DecidableRel capBefore := fun _ _ => inferInstanceAs (Decidable (_ ∨ _))

end Queued

abbrev Op := StateM Tables

section Rows

/-- `UPDATE cids`, with the number of rows it changed. -/
def update (p : Queued → Bool) (f : Queued → Queued) : Op ℕ := do
  let t ← get
  set { t with cids := t.cids.map fun r => if p r then f r else r }
  return t.cids.countP p

def countRows (p : Queued → Bool) : Op ℕ := do return (← get).cids.countP p

def selectRows (p : Queued → Bool) : Op (List Queued) := do return (← get).cids.filter p

def oldest (p : Queued → Bool) (n : ℕ) : Op (List Queued) := do
  let rows ← selectRows p
  return (rows.insertionSort Queued.seenBefore).take n

/-- `forget_cid` -/
def forgetCid (cid : Text) : Op Unit :=
  modify fun t => { t with
    peers := t.peers.filter fun p => p.1 ≠ cid
    cids := t.cids.filter fun r => r.cid ≠ cid }

def forgetAll : List Queued → Op ℕ
  | [] => pure 0
  | r :: rows => do
    forgetCid r.cid
    let n ← forgetAll rows
    return n + 1

def insertRow (r : Queued) : Op Unit := modify fun t => { t with cids := t.cids ++ [r] }

end Rows

section Marks

def Columns.write (c : Columns) (status : Status) (r : Queued) : Queued :=
  { r with
    status := status
    mimeType := c.mimeType.getD r.mimeType
    size := c.size.getD r.size
    filename := c.filename.getD r.filename
    error := c.error.getD r.error
    lastChecked := c.lastChecked.or r.lastChecked
    attempts := c.attempts.getD r.attempts }

def mark (cid : Text) (status : Status) (c : Columns) : Op Unit := do
  let _ ← update (fun r => r.cid = cid) (Columns.write c status)

def bumpAttempts (cid : Text) (attempts : ℕ) : Op Unit := do
  let _ ← update (fun r => r.cid = cid) fun r => { r with attempts := attempts }

def noteFetch (cid : Text) (retrieved : Option ℚ) (now : ℚ) : Op Unit := do
  let _ ← update (fun r => r.cid = cid) fun r =>
    { r with lastChecked := some now, lastRetrieved := retrieved.or r.lastRetrieved }

def rememberBinary (cid mime : Text) (now : ℚ) : Op Unit := do
  modify fun t => { t with unprocessable := Table.put Prod.fst (cid, (mime, now)) t.unprocessable }
  forgetCid cid

def dropDirectory (cid : Text) (now : ℚ) : Op Unit := do
  let t ← get
  let peers := ((Table.row? Queued.cid cid t.cids).map Queued.peerCount).getD 1
  let peers := if peers = 0 then 1 else peers
  modify fun t => { t with evicted := Table.put Prod.fst (cid, (peers, now)) t.evicted }
  forgetCid cid

end Marks

section Admission

variable (cfg : Config)

/-- What `enqueue_review` makes of the row there is. -/
def reviewed (first now : ℚ) (r : Queued) : Queued :=
  { r with
    lastSeen := now
    firstSeen := min r.firstSeen first
    source := report
    peerCount := max r.peerCount 1
    status := .discovered
    attempts := 0
    error := none }

def codecOf (upper : Text → Text) (cid : Text) : Text :=
  ((Cid.decodeCid upper (.str cid)).map Cid.Decoded.codec).getD (txt "unknown")

/-- A row for a CID that did not come from the sniffer. -/
def asked (upper : Text → Text) (cid source : Text) (filename : Option Text) (now : ℚ) : Queued where
  cid := cid
  codec := codecOf upper cid
  firstSeen := now - cfg.minAgeSeconds - 1
  lastSeen := now
  peerCount := 1
  wantCount := 1
  filename := filename
  source := source

/-- `enqueue_review`; `mine` is what `local_classified` says. -/
def enqueueReview (upper : Text → Text) (mine : Bool) (cid : Text) (now : ℚ) : Op Bool := do
  if !Cid.valid upper (.str cid) ∨ mine then return false
  else
    let n ← update (fun r => r.cid = cid) (reviewed (now - cfg.minAgeSeconds - 1) now)
    if n = 0 then insertRow (asked cfg upper cid report none now)
    return true

def pdfCanAdmit : Op Bool := do
  let pdf ← countRows fun r => r.live && r.pdfLane
  let html ← countRows fun r => r.live && r.htmlLane
  return pdf + min html cfg.laneCap < cfg.maxQueue

def htmlCanAdmit : Op Bool := do
  let pdf ← countRows fun r => r.live && r.pdfLane
  let html ← countRows fun r => r.live && r.htmlLane
  return html + min pdf cfg.laneCap < cfg.maxQueue

/-- `evict_dir_probes` -/
def evictDirProbes (n : ℕ) : Op ℕ := do
  let rows ← oldest (fun r => r.discovered && r.probe) n
  forgetAll rows

def dropNamedNonPdf : Op ℕ := do
  let rows ← selectRows fun r => r.source = named && r.discovered && !r.pdfName
  forgetAll rows

/-- `drop_lonely_raw`, which keeps the peers. -/
def dropLonelyRaw : Op ℕ := do
  if cfg.preferMinPeerCount ≤ 1 then return 0
  else
    let lonely := fun r : Queued =>
      r.discovered && !r.keepSrc && !r.dagPb && !r.pdfName && r.peerCount < cfg.preferMinPeerCount
    let rows ← selectRows lonely
    modify fun t => { t with cids := t.cids.filter fun r => r.cid ∉ rows.map Queued.cid }
    return rows.length

/-- `doc_child_links` -/
def docChildLinks (chars : Unicode) (maxN : ℕ) (links : List UnixFs.Link) : List (Text × Text) :=
  (links.filterMap fun l =>
    let base := trim isSpace (Extract.baseName (l.name.getD []))
    if l.cid = [] ∨ base = [] ∨ base = txt "." ∨ base = txt ".." ∨ 180 < base.length then none
    else if (txt ".pdf").isSuffixOf (chars.lower base) then some (base, l.cid)
    else none).take maxN

/-- The children of one directory in turn; `namedCount` of those queued are named. -/
def enqueueChildren (chars : Unicode) (catalogued : Text → Bool) (skipCid : Text) (now : ℚ) :
    ℕ → List (Text × Text) → Op ℕ
  | _, [] => pure 0
  | namedCount, (filename, cid) :: picked => do
    if cfg.maxNamed ≤ namedCount then return 0
    else
      let t ← get
      if cid = skipCid ∨ !Cid.valid chars.upper (.str cid) ∨ (t.unprocessable.lookup cid).isSome ∨ catalogued cid then
        enqueueChildren chars catalogued skipCid now namedCount picked
      else if (Table.row? Queued.cid cid t.cids).isSome then
        let _ ← update (fun r => r.cid = cid) fun r => { r with filename := r.filename.or (some filename) }
        enqueueChildren chars catalogued skipCid now namedCount picked
      else
        let room ← pdfCanAdmit cfg
        let evicted ← if room then pure 1 else evictDirProbes 1
        if evicted = 0 then return 0
        else
          insertRow (asked cfg chars.upper cid named (some filename) now)
          let n ← enqueueChildren chars catalogued skipCid now (namedCount + 1) picked
          return n + 1

def enqueueDocChildren (chars : Unicode) (catalogued : Text → Bool) (links : List UnixFs.Link) (skipCid : Text)
    (now : ℚ) : Op ℕ := do
  let picked := docChildLinks chars cfg.maxDirDocs links
  if picked = [] then return 0
  else
    let _ ← dropNamedNonPdf
    let namedCount ← countRows fun r => r.source = named && r.live
    enqueueChildren cfg chars catalogued skipCid now namedCount picked

/-- A line of the spool. -/
structure Sighting where
  cid : Text
  peer : Text
  ts : ℚ

def skipCodecs : List Text := [txt "libp2p-key", txt "json", txt "dag-json", txt "dag-cbor"]

def noteSeen (cid : Text) (ts : ℚ) : Op Unit :=
  modify fun t => { t with seenCids := Table.putNew Prod.fst (cid, ts) t.seenCids }

def notePeer (cid peer : Text) : Op Unit :=
  modify fun t => { t with peers := if (cid, peer) ∈ t.peers then t.peers else t.peers ++ [(cid, peer)] }

def peersOf (cid : Text) : Op ℕ := do return (← get).peers.countP fun p => p.1 = cid

def admits (codec : Text) (peers : ℕ) : Op Bool := do
  if codec ≠ txt "dag-pb" ∧ peers < cfg.preferMinPeerCount then return false
  else if codec = txt "dag-pb" then
    let room ← pdfCanAdmit cfg
    let probes ← countRows fun r => r.live && r.probe
    return room && probes < cfg.maxDirQueue
  else htmlCanAdmit cfg

/-- `_record` from where the peer is counted. -/
def recordPeer (s : Sighting) (codec : Text) (now : ℚ) : Op (ℕ × ℕ) := do
  notePeer s.cid s.peer
  let peers ← peersOf s.cid
  let n ← update (fun r => r.cid = s.cid) fun r =>
    { r with lastSeen := max r.lastSeen now, wantCount := r.wantCount + 1, peerCount := peers }
  if n ≠ 0 then return (1, 0)
  else
    let room ← admits cfg codec peers
    if !room then return (0, 1)
    else
      insertRow { cid := s.cid, codec := codec, firstSeen := s.ts, lastSeen := now, wantCount := peers, peerCount := peers }
      return (1, 0)

/-- `_record` of a line that has been read -/
def record (upper : Text → Text) (s : Sighting) (now : ℚ) : Op (ℕ × ℕ) := do
  let codec := codecOf upper s.cid
  let t ← get
  if !Cid.valid upper (.str s.cid) ∨ codec ∈ skipCodecs ∨ (t.unprocessable.lookup s.cid).isSome then return (0, 1)
  else
    noteSeen s.cid s.ts
    match t.evicted.lookup s.cid with
    | none => recordPeer cfg s codec now
    | some (count, _) =>
      let peers ← peersOf s.cid
      if peers + 1 ≤ count then
        notePeer s.cid s.peer
        return (0, 1)
      else
        modify fun t => { t with evicted := Table.delete Prod.fst s.cid t.evicted }
        recordPeer cfg s codec now

end Admission

section Prune

variable (cfg : Config)

/-- `expire_local_skips` -/
def expireLocalSkips (now : ℚ) : Op ℕ := do
  if cfg.skipTtlSeconds ≤ 0 then return 0
  else
    let old := fun r : Queued => r.status = .skipped && r.lastChecked.getD r.lastSeen < now - cfg.skipTtlSeconds
    let error := fun r : Queued => r.error.getD []
    let n ← update
      (fun r => old r && r.mimeType = some (txt "application/pdf") &&
        error r ∈ [txt "out_of_scope", txt "not_academic", txt "not_academic_document"])
      fun r => { r with status := .discovered, attempts := 0, error := some (txt "pdf_retry") }
    let m ← update
      (fun r => old r && error r ∈ [txt "unprocessable", txt "llm_disagreed", txt "incomplete"] &&
        !Extract.binaryMime ((r.mimeType.getD []).map lowerAscii))
      fun r => { r with status := .discovered, attempts := 0, error := some (txt "skip_expired") }
    return n + m

def stale (cutoff : ℚ) (r : Queued) : Bool := r.live && !r.keepSrc && r.lastSeen < cutoff

def dropStale (cutoff : ℚ) : Op ℕ := do
  let rows ← selectRows (stale cutoff)
  forgetAll rows

def dropLanes : Op ℕ := do
  let pdf ← countRows fun r => r.live && r.pdfLane
  let html ← countRows fun r => r.live && r.htmlLane
  let extraHtml : ℤ := html - (cfg.maxQueue - min pdf cfg.laneCap)
  let rows ← oldest (fun r => r.discovered && r.htmlLane) extraHtml.toNat
  let n ← forgetAll rows
  let html : ℤ := html - max extraHtml 0
  let extraPdf : ℤ := pdf - (cfg.maxQueue - min html cfg.laneCap)
  let rows ← oldest (fun r => r.discovered && r.probe) extraPdf.toNat
  let m ← forgetAll rows
  return n + m

def beyondCap : Op (List Queued) := do
  let live ← countRows Queued.live
  let rows ← selectRows fun r => r.live && !r.keepSrc
  return (rows.insertionSort Queued.capBefore).take (live - cfg.maxQueue)

def dropBeyondCap : Op ℕ := do
  let rows ← beyondCap cfg
  forgetAll rows

def dropProbes : Op ℕ := do
  let probes ← countRows fun r => r.live && r.probe
  let rows ← oldest (fun r => r.discovered && r.probe) (probes - cfg.maxDirQueue)
  if cfg.maxDirQueue = 0 then return 0 else forgetAll rows

/-- `prune`, which reads the clock again for the local skips. -/
def prune (now now' : ℚ) : Op ℕ := do
  let n₁ ← dropNamedNonPdf
  let n₂ ← dropLonelyRaw cfg
  let n₃ ← dropStale (now - cfg.maxAgeSeconds)
  let n₄ ← dropLanes cfg
  let n₅ ← dropBeyondCap cfg
  let n₆ ← dropProbes cfg
  let n₇ ← expireLocalSkips cfg now'
  let n₈ ← dropLonelyRaw cfg
  return n₁ + n₂ + n₃ + n₄ + n₅ + n₆ + n₈ + n₇

end Prune

section Take

variable (cfg : Config)

def takeBefore (a b : Queued) : Bool :=
  a.takeOrder < b.takeOrder ∨ (a.takeOrder = b.takeOrder ∧
    (b.peerCount < a.peerCount ∨ (a.peerCount = b.peerCount ∧ b.lastSeen ≤ a.lastSeen)))

/-- What `_select_discovered` asks of every row. -/
def ready (minPeers : ℤ) (now : ℚ) (r : Queued) : Bool :=
  r.discovered && minPeers ≤ r.peerCount && r.firstSeen ≤ now - cfg.minAgeSeconds &&
    (now - cfg.maxAgeSeconds ≤ r.lastSeen || r.keepSrc) && r.attempts < cfg.attemptCap &&
      !([txt "libp2p-key", txt "json", txt "dag-json"].contains r.codec)

/-- `_pick_one` -/
def pickOne (p : Queued → Bool) (minPeers : ℤ) (now : ℚ) : Op (Option Queued) := do
  let rows ← selectRows fun r => ready cfg minPeers now r && p r
  return (rows.insertionSort fun a b => takeBefore a b).head?

/-- `_next_pdf` -/
def nextPdf (now : ℚ) : Op (Option Queued) := do
  match ← pickOne cfg Queued.namedLane cfg.minPeerCount now with
  | some r => return some r
  | none =>
    let probes ← countRows fun r => r.processing && r.probe
    if probes < cfg.dirProbes then pickOne cfg Queued.probe cfg.minPeerCount now else return none

inductive Lane where
  | pdf
  | html

def choose (pdfBusy htmlBusy : ℕ) : Option Queued → Option Queued → Option (Queued × Lane)
  | some pdf, some html =>
    if pdfBusy < cfg.laneWorkers ∧ pdfBusy ≤ htmlBusy then some (pdf, .pdf)
    else if htmlBusy < cfg.laneWorkers then some (html, .html)
    else if pdfBusy < cfg.laneWorkers then some (pdf, .pdf)
    else none
  | some pdf, none => some (pdf, .pdf)
  | none, html => html.map (·, .html)

def process (cid : Text) : Op Unit := do
  let _ ← update (fun r => r.cid = cid) fun r => { r with status := .processing }

/-- The next row, if there is one to take, and the lane it counts for. -/
def nextRow (now : ℚ) (pdfExtra htmlExtra : ℕ) : Op (Option (Queued × Option Lane)) := do
  match ← pickOne cfg (fun r => r.source = report) cfg.minPeerCount now with
  | some r => return some (r, none)
  | none =>
    let pdfBusy ← countRows fun r => r.processing && r.pdfLane
    let htmlBusy ← countRows fun r => r.processing && r.htmlLane
    let pdf ← nextPdf cfg now
    let html ← pickOne cfg Queued.htmlLane cfg.prefer now
    return (choose cfg (pdfBusy + pdfExtra) (htmlBusy + htmlExtra) pdf html).map fun p => (p.1, some p.2)

/-- The rounds of `take_batch`; the rows of this batch are counted as busy once more. -/
def takeRounds (now : ℚ) : ℕ → ℕ → ℕ → Op (List Queued)
  | 0, _, _ => pure []
  | limit + 1, pdfExtra, htmlExtra => do
    match ← nextRow cfg now pdfExtra htmlExtra with
    | none => return []
    | some (r, lane) =>
      process r.cid
      let rows ← match lane with
        | none => takeRounds now limit pdfExtra htmlExtra
        | some .pdf => takeRounds now limit (pdfExtra + 1) htmlExtra
        | some .html => takeRounds now limit pdfExtra (htmlExtra + 1)
      return r :: rows

/-- `take_batch` -/
def takeBatch (now : ℚ) (limit : ℕ) : Op (List Row) := do
  let rows ← takeRounds cfg now limit 0 0
  return rows.map fun r => ⟨r.cid, some r.codec, r.attempts⟩

end Take

end ObserverClub.Work
