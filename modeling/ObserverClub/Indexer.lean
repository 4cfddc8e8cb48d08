import ObserverClub.Fetch
import ObserverClub.Library.Trace
import ObserverClub.Store

/-!
`indexer.py`: what one worker does with one CID.
-/

namespace ObserverClub

open Library Python

namespace Extract

structure Tools where
  htmlText : Bytes → Text
  htmlLicense : Bytes → Option Text × Option Text
  pdfText : Bytes → Text × (Option Text × Option Text)
  licenseIn : Text → Option Text

/-- `normalize_license` -/
def normalizeLicense (tools : Tools) (value : Text) : Option Text :=
  if value = [] then none else tools.licenseIn (joined [32] (split value))

structure Document where
  text : Text
  mime : Text
  license : Option Text
  licenseSource : Option Text

def maxChars : ℕ := 3000

def documentOf (tools : Tools) (data : Bytes) (mime : Text) : Text × (Option Text × Option Text) :=
  if mime = txt "text/html" then (tools.htmlText data, tools.htmlLicense data)
  else if mime = txt "application/pdf" then tools.pdfText data
  else (UnixFs.decodeReplace data, (none, none))

/-- `extract_document` -/
def extractDocument (py : Interpreter) (chars : Unicode) (tools : Tools) (data : Bytes) (mime filename : Option Text) :
    Except Error Document := do
  let mime ← sniffMime py chars data mime filename
  let mime := if mime = txt "application/xhtml+xml" then txt "text/html" else mime
  if !processable mime ∨ data = [] then return ⟨[], mime, none, none⟩
  let found := documentOf tools data mime
  let text := joined [32] (split found.1)
  match found.2.1.filter (· ≠ []) with
  | some license => return ⟨text.take maxChars, mime, some license, found.2.2⟩
  | none =>
    let license := normalizeLicense tools text
    return ⟨text.take maxChars, mime, license, (license.filter (· ≠ [])).map fun _ => txt "text"⟩

end Extract

namespace Indexer

open Library.Program Sqlite Catalog Store Fetch Extract

/-- A row of the work queue as `take_batch` hands it out. -/
structure Row where
  cid : Text
  codec : Option Text
  attempts : ℕ

inductive Status where
  | discovered
  | processing
  | indexed
  | skipped
  deriving DecidableEq

/-- The columns that `work.mark` sets besides the status. -/
structure Columns where
  mimeType : Option (Option Text) := none
  size : Option Cell := none
  filename : Option (Option Text) := none
  error : Option (Option Text) := none
  lastChecked : Option ℚ := none
  attempts : Option ℕ := none

/-- What `classify.classify` reads out of the model's answer. -/
structure Meta where
  inScope : Option Bool
  academicDocument : Option Bool
  field : Text
  topic : Text
  keywords : Text
  license : Option Text
  model : Text

def Meta.fits (m : Meta) : Bool := (m.inScope.or m.academicDocument).getD false

structure Classifier where
  kind : Text
  model : Option Text
  promptVer : Text

/-- What `_publish_classify` hands to clubd. -/
structure Payload where
  mimeType : Text
  size : ℕ
  filename : Option Text
  field : Option Text
  topic : Option Text
  keywords : Option Text
  license : Option Text
  textSha256 : Text
  classifier : Classifier
  indexedAt : ℤ

/-- The calls of one `process_one` on what it shares with others: the catalog, the work queue, the network,
the classifier, the lease, and clubd. -/
inductive Action where
  | docOf (cid : Text)
  | firstClassifyOf (cid : Text)
  | peerID
  | clock
  | claimOf (cid : Text) (now : ℚ) (me : Text)
  | skipOf (cid : Text)
  | localClassified (cid me : Text)
  | needsReview (cid : Text)
  | independentPublishers (cid : Text)
  | docByHash (hash : Text)
  | classifyByHash (hash : Text)
  | forgetCid (cid : Text)
  | mark (cid : Text) (status : Status) (columns : Columns)
  | bumpAttempts (cid : Text) (attempts : ℕ)
  | noteFetch (cid : Text) (retrieved : Option ℚ)
  | enqueueDocChildren (links : List UnixFs.Link) (skipCid : Text)
  | dropDirectory (cid : Text)
  | rememberBinary (cid mime : Text)
  | fetchCid (cid : Text) (codec : Option Text) (attempt : ℕ)
  | peekHamtPdfs (links : List UnixFs.Link) (gatewayOffset : ℕ)
  | prior (text mime : Text) (filename : Option Text)
  | available
  | classify (text mime : Text) (filename codec : Option Text)
  | leaseUntil
  | setLease (until_ : ℚ)
  | acquireSlot
  | releaseSlot
  | publishClaim (cid : Text)
  | publishSkip (cid mime reason : Text)
  | publishClassify (cid : Text) (payload : Payload)

abbrev Reply : Action → Type
  | .docOf _ => Option Preferred
  | .firstClassifyOf _ => Option Preferred
  | .peerID => Option Text
  | .clock => ℚ
  | .claimOf _ _ _ => Option Claim
  | .skipOf _ => Option Skip
  | .localClassified _ _ => Bool
  | .needsReview _ => Bool
  | .independentPublishers _ => List Text
  | .docByHash _ => Option Preferred
  | .classifyByHash _ => Option Preferred
  | .enqueueDocChildren _ _ => ℕ
  | .fetchCid _ _ _ => FetchResult
  | .peekHamtPdfs _ _ => List UnixFs.Link
  | .prior _ _ _ => Option Text
  | .available => Bool
  | .classify _ _ _ _ => Option Meta
  | .leaseUntil => ℚ
  | .acquireSlot => Bool
  | .publishClaim _ => Bool
  | .publishSkip _ _ _ => Bool
  | .publishClassify _ _ => Bool
  | _ => Unit

/-- A call returns or raises. -/
abbrev Answer (a : Action) : Type := Except Error (Reply a)

/-- One worker: its interpreter and configuration, the libraries it reads documents with, and the profile of
the club. -/
structure Worker where
  observer : Observer
  digit : ℕ → Bool
  tools : Tools
  maxRetries : ℕ := 1
  maxTimeoutRetries : ℕ := 3
  claimTTL : ℚ := 120
  promptVer : Text

def Worker.chars (w : Worker) : Unicode := ⟨w.observer.upper, w.observer.lower, w.digit⟩

def likely : Text := txt "likely"

def unlikely : Text := txt "unlikely"

def scopeSkipReason : Text := txt "out_of_scope"

abbrev Proc (α : Type) : Type := Task Answer Error α

abbrev call (a : Action) : Proc (Reply a) := Program.call a

section Hook

variable (w : Worker)

/-- `store.preferred_classify` -/
def preferred (cid : Text) : Proc (Option Preferred) := do
  match ← call (.docOf cid) with
  | some row => return some row
  | none => call (.firstClassifyOf cid)

/-- `store.skip_is_live` -/
def skipIsLive (s : Skip) : Proc Bool := do
  if orEmpty s.reason ∈ persistSkipReasons ∨ w.observer.skipTtlSeconds ≤ 0 then return true
  else
    let now ← call .clock
    return now < s.receivedAt + w.observer.skipTtlSeconds

/-- `store.lookup_cid` -/
def lookupCid (cid : Text) : Proc (Option Hit) := do
  match ← preferred cid with
  | some row => return some (.classify row)
  | none =>
    let me ← call .peerID
    let now ← call .clock
    match ← call (.claimOf cid now (orEmpty me)) with
    | some claim => return some (.claim claim)
    | none =>
      match ← call (.skipOf cid) with
      | none => return none
      | some s =>
        let live ← skipIsLive w s
        return if live then some (.skip s) else none

/-- `store.local_classified` -/
def localClassified (cid : Text) : Proc Bool := do
  let me ← call .peerID
  if orEmpty me = [] then return false
  else call (.localClassified cid (orEmpty me))

/-- `store.should_second_classify` -/
def shouldSecondClassify (cid : Text) : Proc Bool := do
  let mine ← localClassified cid
  if mine then return false
  else
    let pubs ← call (.independentPublishers cid)
    return pubs.length = 1

/-- `store.must_classify` -/
def mustClassify (cid : Text) : Proc Bool := do
  let mine ← localClassified cid
  if mine then return false
  else
    let review ← call (.needsReview cid)
    if review then return true
    else shouldSecondClassify cid

/-- `store.pdf_deserves_retry` -/
def pdfDeservesRetry (s : Skip) : Bool :=
  orEmpty s.mimeType = txt "application/pdf" && orEmpty s.reason ∈ persistSkipReasons

/-- `_foreign_live_claim` -/
def foreignLiveClaim (claim : Claim) : Proc Bool := do
  let now ← call .clock
  if after claim.untilTime now then
    let me ← call .peerID
    return orEmpty me = [] ∨ claim.publisher ≠ orEmpty me
  else return false

def skippedBy (s : Skip) (now : ℚ) : Columns where
  mimeType := some s.mimeType
  error := some (some (if orEmpty s.reason = [] then txt "club_skip" else orEmpty s.reason))
  lastChecked := some now

def indexedBy (row : Preferred) : Columns where
  mimeType := some row.description.mimeType
  size := some row.description.size
  filename := some row.description.filename
  error := some none

def afterHit (cid : Text) (rerun : Bool) : Hit → Proc (Option Bool)
  | .skip s => do
    if rerun ∨ pdfDeservesRetry s then return none
    else
      let now ← call .clock
      call (.mark cid .skipped (skippedBy s now))
      return some true
  | .classify row => do
    if rerun then return none
    else
      call (.mark cid .indexed (indexedBy row))
      return some true
  | .claim claim => do
    let foreign ← foreignLiveClaim claim
    if foreign then
      call (.mark cid .discovered {})
      return some false
    else return none

def hook (cid : Text) : Proc (Option Bool) := do
  match ← lookupCid w cid with
  | none => return none
  | some hit =>
    let rerun ← mustClassify cid
    afterHit cid rerun hit

end Hook

section Stages

variable (w : Worker) (row : Row)

/-- `_try_claim` -/
def tryClaim (cid : Text) : Proc Bool := do
  let now ← call .clock
  let lease ← call .leaseUntil
  if now < lease then return false
  else
    let free ← call .acquireSlot
    if !free then return false
    else
      let ok ← call (.publishClaim cid)
      let now ← call .clock
      if ok then
        call (.setLease (now + w.claimTTL))
        return true
      else
        call (.setLease (now + 30))
        call .releaseSlot
        return false

/-- `_claim_cleared` -/
def claimCleared : Proc Unit := call (.setLease 0)

structure Sample where
  mime : Text
  size : ℕ
  filename : Option Text
  text : Text
  license : Option Text

def Sample.columns (s : Sample) (error : Option Text) : Columns where
  mimeType := some (some s.mime)
  size := some (.int s.size)
  filename := some s.filename
  error := some error

/-- `_publish_classify` -/
def publishClassify (cid : Text) (payload : Payload) : Proc Bool := do
  match payload.field.filter (· ≠ []) with
  | none => call (.publishClassify cid payload)
  | some field =>
    let field ← Task.of (normalizeField w.observer (.str field))
    call (.publishClassify cid { payload with field := some field })

/-- `_retry_later` -/
def retryLater (s : Sample) (error : Text) : Proc Bool := do
  call (.mark row.cid .discovered { s.columns (some error) with attempts := some row.attempts })
  return false

def publishFailed : Text := txt "publish_failed"

/-- `extract.fingerprint` -/
def fingerprint (text : Text) : Except Error Text := do
  return hexText (w.observer.sha256 (← encodeUtf8 text))

/-- `store.classify_by_text_hash` -/
def classifyByTextHash (fp : Text) : Proc (Option Preferred) := do
  match ← call (.docByHash fp) with
  | some doc => return some doc
  | none => call (.classifyByHash fp)

def payloadOf (s : Sample) (fp : Text) (license : Option Text) (field topic keywords : Option Text)
    (classifier : Classifier) (now : ℚ) : Payload :=
  ⟨s.mime, s.size, s.filename, field, topic, keywords, license, fp, classifier, now.num.tdiv now.den⟩

def reuseKind : Text := txt "reuse"

/-- The classify of another file with the same text, published for this one. -/
def reuse (s : Sample) (fp : Text) (found : Preferred) : Proc Bool := do
  let now ← call .clock
  let ok ← publishClassify w row.cid (payloadOf s fp s.license found.description.field found.description.topic
    found.description.keywords ⟨reuseKind, none, w.promptVer⟩ now)
  if ok then
    call (.mark row.cid .indexed (s.columns none))
    return true
  else retryLater row s publishFailed

def skipOutOfScope (s : Sample) (cleared : Proc Unit) : Proc Bool := do
  let ok ← call (.publishSkip row.cid s.mime scopeSkipReason)
  if ok then
    call (.mark row.cid .skipped (s.columns (some scopeSkipReason)))
    cleared
    return true
  else retryLater row s publishFailed

def publishVerdict (s : Sample) (fp : Text) (m : Meta) : Proc Bool := do
  let license := if orEmpty s.license = [] then m.license.bind (normalizeLicense w.tools) else s.license
  let now ← call .clock
  let ok ← publishClassify w row.cid (payloadOf s fp license (some m.field) (some m.topic) (some m.keywords)
    ⟨txt "llm", some m.model, w.promptVer⟩ now)
  if ok then
    call (.mark row.cid .indexed (s.columns none))
    claimCleared
    return true
  else retryLater row s publishFailed

def disagreed (s : Sample) (now : ℚ) : Columns :=
  { s.columns (some (txt "llm_disagreed")) with lastChecked := some now }

/-- What the model's answer leads to. -/
def verdict (s : Sample) (fp : Text) (prior : Option Text) (m : Meta) : Proc Bool := do
  if !m.fits ∧ prior = some likely then
    let now ← call .clock
    call (.mark row.cid .skipped (disagreed s now))
    claimCleared
    return true
  else if !m.fits then skipOutOfScope row s claimCleared
  else publishVerdict w row s fp m

def judge (s : Sample) (fp : Text) (prior : Option Text) : Proc Bool := do
  match ← call (.classify s.text s.mime s.filename row.codec) with
  | none => retryLater row s (txt "classify_failed")
  | some m => verdict w row s fp prior m

def releaseClaim (claimed : Bool) : Program Answer Unit :=
  if claimed then .act .releaseSlot fun _ => .done () else .done ()

def consult (s : Sample) (fp : Text) : Proc Bool := do
  let prior ← call (.prior s.text s.mime s.filename)
  if prior = some unlikely then skipOutOfScope row s (pure ())
  else
    let up ← call .available
    if !up then retryLater row s (txt "llm_down")
    else
      let claimed ← tryClaim w row.cid
      (judge w row s fp prior).ensuring (releaseClaim claimed)

def usableStage (s : Sample) : Proc Bool := do
  let fp ← Task.of (fingerprint w s.text)
  match ← classifyByTextHash fp with
  | none => consult w row s fp
  | some found =>
    let again ← mustClassify row.cid
    if again then consult w row s fp
    else reuse w row s fp found

def unusableStage (s : Sample) : Proc Bool := do
  if stickySkipMime s.mime then call (.rememberBinary row.cid s.mime)
  else call (.mark row.cid .skipped (s.columns (some (txt "unprocessable"))))
  return true

def incomplete (r : FetchResult) (now : ℚ) : Columns where
  mimeType := some (some (txt "application/pdf"))
  size := some (.int (r.size.getD r.data.length))
  filename := some r.filename
  error := some (some (txt "incomplete"))
  lastChecked := some now

def needsRest (r : FetchResult) : Except Error Bool :=
  if r.truncated then
    (sniffMime w.observer.py w.chars (r.data.take sniffWindow) r.mimeType r.filename).map needsWholeFile
  else .ok false

def documentStage (r : FetchResult) : Proc Bool := do
  let doc ← Task.of (extractDocument w.observer.py w.chars w.tools r.data r.mimeType r.filename)
  let s : Sample := ⟨doc.mime, r.size.getD r.data.length, r.filename, doc.text, doc.license⟩
  if !processable doc.mime ∨ !usableText doc.text doc.mime then unusableStage row s
  else usableStage w row s

def sampleStage (r : FetchResult) : Proc Bool := do
  let partial_ ← Task.of (needsRest w r)
  if partial_ then
    let now ← call .clock
    call (.mark row.cid .skipped (incomplete r now))
    return true
  else documentStage w row r

def givesUp (r : FetchResult) : Bool :=
  if r.dead then true
  else if r.slow then w.maxTimeoutRetries + 1 ≤ row.attempts + 1
  else w.maxRetries + 1 ≤ row.attempts + 1

def failedStage (r : FetchResult) : Proc Bool := do
  if givesUp w row r then call (.forgetCid row.cid)
  else call (.mark row.cid .discovered { error := some r.error })
  return false

def directoryStage (r : FetchResult) : Proc Bool := do
  let links ← if r.unixfsType = some (txt "hamt-shard") then call (.peekHamtPdfs r.links row.attempts) else pure r.links
  let _ ← call (.enqueueDocChildren links row.cid)
  call (.dropDirectory row.cid)
  return true

def noteFetch (r : FetchResult) : Proc Unit := do
  if r.ok then
    let now ← call .clock
    call (.noteFetch row.cid (some now))
  else call (.noteFetch row.cid none)

def fetchStage : Proc Bool := do
  call (.bumpAttempts row.cid (row.attempts + 1))
  let r ← call (.fetchCid row.cid row.codec row.attempts)
  noteFetch row r
  if r.ok ∧ (r.isDirectory ∨ r.mimeType = some (txt "inode/directory")) then directoryStage row r
  else if !r.ok then failedStage w row r
  else sampleStage w row r

/-- `process_one` -/
def processOne : Proc Bool := do
  if !Cid.valid w.observer.upper (.str row.cid) then
    call (.forgetCid row.cid)
    return true
  else
    match ← hook w row.cid with
    | some ended => return ended
    | none => fetchStage w row

end Stages

end Indexer

end ObserverClub
