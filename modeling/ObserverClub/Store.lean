import ObserverClub.Catalog
import ObserverClub.Library.Selection

/-!
What `store.py` does to the catalog: a message taken in, a publisher shut out or let in again, the
purges, and the lookup that the skip-hook rests on.
-/

namespace ObserverClub.Store

open Library Python Sqlite Catalog

def kinds : List Text := [txt "claim", txt "skip", txt "classify", txt "alias", txt "report"]

def reportReasons : List Text := [txt "wrong", txt "abusive", txt "clear"]

def persistSkipReasons : List Text := [txt "directory", txt "not_academic", txt "out_of_scope"]

section Ingest

variable (o : Observer)

/-- `value in choices`, for a set of strings. -/
def memberOf (choices : List Text) : Value → Except Error Bool
  | .str t => .ok (t ∈ choices)
  | .arr _ => .error .typeError
  | .obj _ => .error .typeError
  | _ => .ok false

def textOf : Value → Text
  | .str t => t
  | _ => []

def payloadHash (obj : Value) : Except Error Text := do
  return hexText (o.sha256 (← Protocol.canonicalBytes o.py obj))

def isBlacklisted (t : Tables) (publisher : Value) : Except Error Bool := do
  match ← bindText o publisher with
  | some p => return t.blacklisted.any (fun b => b.publisher = p)
  | none => return false

def otherClub (obj : Value) : Except Error Bool :=
  let msgClub := item obj "club"
  if truthy msgClub then (str o.py msgClub).map (· ≠ o.clubID) else .ok false

def otherReason (kind : Text) (obj : Value) : Except Error Bool :=
  if kind = txt "report" then (memberOf reportReasons (item obj "reason")).map not else .ok false

/-- A message about to be recorded; its `cid` and `publisher` need not be strings. -/
structure Accepted where
  kind : Text
  cid : Value
  publisher : Value
  payloadHash : Text
  body : Text

/-- The part of `ingest_message` before its first statement that writes. -/
def accept (t : Tables) (obj : Value) : Except Error (Option Accepted) := do
  let .obj _ := obj | throw .attributeError
  if !(← memberOf kinds (item obj "kind")) then return none
  let kind := textOf (item obj "kind")
  if ← otherClub o obj then return none
  let cid := either (item obj "cid") (.str [])
  let publisher := item obj "publisher"
  if !truthy publisher then return none
  if ← isBlacklisted o t publisher then return none
  if kind ≠ txt "alias" ∧ !truthy cid then return none
  if kind ≠ txt "alias" ∧ !Cid.valid o.upper cid then return none
  if ← otherReason kind obj then return none
  return some ⟨kind, cid, publisher, ← payloadHash o obj, ← Protocol.wireDumps o.py obj⟩

/-- The row of `messages`; what it stores for `cid` and `publisher` is bound the same way ever after. -/
def insertMessage (m : Accepted) (now : ℚ) : Db (Text × Text) :=
  Txn.attempt fun t => do
    let cid ← bindText o m.cid
    let publisher ← bindText o m.publisher
    let body ← bindText o (.str m.body)
    let cid ← required cid
    let publisher ← required publisher
    let body ← required body
    if (Table.row? Message.payloadHash m.payloadHash t.messages).isSome then throw .integrityError
    return ((cid, publisher),
      { t with messages := t.messages ++ [⟨m.payloadHash, m.kind, cid, publisher, body, now⟩] })

/-- `_upsert_doc` -/
def upsertDoc (cid publisher : Text) (obj : Value) (now : ℚ) : Db Unit := do
  let field ← Txn.lift (normalizeField o (item obj "field"))
  let indexedAt ← Txn.lift (timeOr (item obj "indexed_at") now)
  let known ← Txn.read
  Txn.attempt fun t => do
    return ((), insertDoc cid publisher (← bindDescription o obj field indexedAt) now t)
  if (Table.row? Doc.cid cid known.docs).isNone then
    Txn.write (indexDoc cid)
    Txn.write (addStat docsCount 1)

def dropClaims (cid : Text) (t : Tables) : Tables :=
  { t with claims := t.claims.filter (fun c => c.cid ≠ cid) }

def classifierText (obj : Value) : Except Error Text :=
  let classifier := either (item obj "classifier") (.obj [])
  if truthy classifier then Protocol.canonicalDumps o.py classifier else .ok []

/-- `_insert_classify` -/
def insertClassify (payloadHash cid publisher : Text) (obj : Value) (now : ℚ) : Db Unit := do
  let field ← Txn.lift (normalizeField o (item obj "field"))
  let classifierS ← Txn.lift (classifierText o obj)
  let indexedAt ← Txn.lift (timeOr (item obj "indexed_at") now)
  Txn.attempt fun t => do
    let description ← bindDescription o obj field indexedAt
    let classifierS ← bindText o (.str classifierS)
    let row := ⟨payloadHash, cid, publisher, description, classifierS, now⟩
    return ((), { t with classifies := Table.putNew Classify.payloadHash row t.classifies })
  Txn.write (dropClaims cid)
  upsertDoc o cid publisher obj now

def aliasName (obj : Value) : Except Error Text := do
  return joined [32] (split (← str o.py (either (item obj "alias") (.str []))))

/-- `_upsert_alias` -/
def upsertAlias (publisher payloadHash : Text) (obj : Value) (now : ℚ) : Db Unit := do
  let name ← Txn.lift (aliasName o obj)
  if name = [] then
    Txn.write fun t => { t with aliases := Table.delete Alias.publisher publisher t.aliases }
  else
    Txn.attempt fun t => do
      let stored ← required (← bindText o (.str (name.take 32)))
      return ((), { t with aliases := Table.put Alias.publisher ⟨publisher, stored, payloadHash, now⟩ t.aliases })

def insertSkip (cid publisher : Text) (obj : Value) (now : ℚ) : Db Unit := do
  Txn.attempt fun t => do
    let mimeType ← bindText o (item obj "mime_type")
    let reason ← bindText o (item obj "reason")
    return ((), { t with skips := Table.put Skip.cid ⟨cid, publisher, mimeType, reason, now⟩ t.skips })
  Txn.write (dropClaims cid)

/-- Whether a number is past a reading of the clock. -/
def after (x : Binary64) (now : ℚ) : Bool :=
  match x with
  | .fin q => now < q
  | .negZero => now < 0
  | .inf neg => !neg
  | .nan => false

def otherLease (cid publisher : Text) (now : ℚ) (t : Tables) : Bool :=
  t.claims.any (fun c => c.publisher = publisher && c.cid ≠ cid && after c.untilTime now)

def insertClaim (cid publisher : Text) (obj : Value) (now now' : ℚ) : Db Unit := do
  let untilTime ← Txn.lift (float (either (item obj "until") (.num (.int 0))))
  if after untilTime now then
    let t ← Txn.read
    if !otherLease cid publisher now' t then
      Txn.write fun t => { t with claims := Table.put Claim.publisher ⟨publisher, cid, untilTime⟩ t.claims }

def insertReport (cid publisher : Text) (obj : Value) (now : ℚ) : Db Unit :=
  if textOf (item obj "reason") = txt "clear" then
    Txn.write fun t => { t with reports := Table.delete Report.key (cid, publisher) t.reports }
  else
    Txn.write fun t =>
      { t with reports := Table.put Report.key ⟨cid, publisher, textOf (item obj "reason"), now⟩ t.reports }

/-- The readings of the clock in one call, and what `enqueue_review` ends in, where it is called. -/
structure Surroundings where
  receivedAt : ℚ
  now : ℚ
  now' : ℚ
  review : Except Error Unit

def effect (w : Surroundings) (m : Accepted) (cid publisher : Text) (obj : Value) : Db Unit :=
  if m.kind = txt "classify" then insertClassify o m.payloadHash cid publisher obj w.receivedAt
  else if m.kind = txt "alias" then upsertAlias o publisher m.payloadHash obj w.receivedAt
  else if m.kind = txt "skip" then insertSkip o cid publisher obj w.receivedAt
  else if m.kind = txt "claim" then insertClaim cid publisher obj w.now w.now'
  else insertReport cid publisher obj w.receivedAt

def asksReview (m : Accepted) (obj : Value) : Bool :=
  m.kind = txt "report" && textOf (item obj "reason") = txt "wrong"

def ingestMessage (w : Surroundings) (obj : Value) : Db Bool := do
  let t ← Txn.read
  match ← Txn.lift (accept o t obj) with
  | none => return false
  | some m =>
    match ← Txn.trying (· = .integrityError) (insertMessage o m w.receivedAt) with
    | none => return false
    | some (cid, publisher) =>
      effect o w m cid publisher obj
      Txn.commit
      if asksReview m obj then Txn.lift w.review
      return true

end Ingest

section Admin

variable (o : Observer)

def earliest : List Classify → Option Classify
  | [] => none
  | c :: cs =>
    match earliest cs with
    | none => some c
    | some d => if d.receivedAt < c.receivedAt then some d else some c

def classifiesOf (cid : Text) (t : Tables) : List Classify := t.classifies.filter (fun c => c.cid = cid)

/-- `_rebuild_doc` -/
def rebuildDoc (cid : Text) : Db Unit := do
  Txn.write (dropDoc cid)
  let t ← Txn.read
  match earliest (classifiesOf cid t) with
  | none => pure ()
  | some c => upsertDoc o cid c.publisher c.dict c.receivedAt

def rebuildDocs : List Text → Db Unit
  | [] => pure ()
  | cid :: cids => do
    rebuildDoc o cid
    rebuildDocs cids

def dropPublisher (publisher : Text) (t : Tables) : Tables :=
  { t with
    classifies := t.classifies.filter (fun r => r.publisher ≠ publisher)
    reports := t.reports.filter (fun r => r.publisher ≠ publisher)
    skips := t.skips.filter (fun r => r.publisher ≠ publisher)
    claims := t.claims.filter (fun r => r.publisher ≠ publisher)
    aliases := t.aliases.filter (fun r => r.publisher ≠ publisher)
    messages := t.messages.filter (fun r => r.publisher ≠ publisher) }

/-- The CIDs a publisher has classified or reported. The source holds them in a set, and only row ids
depend on the order it hands them out in. -/
def touchedCids (publisher : Text) (t : Tables) : List Text :=
  (((t.classifies.filter (fun r => r.publisher = publisher)).map Classify.cid ++
    (t.reports.filter (fun r => r.publisher = publisher)).map Report.cid).filter (· ≠ [])).dedup

def noteBlacklisted (publisher : Text) (now : ℚ) (t : Tables) : Tables :=
  let name := ((Table.row? Alias.publisher publisher t.aliases).map Alias.aliasName).getD []
  { t with blacklisted := Table.put Blacklisted.publisher ⟨publisher, name, now⟩ t.blacklisted }

def blacklist (me : Text) (publisher : Text) (now : ℚ) : Db Bool := do
  let publisher := trim isSpace publisher
  if publisher = [] then return false
  if publisher = me then return false
  let _ ← Txn.lift (bindText o (.str publisher))
  let cids := touchedCids publisher (← Txn.read)
  Txn.write (noteBlacklisted publisher now)
  Txn.write (dropPublisher publisher)
  rebuildDocs o cids
  Txn.commit
  return true

def unblacklist (publisher : Text) : Db Bool := do
  let publisher := trim isSpace publisher
  if publisher = [] then return false
  Txn.attempt fun t => do
    let _ ← bindText o (.str publisher)
    return ((), { t with blacklisted := Table.delete Blacklisted.publisher publisher t.blacklisted })
  Txn.commit
  return true

def purgeUnprocessableSkips : Db ℕ := do
  let cids := ((← Txn.read).skips.filter (fun s => orEmpty s.reason = txt "unprocessable")).map Skip.cid
  if cids = [] then return 0
  Txn.write fun t => { t with
    skips := t.skips.filter (fun s => s.cid ∉ cids)
    messages := t.messages.filter (fun m => ¬(m.kind = txt "skip" ∧ m.cid ∈ cids)) }
  Txn.commit
  return cids.length

def deadCids (t : Tables) : List Text :=
  ((t.classifies.map Classify.cid ++ t.skips.map Skip.cid ++ t.claims.map Claim.cid ++
    t.messages.map Message.cid).filter (fun c => c ≠ [] ∧ !Cid.valid o.upper (.str c))).dedup

def purgeCid (cid : Text) (t : Tables) : Tables :=
  let docs := t.docs.filter (fun d => d.cid = cid)
  let t := { t with
    docsFts := t.docsFts.filter (fun r => r.rowid ∉ docs.map Doc.rowid)
    classifies := t.classifies.filter (fun r => r.cid ≠ cid)
    docs := t.docs.filter (fun r => r.cid ≠ cid)
    skips := t.skips.filter (fun r => r.cid ≠ cid)
    reports := t.reports.filter (fun r => r.cid ≠ cid)
    claims := t.claims.filter (fun r => r.cid ≠ cid)
    messages := t.messages.filter (fun m => ¬(m.cid = cid ∧ m.kind ≠ txt "alias")) }
  if docs = [] then t else addStat docsCount (-1) t

def purgeInvalidCids : Db ℕ := do
  let dead := deadCids o (← Txn.read)
  if dead = [] then return 0
  Txn.write fun t => dead.foldl (fun t cid => purgeCid cid t) t
  Txn.commit
  return dead.length

/-- `expire_claims`, which reads the clock twice. -/
def expireClaims (now now' : ℚ) : Db Unit := do
  Txn.write fun t => { t with claims := t.claims.filter (fun c => after c.untilTime now) }
  if 0 < o.skipTtlSeconds then
    Txn.write fun t => { t with skips := t.skips.filter (fun s =>
      ¬(orEmpty s.reason ∉ persistSkipReasons ∧ s.receivedAt < now' - o.skipTtlSeconds)) }
  Txn.commit

end Admin

section Lookup

variable (o : Observer)

structure Preferred where
  cid : Text
  publisher : Text
  description : Description
  receivedAt : ℚ
  deriving DecidableEq

inductive Hit where
  | classify (row : Preferred)
  | claim (row : Claim)
  | skip (row : Skip)
  deriving DecidableEq

def preferredClassify (t : Tables) (cid : Text) : Option Preferred :=
  match Table.row? Doc.cid cid t.docs with
  | some d => some ⟨d.cid, d.publisher, d.description, d.receivedAt⟩
  | none => (earliest (classifiesOf cid t)).map fun c => ⟨c.cid, c.publisher, c.description, c.receivedAt⟩

def skipIsLive (now : ℚ) (s : Skip) : Bool :=
  orEmpty s.reason ∈ persistSkipReasons || o.skipTtlSeconds ≤ 0 || now < s.receivedAt + o.skipTtlSeconds

def noLater : Binary64 → Binary64 → Bool
  | .inf neg, .inf neg' => neg || !neg'
  | .inf neg, _ => neg
  | _, .inf neg => !neg
  | .fin p, .fin q => p ≤ q
  | .fin p, _ => p ≤ 0
  | _, .fin q => 0 ≤ q
  | _, _ => true

def isForeign (me : Text) (now : ℚ) (cid : Text) (c : Claim) : Bool :=
  c.cid = cid && after c.untilTime now && c.publisher ≠ me

/-- The claim of another publisher: in `idx_claims_cid` the one that ends first comes first. -/
def foreignClaim (me : Text) (now : ℚ) (t : Tables) (cid : Text) : Option Claim :=
  (Table.first (fun c d : Claim => noLater c.untilTime d.untilTime) (isForeign me now cid) 1 t.claims).head?

theorem foreignClaim_some {me : Text} {now : ℚ} {t : Tables} {cid : Text} {c : Claim} (h : foreignClaim me now t cid = some c) :
    c ∈ t.claims ∧ isForeign me now cid c = true := Table.mem_first (List.mem_of_mem_head? h)

theorem foreignClaim_eq_none {me : Text} {now : ℚ} {t : Tables} {cid : Text} :
    foreignClaim me now t cid = none ↔ ∀ c ∈ t.claims, isForeign me now cid c = false := by
  rw [foreignClaim, List.head?_eq_none_iff, ← List.length_eq_zero_iff, Table.length_first]
  constructor
  · intro h c hc
    by_contra hforeign
    have hpos := List.countP_pos_iff.mpr ⟨c, hc, Bool.of_not_eq_false hforeign⟩
    omega
  · intro h
    rw [List.countP_eq_zero.mpr fun c hc => by rw [h c hc]; exact Bool.false_ne_true, Nat.min_zero]

def lookupCid (me : Text) (now now' : ℚ) (t : Tables) (cid : Text) : Option Hit :=
  match preferredClassify t cid with
  | some row => some (.classify row)
  | none =>
    match foreignClaim me now t cid with
    | some c => some (.claim c)
    | none => ((Table.row? Skip.cid cid t.skips).filter (skipIsLive o now')).map .skip

def isAbusive (t : Tables) (cid : Text) : Bool :=
  t.reports.any (fun r => r.cid = cid && r.reason = txt "abusive")

end Lookup

end ObserverClub.Store
