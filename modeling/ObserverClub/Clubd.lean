import ObserverClub.Canon
import ObserverClub.Claims
import ObserverClub.Library.Program

/-!
The daemon of `clubd/main.go`: what it makes of a message that reaches it and of a request to publish
one. Both end in actions on state that all its goroutines share.
-/

namespace ObserverClub

open Library

namespace Go

def setItem (m : Value) (key : String) (v : Value) : Value :=
  match m with
  | .obj ms => .obj ((txt key, v) :: ms.filter (·.1 ≠ txt key))
  | m => m

def jsonWriter : Json.Writer Text UInt8 where
  symbol := UInt8.ofNat
  num := Utf8.encode
  str := quote
  key := quote
  arrange := Json.sortKeys keyLt

/-- `json.Marshal` of a decoded value -/
def jsonMarshal (v : Value) : Bytes := jsonWriter.render v

/-- `hex.DecodeString` -/
def hexDecode : Text → Option Bytes
  | [] => some []
  | [_] => none
  | c :: d :: t =>
    match Json.hexValue c, Json.hexValue d, hexDecode t with
    | some x, some y, some bs => some (UInt8.ofNat (16 * x + y) :: bs)
    | _, _, _ => none

end Go

namespace Clubd

/-- A daemon's identity, and what it takes from libp2p, go-cid and the crypto packages. -/
structure Node where
  clubID : Text
  hostID : Text
  decodePeer : Text → Option Bytes
  peerstore : Bytes → Option Bytes
  extractPublicKey : Bytes → Option Bytes
  verify : Bytes → Bytes → Bytes → Bool
  sign : Bytes → Option Bytes
  cidDecode : Text → Bool
  sha256 : Bytes → Bytes

inductive Refusal where
  | badJSON
  | notAnObject
  | missingSig
  | badSigHex
  | badPublisher
  | noPubkey
  | badSignature
  | wrongClub (club : Text)
  | invalidCid
  | badReportReason
  | rateLimited (publisher : Text)
  | claimInFlight
  | inboxWrite
  | postOnly
  | unreadableBody
  | unknownKind
  | signing
  | broadcast
deriving DecidableEq

def topicFor (kind : Text) : Text :=
  if kind ∈ [txt "claim", txt "skip", txt "classify", txt "alias", txt "report"] then kind else []

def requireContentCID (node : Node) (kind c : Text) : Except Refusal Unit :=
  if kind = txt "alias" ∨ node.cidDecode c then .ok () else .error .invalidCid

def requireReportReason (kind reason : Text) : Except Refusal Unit :=
  if kind ≠ txt "report" ∨ reason ∈ [txt "wrong", txt "abusive", txt "clear"] then .ok ()
  else .error .badReportReason

def decodeObject (data : Bytes) : Except Refusal Go.Value :=
  match Canon.decodeJSON data with
  | none => .error .badJSON
  | some (.obj ms) => .ok (.obj ms)
  | some _ => .error .notAnObject

def payloadHash (node : Node) (canonBytes : Bytes) : Text := hexText (node.sha256 canonBytes)

/-- The checks of `acceptGossip` that look at the message alone. -/
def verify (node : Node) (data : Bytes) : Except Refusal Go.Value := do
  let m ← decodeObject data
  let sigHex := Go.stringOf m "sig"
  if sigHex = [] then throw .missingSig
  let some sig := Go.hexDecode sigHex | throw .badSigHex
  let some pid := node.decodePeer (Go.stringOf m "publisher") | throw .badPublisher
  let some pk := (node.peerstore pid).or (node.extractPublicKey pid) | throw .noPubkey
  if !node.verify pk (Canon.marshal m) sig then throw .badSignature
  let club := Go.stringOf m "club"
  if club ≠ [] ∧ club ≠ node.clubID then throw (.wrongClub club)
  requireContentCID node (Go.sprint (Go.item m "kind")) (Go.stringOf m "cid")
  requireReportReason (Go.sprint (Go.item m "kind")) (Go.stringOf m "reason")
  return m

/-- The signature of the message verifies under the key of the publisher it names. -/
def Signed (node : Node) (m : Go.Value) : Prop :=
  ∃ sig pid pk, Go.hexDecode (Go.stringOf m "sig") = some sig ∧
    node.decodePeer (Go.stringOf m "publisher") = some pid ∧
    (node.peerstore pid).or (node.extractPublicKey pid) = some pk ∧ node.verify pk (Canon.marshal m) sig = true

structure Verified (node : Node) (m : Go.Value) : Prop where
  signed : Signed node m
  club : Go.stringOf m "club" = [] ∨ Go.stringOf m "club" = node.clubID
  cid : Go.sprint (Go.item m "kind") = txt "alias" ∨ node.cidDecode (Go.stringOf m "cid") = true
  reason : Go.sprint (Go.item m "kind") ≠ txt "report" ∨
    Go.stringOf m "reason" ∈ [txt "wrong", txt "abusive", txt "clear"]

theorem verify_ok {node : Node} {data : Bytes} {m : Go.Value} (h : verify node data = .ok m) :
    decodeObject data = .ok m ∧ Verified node m := by
  cases hd : decodeObject data with
  | error e => simp [verify, hd, bind, Except.bind] at h
  | ok m' =>
    simp only [verify, hd, bind, Except.bind, pure, Except.pure, throw, throwThe, MonadExceptOf.throw] at h
    by_cases hsig : Go.stringOf m' "sig" = []
    · simp [hsig] at h
    rw [if_neg hsig] at h
    cases hx : Go.hexDecode (Go.stringOf m' "sig") with
    | none => simp [hx] at h
    | some sig =>
      cases hp : node.decodePeer (Go.stringOf m' "publisher") with
      | none => simp [hx, hp] at h
      | some pid =>
        cases hk : (node.peerstore pid).or (node.extractPublicKey pid) with
        | none => simp [hx, hp, hk] at h
        | some pk =>
          simp only [hx, hp, hk, requireContentCID, requireReportReason] at h
          split_ifs at h with hv hclub hcid hreason
          obtain rfl := Except.ok.inj h
          refine ⟨rfl, ⟨sig, pid, pk, hx, hp, hk, by simpa using hv⟩, ?_, hcid, hreason⟩
          by_contra hc
          exact hclub (not_or.mp hc)

/-- A line of the inbox, with the hash of the payload it was appended for. -/
structure Entry where
  payloadHash : Text
  line : Bytes

/-- What the goroutines share, and what has been written and sent since the daemon's first start: the lines, and the
bytes of the inbox with what was written of a line when its write failed. -/
structure Daemon where
  limiter : Limit.Limiter
  claims : Claims.ClaimTracker
  inbox : List Entry
  stored : Bytes
  sent : List (Text × Bytes)

inductive Action where
  | duplicate (payloadHash : Text)
  | allow (publisher : Text)
  | applyClaimPolicy (m : Go.Value)
  | appendInbox (e : Entry)
  | broadcast (topic : Text) (payload : Bytes)

abbrev Answer (_ : Action) : Type := Bool

/-- The clock as an action reads it, and whether the world lets it succeed; of a write that fails, how many bytes are
written, or nothing where the file cannot be opened. -/
structure Reading where
  now : Time
  now' : Time
  ok : Bool
  cut : Option ℕ

def Reading.Unbroken (r : Reading) : Prop := r.ok = true ∨ r.cut.getD 0 = 0

def applyClaimPolicy (now now' : Time) (claims : Claims.ClaimTracker) (m : Go.Value) :
    Bool × Claims.ClaimTracker :=
  let kind := Go.sprint (Go.item m "kind")
  let pub := Go.stringOf m "publisher"
  let cid := Go.stringOf m "cid"
  if kind = txt "claim" then Claims.allow now now' claims pub cid (Claims.untilOf m)
  else if kind = txt "classify" ∨ kind = txt "skip" then (true, Claims.clear claims pub cid)
  else (true, claims)

def exec (a : Action) (r : Reading) (d : Daemon) : Answer a × Daemon :=
  match a with
  | .duplicate h => ((Limit.duplicate r.now d.limiter h).1, { d with limiter := (Limit.duplicate r.now d.limiter h).2 })
  | .allow p => ((Limit.allow r.now d.limiter p).1, { d with limiter := (Limit.allow r.now d.limiter p).2 })
  | .applyClaimPolicy m =>
    ((applyClaimPolicy r.now r.now' d.claims m).1, { d with claims := (applyClaimPolicy r.now r.now' d.claims m).2 })
  | .appendInbox e =>
    (r.ok, if r.ok then { d with inbox := d.inbox ++ [e], stored := d.stored ++ (e.line ++ [10]) }
      else { d with stored := d.stored ++ e.line.take (r.cut.getD 0) })
  | .broadcast topic payload => (r.ok, if r.ok then { d with sent := d.sent ++ [(topic, payload)] } else d)

/-- How a call ends; the source answers `nil` for both of the first two. -/
inductive Outcome where
  | appended
  | dropped (payloadHash : Text)
  | refused (e : Refusal)
  | published (line : Bytes)
  | failed (status : ℕ) (e : Refusal)
deriving DecidableEq

def Outcome.droppedHash : Outcome → Option Text
  | .dropped h => some h
  | _ => none

abbrev Call := Program Answer Outcome

/-- `acceptGossip` once its payload is in the set of hashes. -/
def admitRest (node : Node) (data : Bytes) (m : Go.Value) : Call :=
  .act (.applyClaimPolicy m) fun admitted =>
    if !admitted then .done (.refused .claimInFlight)
    else .act (.appendInbox ⟨payloadHash node (Canon.marshal m), data⟩) fun written =>
      .done (if written then .appended else .refused .inboxWrite)

def acceptGossip (node : Node) (data : Bytes) (rateLimit : Bool) : Call :=
  match verify node data with
  | .error e => .done (.refused e)
  | .ok m =>
    .act (.duplicate (payloadHash node (Canon.marshal m))) fun seen =>
      if seen then .done (.dropped (payloadHash node (Canon.marshal m)))
      else if rateLimit then
        .act (.allow (Go.stringOf m "publisher")) fun allowed =>
          if !allowed then .done (.refused (.rateLimited (Go.stringOf m "publisher"))) else admitRest node data m
      else admitRest node data m

structure Request where
  post : Bool
  body : Option Bytes

/-- `json.Number("1")` -/
def version : Go.Value := .num (txt "1")

/-- The checks of `handlePublish`, and the message it is to sign. -/
def prepare (node : Node) (request : Request) : Except (ℕ × Refusal) Go.Value := do
  if !request.post then throw (405, .postOnly)
  let some raw := request.body | throw (400, .unreadableBody)
  let m ← (decodeObject (raw.take (2 ^ 20))).mapError (400, ·)
  if topicFor (Go.sprint (Go.item m "kind")) = [] then throw (400, .unknownKind)
  (requireContentCID node (Go.sprint (Go.item m "kind")) (Go.stringOf m "cid")).mapError (400, ·)
  (requireReportReason (Go.sprint (Go.item m "kind")) (Go.stringOf m "reason")).mapError (400, ·)
  let m := Go.setItem m "publisher" (.str node.hostID)
  let m := Go.setItem m "v" version
  return Go.setItem m "club" (.str node.clubID)

def handlePublish (node : Node) (request : Request) : Call :=
  match prepare node request with
  | .error (status, e) => .done (.failed status e)
  | .ok m =>
    match node.sign (Canon.marshal m) with
    | none => .done (.failed 500 .signing)
    | some sig =>
      .act (.applyClaimPolicy m) fun admitted =>
        if !admitted then .done (.failed 429 .claimInFlight)
        else .act (.duplicate (payloadHash node (Canon.marshal m))) fun _ =>
          let out := Go.jsonMarshal (Go.setItem m "sig" (.str (hexText sig)))
          let kind := topicFor (Go.sprint (Go.item m "kind"))
          .act (.appendInbox ⟨payloadHash node (Canon.marshal m), out⟩) fun written =>
            if !written then .done (.failed 500 .inboxWrite)
            else .act (.broadcast kind out) fun sent =>
              .done (if sent then .published out else .failed 500 .broadcast)

/-- What can reach the daemon: a message, by gossip or as a line of a snapshot, and a request. -/
inductive Arrival where
  | gossip (data : Bytes) (rateLimit : Bool)
  | publish (request : Request)

def body (node : Node) : Arrival → Call
  | .gossip data rateLimit => acceptGossip node data rateLimit
  | .publish request => handlePublish node request

abbrev System := Threads Daemon Answer Outcome

abbrev Event := Threads.Event Arrival Reading

def step (node : Node) : System → Event → System := Threads.step (body node) exec

/-- A daemon that has just started; its inbox may hold lines from before. -/
def start (rate : ℤ) (inbox : List Entry) : System :=
  ⟨⟨Limit.new rate minute, Claims.new, inbox, inbox.flatMap fun e => e.line ++ [10], []⟩, []⟩

end Clubd

end ObserverClub
