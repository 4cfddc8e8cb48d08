import ObserverClub.Library.Base64
import ObserverClub.Library.Utf8
import ObserverClub.PythonNumbers

/-!
The optional admin password of `observer/auth.py`: the record on disk, its revision, and the session
tokens bound to that revision.
-/

namespace ObserverClub.Auth

open Library Python

abbrev Random (n : ℕ) := {b : Bytes // b.length = n}

/-- The key derivation and the message authentication code, which come from elsewhere. -/
structure Crypto where
  scrypt : Bool
  derive : Bytes → Bytes → Bytes
  derive_length : ∀ p s, (derive p s).length = 32
  hmac : Bytes → Bytes → Bytes
  hmac_length : ∀ k m, (hmac k m).length = 32

/-- What `admin.json` holds: a JSON value, something read as corrupt, or something that raises. -/
inductive Stored where
  | json (v : Value)
  | unreadable
  | raising (e : Error)

def sessionTtl : ℤ := 12 * 3600

def maxPassword : ℕ := 128

def corrupt : Value := .obj [(txt "corrupt", .bool true)]

def isRecord : Value → Bool
  | .obj ms => truthy (item (.obj ms) "hash") && truthy (item (.obj ms) "salt")
  | _ => false

def loadRecord : Option Stored → Except Error (Option Value)
  | none => .ok none
  | some (.json v) => .ok (some (if isRecord v then v else corrupt))
  | some .unreadable => .ok (some corrupt)
  | some (.raising e) => .error e

def passwordIsSet (file : Option Stored) : Except Error Bool := (loadRecord file).map Option.isSome

def revOf (record : Value) : Except Error ℤ :=
  match int (either (item record "rev") (.num (.int 1))) with
  | .error .typeError => .ok 1
  | .error .valueError => .ok 1
  | r => r

def rev (file : Option Stored) : Except Error ℤ := do
  match ← loadRecord file with
  | none => .ok 0
  | some record => if !truthy record || truthy (item record "corrupt") then .ok 0 else revOf record

def checkLength : Value → Except Error Text
  | .str t => if t = [] ∨ maxPassword < t.length then .error .valueError else .ok t
  | _ => .error .valueError

def defaultKdf (crypto : Crypto) : List (Text × Value) :=
  if crypto.scrypt then
    [(txt "kdf", .str (txt "scrypt")), (txt "n", .num (.int (2 ^ 14))), (txt "r", .num (.int 8)),
      (txt "p", .num (.int 1)), (txt "dklen", .num (.int 32))]
  else
    [(txt "kdf", .str (txt "pbkdf2_sha256")), (txt "iterations", .num (.int 600000)), (txt "dklen", .num (.int 32))]

def newRecord (crypto : Crypto) (salt digest : Bytes) (r : ℤ) : Value :=
  .obj (defaultKdf crypto ++
    [(txt "salt", .str (hexText salt)), (txt "hash", .str (hexText digest)), (txt "rev", .num (.int r))])

def decimalText (i : ℤ) : Except Error Text :=
  if (Num.int i).short then .ok (decimalInt i) else .error .valueError

def setPassword (crypto : Crypto) (password : Value) (salt : Random 16) (file : Option Stored) :
    Except Error Stored := do
  let raw ← encodeUtf8 (← checkLength password)
  let r ← rev file
  let _ ← decimalText (r + 1)
  return .json (newRecord crypto salt.1 (crypto.derive raw salt.1) (r + 1))

structure State where
  file : Option Stored
  key : Option Bytes

/-- The session key, and the state once a missing or short one has been replaced. -/
def sessionSecret (fresh : Random 32) (s : State) : Bytes × State :=
  match s.key with
  | some k => if 32 ≤ k.length then (k.take 32, s) else (fresh.1, { s with key := some fresh.1 })
  | none => (fresh.1, { s with key := some fresh.1 })

def b64e (raw : Bytes) : Text := Base64.stripPadding (Base64.encode raw)

def b64d (text : Text) : Option Bytes := Base64.decode (text ++ Base64.padding text)

def toAsciiBytes (t : Text) : Bytes := t.map UInt8.ofNat

def ofAsciiBytes (s : Bytes) : Option Text :=
  if s.all (·.toNat < 128) then some (s.map UInt8.toNat) else none

/-- `text.split(":")` -/
def splitColons (t : Text) : List Text := (records 58 t).1 ++ [(records 58 t).2]

def payloadText (exp : ℤ) (nonce : Text) (r : ℤ) : Except Error Text := do
  return (← decimalText exp) ++ 58 :: nonce ++ 58 :: (← decimalText r)

def issueSession (crypto : Crypto) (now : ℤ) (nonce : Random 16) (fresh : Random 32) (s : State) :
    Except Error (State × Text) := do
  let r ← rev s.file
  let payload := toAsciiBytes (← payloadText (now + sessionTtl) (hexText nonce.1) r)
  let (secret, s) := sessionSecret fresh s
  return (s, b64e (payload ++ crypto.hmac secret payload))

def readPayload (payload : Bytes) : Option (ℤ × ℤ) :=
  match (ofAsciiBytes payload).map splitColons with
  | some [expS, nonce, revS] =>
    if nonce = [] then none
    else match intOfText expS, intOfText revS with
      | .ok exp, .ok r => some (exp, r)
      | _, _ => none
  | _ => none

def sessionOk (crypto : Crypto) (now : ℤ) (fresh : Random 32) (s : State) (token : Text) :
    Except Error Bool :=
  if token = [] then .ok false
  else match b64d token with
    | none => .ok false
    | some raw =>
      if raw.length < 33 then .ok false
      else
        let payload := raw.take (raw.length - 32)
        if raw.drop (raw.length - 32) ≠ crypto.hmac (sessionSecret fresh s).1 payload then .ok false
        else match readPayload payload with
          | none => .ok false
          | some (exp, r) => if exp < now then .ok false else (rev s.file).map (fun cur => decide (r = cur))

/-- One call, with the randomness it draws, the clock it reads, and whether the file system lets it
finish. -/
inductive Op where
  | setPassword (password : Value) (salt : Random 16) (written : Bool)
  | clearPassword (removed : Bool)
  | issueSession (now : ℤ) (nonce : Random 16) (fresh : Random 32)

/-- A completed call, or nothing where it raises; a call that raises leaves the state as it was. -/
def step (crypto : Crypto) (s : State) : Op → Option State
  | .setPassword password salt written =>
    match setPassword crypto password salt s.file with
    | .ok file => if written then some { s with file := some file } else none
    | .error _ => none
  | .clearPassword removed => if removed then some { s with file := none } else none
  | .issueSession now nonce fresh =>
    match issueSession crypto now nonce fresh s with
    | .ok (s, _) => some s
    | .error _ => none

def run (crypto : Crypto) (s : State) (ops : List Op) : State :=
  ops.foldl (fun s op => (step crypto s op).getD s) s

end ObserverClub.Auth
