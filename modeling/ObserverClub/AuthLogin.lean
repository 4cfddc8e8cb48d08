import ObserverClub.Auth
import ObserverClub.Cid
import ObserverClub.Library.Program

/-!
The requests of `web.py` that check the admin password, and the failures that `auth.py` counts.
-/

namespace ObserverClub.Auth

open Library Python

/-- The key derivations of `hashlib`: password, salt, and the parameters in the source's order. -/
structure Hashlib where
  scrypt : Bytes → Bytes → ℤ → ℤ → ℤ → ℤ → Except Error Bytes
  pbkdf2Hmac : Bytes → Bytes → ℤ → ℤ → Except Error Bytes

def isText (v : Value) (t : Text) : Bool :=
  match v with
  | .str s => s = t
  | _ => false

/-- `_derive` -/
def derive (lib : Hashlib) (password : Text) (salt : Bytes) (params : Value) : Except Error Bytes := do
  let raw ← encodeUtf8 password
  let dklen ← int (either (item params "dklen") (.num (.int 32)))
  if isText (item params "kdf") (txt "scrypt") then
    lib.scrypt raw salt (← int (item params "n")) (← int (item params "r")) (← int (item params "p")) dklen
  else if isText (item params "kdf") (txt "pbkdf2_sha256") then
    lib.pbkdf2Hmac raw salt (← int (item params "iterations")) dklen
  else throw .valueError

def fromHex : Value → Except Error Bytes
  | .str t => ((Cid.fromHex t).map .ok).getD (.error .valueError)
  | _ => .error .typeError

def compare (lib : Hashlib) (password : Text) (record : Value) : Except Error Bool := do
  let salt ← fromHex (item record "salt")
  let expected ← fromHex (item record "hash")
  return decide ((← derive lib password salt record) = expected)

def verifyPassword (lib : Hashlib) (password : Text) (file : Option Stored) : Except Error Bool := do
  match ← loadRecord file with
  | none => return false
  | some record =>
    if truthy (item record "corrupt") then return false
    if maxPassword < password.length then return false
    match compare lib password record with
    | .error .valueError => return false
    | .error .typeError => return false
    | r => r

def isCorrupt (file : Option Stored) : Except Error Bool := do
  match ← loadRecord file with
  | none => return false
  | some record => return truthy (item record "corrupt")

def failLimit : ℕ := 5

def failWindow : ℚ := 60

inductive Endpoint where
  | login
  | change
  | clear
  deriving DecidableEq

/-- What a client has been told: that a password is wrong, or that it is logged in. -/
inductive Told where
  | wrong (time : ℚ)
  | loggedIn

/-- The admin record and the failures of each client, with the clock and what each client has been told. -/
structure Desk where
  file : Option Stored
  failures : Text → List ℚ
  clock : ℚ
  told : Text → List Told

inductive Action where
  | passwordIsSet (endpoint : Endpoint) (ip : Text)
  | isCorrupt
  | verifyPassword (endpoint : Endpoint) (ip : Text) (password : Text)
  | checkLoginRate (ip : Text)
  | recordLoginFailure (ip : Text)
  | clearLoginFailures (ip : Text)
  | setPassword (password : Text)
  | clearPassword

abbrev Answer (_ : Action) : Type := Except Error Bool

/-- How long the action took to come, the salt it draws, and whether the file system lets it write. -/
structure Reading where
  elapsed : ℚ
  elapsed_nonneg : 0 ≤ elapsed
  salt : Random 16
  written : Bool

variable (crypto : Crypto) (lib : Hashlib)

def Desk.tell (d : Desk) (ip : Text) (t : Told) : Desk :=
  { d with told := Function.update d.told ip (d.told ip ++ [t]) }

def act (a : Action) (d : Desk) (r : Reading) : Except Error Bool × Desk :=
  match a with
  | .passwordIsSet _ _ => (passwordIsSet d.file, d)
  | .isCorrupt => (isCorrupt d.file, d)
  | .verifyPassword _ ip password =>
    match verifyPassword lib password d.file with
    | .ok false => (.ok false, d.tell ip (.wrong d.clock))
    | result => (result, d)
  | .checkLoginRate ip =>
    let stamps := (d.failures ip).filter (fun t => d.clock - t < failWindow)
    (.ok (failLimit ≤ stamps.length), { d with failures := Function.update d.failures ip stamps })
  | .recordLoginFailure ip =>
    (.ok true, { d with failures := Function.update d.failures ip (d.failures ip ++ [d.clock]) })
  | .clearLoginFailures ip => (.ok true, { d with failures := Function.update d.failures ip [] }.tell ip .loggedIn)
  | .setPassword password =>
    match setPassword crypto (.str password) r.salt d.file with
    | .ok file => if r.written then (.ok true, { d with file := some file }) else (.error .sqliteError, d)
    | .error e => (.error e, d)
  | .clearPassword => if r.written then (.ok true, { d with file := none }) else (.error .sqliteError, d)

def exec (a : Action) (r : Reading) (d : Desk) : Answer a × Desk :=
  act crypto lib a { d with clock := d.clock + r.elapsed } r

/-- The status of the response. -/
abbrev Call := Program Answer ℕ

def onAnswer (next : Bool → Call) : Except Error Bool → Call
  | .ok b => next b
  | .error _ => .done 500

def ask (a : Action) (next : Bool → Call) : Call := .act a (onAnswer next)

def loginRecord (ip : Text) : Call := ask (.recordLoginFailure ip) fun _ => .done 401

def loginClear (ip : Text) : Call := ask (.clearLoginFailures ip) fun _ => .done 200

def loginVerify (ip password : Text) : Call :=
  ask (.verifyPassword .login ip password) fun right => if right then loginClear ip else loginRecord ip

def loginAsk (ip password : Text) : Call :=
  ask (.passwordIsSet .login ip) fun set => if set then loginVerify ip password else .done 400

def apiAdminLogin (ip password : Text) : Call :=
  ask (.checkLoginRate ip) fun limited => if limited then .done 429 else loginAsk ip password

def isLocalhost (ip : Text) : Bool := ip = txt "127.0.0.1" || ip = txt "::1"

/-- `set_password`, and the response; a `ValueError` is a bad request. -/
def changeTo (password : Text) : Call :=
  .act (.setPassword password) fun
    | .ok _ => .done 200
    | .error .valueError => .done 400
    | .error _ => .done 500

def apiAdminPassword (ip password current : Text) : Call :=
  ask (.passwordIsSet .change ip) fun locked =>
    ask .isCorrupt fun corrupt =>
      if locked && !(corrupt && isLocalhost ip) then
        if current = [] then .done 400
        else ask (.verifyPassword .change ip current) fun right => if right then changeTo password else .done 401
      else if !locked && !isLocalhost ip then .done 403
      else changeTo password

def apiAdminPasswordClear (ip current : Text) : Call :=
  ask (.passwordIsSet .clear ip) fun set =>
    if set then
      ask (.verifyPassword .clear ip current) fun right =>
        if right then ask .clearPassword fun _ => .done 200
        else ask .isCorrupt fun corrupt =>
          if corrupt && isLocalhost ip then ask .clearPassword fun _ => .done 200 else .done 401
    else ask .clearPassword fun _ => .done 200

inductive Request where
  | login (ip password : Text)
  | change (ip password current : Text)
  | clear (ip current : Text)

def handle : Request → Call
  | .login ip password => apiAdminLogin ip password
  | .change ip password current => apiAdminPassword ip password current
  | .clear ip current => apiAdminPasswordClear ip current

abbrev Office := Threads Desk Answer ℕ

abbrev Event := Threads.Event Request Reading

def officeStep : Office → Event → Office := Threads.step handle (exec crypto lib)

/-- A server that has just started, with whatever record is on disk. -/
def opened (file : Option Stored) (clock : ℚ) : Office := ⟨⟨file, fun _ => [], clock, fun _ => []⟩, []⟩

end ObserverClub.Auth
