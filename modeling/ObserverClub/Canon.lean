import ObserverClub.Go
import ObserverClub.Python

/-!
The canonical form that signatures and payload hashes cover, as clubd (`internal/canon`) and the
observer (`protocol.py`) each compute it.
-/

namespace ObserverClub

open Library

namespace Canon

/-- `DecodeJSON`: the first value of a stream; what follows it is not looked at. -/
def decodeJSON (data : Bytes) : Option Go.Value :=
  match Json.readFirst Go.dialect (Utf8.decodeLossy data) with
  | .ok (tree, _) => some (Json.ofTree Go.reading tree)
  | .error _ => none

def stripSig (v : Go.Value) : Go.Value := v.without (txt "sig")

/-- A string value: HTML escapes of `json.Marshal` are undone. -/
def writeString (t : Text) : Bytes :=
  let b := Go.quote t
  let b := Go.replaceAll b (ascii "\\u0026") (ascii "&")
  let b := Go.replaceAll b (ascii "\\u003c") (ascii "<")
  Go.replaceAll b (ascii "\\u003e") (ascii ">")

def writer : Json.Writer Text UInt8 where
  symbol := UInt8.ofNat
  num := Utf8.encode
  str := writeString
  key := Go.quote
  arrange := Json.sortKeys Go.keyLt

def marshal (v : Go.Value) : Bytes := writer.render (stripSig v)

end Canon

namespace Protocol

open Python

def stripSig (py : Interpreter) (obj : Python.Value) : Except Error Python.Value :=
  if py.stripDepth < (obj.without (txt "sig")).depth then .error .recursionError
  else .ok (obj.without (txt "sig"))

def canonicalDumps (py : Interpreter) (obj : Python.Value) : Except Error Text := do
  dumps py true (← stripSig py obj)

def wireDumps (py : Interpreter) (obj : Python.Value) : Except Error Text := dumps py false obj

/-- The canonical text in UTF-8, as it is signed and hashed. -/
def canonicalBytes (py : Interpreter) (obj : Python.Value) : Except Error Bytes := do
  encodeUtf8 (← canonicalDumps py obj)

end Protocol

end ObserverClub
