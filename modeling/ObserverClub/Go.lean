import ObserverClub.Library.JsonWriter
import ObserverClub.Library.Utf8

/-!
The part of Go the daemon's code rests on: JSON values decoded with `UseNumber`, the bytes
`json.Marshal` makes of a string, and `fmt.Sprint`.
-/

namespace ObserverClub.Go

open Library

/-- A decoded value; a number is its literal. -/
abbrev Value := Json Text

def maxNestingDepth : ℕ := 10000

def dialect : Json.Dialect := ⟨maxNestingDepth, false, fun _ => true⟩

def reading : Json.Reading Text := ⟨Json.unescape (fun _ => 0xFFFD), id, id⟩

def asciiBytes (t : Text) : Bytes := t.map UInt8.ofNat

def quoteChar (c : ℕ) : Bytes :=
  match Json.basicEscape c with
  | some e => asciiBytes e
  | none =>
    if c = 38 ∨ c = 60 ∨ c = 62 ∨ c = 0x2028 ∨ c = 0x2029 then asciiBytes (Json.hexEscape c)
    else Utf8.encodeRune c

/-- `json.Marshal` of a string -/
def quote (t : Text) : Bytes := 34 :: t.flatMap quoteChar ++ [34]

/-- Replaces each occurrence of `pat`, left to right; the counter skips one already replaced. -/
def replaceFrom (pat rep : Bytes) : ℕ → Bytes → Bytes
  | _, [] => []
  | k + 1, _ :: s => replaceFrom pat rep k s
  | 0, b :: s =>
    if pat.isPrefixOf (b :: s) then rep ++ replaceFrom pat rep (pat.length - 1) s
    else b :: replaceFrom pat rep 0 s

/-- `bytes.ReplaceAll` with a pattern that is not empty -/
def replaceAll (s pat rep : Bytes) : Bytes := replaceFrom pat rep 0 s

/-- The order of `sort.Strings`: by the bytes. -/
def keyLt (a b : Text) : Prop := Utf8.encode a < Utf8.encode b

instance : DecidableRel keyLt := fun a b => inferInstanceAs (Decidable (Utf8.encode a < Utf8.encode b))

def spaced : List Text → Text
  | [] => []
  | [p] => p
  | p :: ps => p ++ 32 :: spaced ps

mutual

/-- `fmt.Sprint` of a decoded value -/
def sprint : Value → Text
  | .null => txt "<nil>"
  | .bool b => if b then txt "true" else txt "false"
  | .num lit => lit
  | .str t => t
  | .arr xs => 91 :: spaced (sprintList xs) ++ [93]
  | .obj ms =>
    txt "map[" ++ spaced ((Json.sortKeys keyLt (sprintMembers ms)).map (fun m => m.1 ++ 58 :: m.2)) ++ [93]

def sprintList : List Value → List Text
  | [] => []
  | x :: xs => sprint x :: sprintList xs

def sprintMembers : List (Text × Value) → List (Text × Text)
  | [] => []
  | (k, v) :: ms => (k, sprint v) :: sprintMembers ms

end

/-- `m[key]`, with `nil` for a missing key -/
def item (m : Value) (key : String) : Value := (m.get (txt key)).getD .null

end ObserverClub.Go
