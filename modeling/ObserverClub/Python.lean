import ObserverClub.Library.Binary64
import ObserverClub.Library.JsonWriter
import ObserverClub.Library.Utf8

/-!
The part of Python the observer's code rests on: JSON values as `json.loads` gives them, and the
conversions `int()`, `float()`, `str()`.
-/

namespace ObserverClub.Python

open Library

inductive Error where
  | valueError
  | typeError
  | overflowError
  | recursionError
  | attributeError
  | sqliteError
  | integrityError
  deriving DecidableEq

inductive Num where
  | int (i : ℤ)
  | float (x : Binary64)
  deriving DecidableEq

abbrev Value := Json Num

/-- How deep the interpreter's stack lets each recursive routine go, and the character classes of its
Unicode database. -/
structure Interpreter where
  loadsDepth : ℕ
  dumpsDepth : ℕ
  stripDepth : ℕ
  reprDepth : ℕ
  printable : ℕ → Bool

/-- The Unicode database behind `str.upper`, `str.lower` and `str.isdigit`. -/
structure Unicode where
  upper : Text → Text
  lower : Text → Text
  digit : ℕ → Bool

def maxStrDigits : ℕ := 4300

def zeros : List ℕ :=
  [48, 1632, 1776, 1984, 2406, 2534, 2662, 2790, 2918, 3046, 3174, 3302, 3430, 3558, 3664, 3792, 3872,
    4160, 4240, 6112, 6160, 6470, 6608, 6784, 6800, 6992, 7088, 7232, 7248, 42528, 43216, 43264, 43472,
    43504, 43600, 44016, 65296, 66720, 68912, 69734, 69872, 69942, 70096, 70384, 70736, 70864, 71248,
    71360, 71472, 71904, 72016, 72784, 73040, 73120, 92768, 92864, 93008, 120782, 120792, 120802,
    120812, 120822, 123200, 123632, 125264, 130032]

def isSpace (c : ℕ) : Bool :=
  (9 ≤ c && c ≤ 13) || (28 ≤ c && c ≤ 32) || c == 0x85 || c == 0xA0 || c == 0x1680 ||
    (0x2000 ≤ c && c ≤ 0x200A) || c == 0x2028 || c == 0x2029 || c == 0x202F || c == 0x205F || c == 0x3000

def toAscii (c : ℕ) : ℕ :=
  if c < 128 then c
  else if isSpace c then 32
  else match zeros.find? (fun z => z ≤ c && c < z + 10) with
    | some z => 48 + (c - z)
    | none => 63

def isSpaceAscii (c : ℕ) : Bool := (9 ≤ c && c ≤ 13) || c == 32

def digitGroups : Text → Option Text
  | [] => none
  | [c] => if isDigit c then some [c] else none
  | c :: 95 :: s => if isDigit c then (digitGroups s).map (c :: ·) else none
  | c :: s => if isDigit c then (digitGroups s).map (c :: ·) else none

def splitSign : Text → Bool × Text
  | 43 :: s => (false, s)
  | 45 :: s => (true, s)
  | s => (false, s)

def intOfText (t : Text) : Except Error ℤ :=
  let s := splitSign (trim isSpaceAscii (t.map toAscii))
  match digitGroups s.2 with
  | some ds =>
    if maxStrDigits < ds.length then .error .valueError
    else .ok (if s.1 then -(digitsValue ds : ℤ) else digitsValue ds)
  | none => .error .valueError

/-- The value of digits `i`, fraction digits `f` and exponent `e`. -/
def scaled (i f : Text) (e : ℤ) : ℚ := digitsValue (i ++ f) * Binary64.power 10 (e - f.length)

def exponentOf (t : Text) : Option ℤ :=
  match t with
  | [] => some 0
  | _ :: s => (digitGroups (splitSign s).2).map fun ds =>
      if (splitSign s).1 then -(digitsValue ds : ℤ) else digitsValue ds

def magnitudeOf (t : Text) : Option (Text × Text) :=
  let i := t.takeWhile (fun c => isDigit c || c == 95)
  match t.dropWhile (fun c => isDigit c || c == 95) with
  | [] => (digitGroups i).map (·, [])
  | 46 :: f =>
    if f = [] then (digitGroups i).map (·, [])
    else if i = [] then (digitGroups f).map ([], ·)
    else match digitGroups i, digitGroups f with
      | some i, some f => some (i, f)
      | _, _ => none
  | _ => none

def lowerAscii (c : ℕ) : ℕ := if 65 ≤ c ∧ c ≤ 90 then c + 32 else c

def floatOfText (t : Text) : Except Error Binary64 :=
  let s := splitSign (trim isSpaceAscii (t.map toAscii))
  let u := s.2.map lowerAscii
  if u = txt "inf" ∨ u = txt "infinity" then .ok (.inf s.1)
  else if u = txt "nan" then .ok .nan
  else
    match magnitudeOf (u.takeWhile (· ≠ 101)), exponentOf (u.dropWhile (· ≠ 101)) with
    | some (i, f), some e => .ok (Binary64.round s.1 (scaled i f e))
    | _, _ => .error .valueError

/-- A number as `json` scans it: an integer unless there is a fraction or an exponent. -/
def isFloat (lit : Text) : Bool := lit.any (fun c => c == 46 || c == 101 || c == 69)

def numberOf (lit : Text) : Num :=
  if isFloat lit then .float ((floatOfText lit).toOption.getD .nan)
  else .int ((intOfText lit).toOption.getD 0)

def constantOf (name : Text) : Num :=
  if name = txt "NaN" then .float .nan else .float (.inf (name = txt "-Infinity"))

def reading : Json.Reading Num := ⟨Json.unescape id, numberOf, constantOf⟩

section

variable (py : Interpreter)

def dialect : Json.Dialect :=
  ⟨py.loadsDepth, true, fun lit => isFloat lit || (lit.filter isDigit).length ≤ maxStrDigits⟩

/-- `json.loads` -/
def loads (t : Text) : Except Error Value :=
  match Json.readText (dialect py) t with
  | .ok tree => .ok (Json.ofTree reading tree)
  | .error .tooDeep => .error .recursionError
  | .error _ => .error .valueError

/-- `json.loads(line.decode("utf-8"))` -/
def loadsBytes (s : Bytes) : Except Error Value :=
  match Utf8.decode s with
  | some t => loads py t
  | none => .error .valueError

def quoteChar (c : ℕ) : Text := (Json.basicEscape c).getD [c]

def quote (t : Text) : Text := 34 :: t.flatMap quoteChar ++ [34]

def floatText (x : Binary64) : Text :=
  match x with
  | .nan => txt "NaN"
  | .inf neg => if neg then txt "-Infinity" else txt "Infinity"
  | x => x.repr

def numText : Num → Text
  | .int i => decimalInt i
  | .float x => floatText x

/-- `json.dumps` with compact separators and `ensure_ascii=False` -/
def writer (sortKeys : Bool) : Json.Writer Num ℕ where
  symbol := id
  num := numText
  str := quote
  key := quote
  arrange := if sortKeys then Json.sortKeys (· < ·) else id

def Num.short : Num → Bool
  | .int i => (decimal i.natAbs).length ≤ maxStrDigits
  | .float _ => true

def dumps (sortKeys : Bool) (v : Value) : Except Error Text :=
  if py.dumpsDepth < v.depth then .error .recursionError
  else if v.all ⟨Num.short, fun _ => true, fun _ => true⟩ then .ok ((writer sortKeys).render v)
  else .error .valueError

def isSurrogate (c : ℕ) : Bool := 0xD800 ≤ c && c < 0xE000

/-- `text.encode("utf-8")` -/
def encodeUtf8 (t : Text) : Except Error Bytes :=
  if t.any isSurrogate then .error .valueError else .ok (Utf8.encode t)

def truthy : Value → Bool
  | .null => false
  | .bool b => b
  | .num (.int i) => i ≠ 0
  | .num (.float x) => !x.isZero
  | .str t => t ≠ []
  | .arr xs => !xs.isEmpty
  | .obj ms => !ms.isEmpty

/-- `d.get(key)`, with `None` for a missing key. -/
def item (d : Value) (key : String) : Value := (d.get (txt key)).getD .null

/-- `x or y` -/
def either (x y : Value) : Value := if truthy x then x else y

/-- `int(x)` -/
def int : Value → Except Error ℤ
  | .bool b => .ok (if b then 1 else 0)
  | .num (.int i) => .ok i
  | .num (.float (.fin q)) => .ok (if q < 0 then q.ceil else q.floor)
  | .num (.float .negZero) => .ok 0
  | .num (.float (.inf _)) => .error .overflowError
  | .num (.float .nan) => .error .valueError
  | .str t => intOfText t
  | _ => .error .typeError

/-- `float(x)` -/
def float : Value → Except Error Binary64
  | .bool b => .ok (.fin (if b then 1 else 0))
  | .num (.int i) =>
    match Binary64.ofInt i with
    | .inf _ => .error .overflowError
    | x => .ok x
  | .num (.float x) => .ok x
  | .str t => floatOfText t
  | _ => .error .typeError

def escapeChar (c : ℕ) : Text :=
  let hex := fun w => (List.range w).reverse.map (fun i => hexDigit (c / 16 ^ i % 16))
  if c = 10 then [92, 110]
  else if c = 13 then [92, 114]
  else if c = 9 then [92, 116]
  else if c < 0x100 then [92, 120] ++ hex 2
  else if c < 0x10000 then [92, 117] ++ hex 4
  else [92, 85] ++ hex 8

/-- `repr` of a string: single quotes unless only they occur in it. -/
def reprText (t : Text) : Text :=
  let q := if 39 ∈ t ∧ 34 ∉ t then 34 else 39
  let char := fun c =>
    if c = q ∨ c = 92 then [92, c] else if py.printable c then [c] else escapeChar c
  q :: t.flatMap char ++ [q]

def reprNum : Num → Text
  | .int i => decimalInt i
  | .float x => x.repr

def joined (sep : Text) : List Text → Text
  | [] => []
  | [p] => p
  | p :: ps => p ++ sep ++ joined sep ps

mutual

def repr : Value → Text
  | .null => txt "None"
  | .bool b => if b then txt "True" else txt "False"
  | .num n => reprNum n
  | .str t => reprText py t
  | .arr xs => [91] ++ joined (txt ", ") (reprList xs) ++ [93]
  | .obj ms => [123] ++ joined (txt ", ") (reprMembers ms) ++ [125]

def reprList : List Value → List Text
  | [] => []
  | x :: xs => repr x :: reprList xs

def reprMembers : List (Text × Value) → List Text
  | [] => []
  | (k, v) :: ms => (reprText py k ++ txt ": " ++ repr v) :: reprMembers ms

end

/-- `str(x)` -/
def str : Value → Except Error Text
  | .str t => .ok t
  | v =>
    if py.reprDepth < v.depth then .error .recursionError
    else if v.all ⟨Num.short, fun _ => true, fun _ => true⟩ then .ok (repr py v)
    else .error .valueError

end

/-- `text.split()`: the words between blanks. -/
def wordsFrom : Text → Text → List Text
  | w, [] => if w = [] then [] else [w]
  | w, c :: s =>
    if isSpace c then (if w = [] then wordsFrom [] s else w :: wordsFrom [] s) else wordsFrom (w ++ [c]) s

def split (t : Text) : List Text := wordsFrom [] t

end ObserverClub.Python
