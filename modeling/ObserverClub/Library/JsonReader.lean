import ObserverClub.Library.Text

/-!
A reader for JSON texts over code points. A dialect fixes what implementations differ in: the
nesting they allow, the non-finite constants, and the numbers they refuse. Strings are kept as
written, so that each implementation can give `\u` escapes its own meaning.
-/

namespace Library.Json

inductive StrUnit where
  | char (c : ℕ)
  | esc (u : ℕ)
  deriving DecidableEq

inductive Tree where
  | null
  | bool (b : Bool)
  | num (lit : Text)
  | const (name : Text)
  | str (us : List StrUnit)
  | arr (xs : List Tree)
  | obj (ms : List (List StrUnit × Tree))

inductive Error where
  | malformed
  | tooDeep
  | number
  | fuel
  deriving DecidableEq

structure Dialect where
  maxDepth : ℕ
  constants : Bool
  numberOk : Text → Bool

def isWs (c : ℕ) : Bool := c == 32 || c == 9 || c == 10 || c == 13

def skipWs (s : Text) : Text := s.dropWhile isWs

def hexValue (c : ℕ) : Option ℕ :=
  if isDigit c then some (c - 48)
  else if 97 ≤ c && c ≤ 102 then some (c - 87)
  else if 65 ≤ c && c ≤ 70 then some (c - 55)
  else none

def hex4 (a b c d : ℕ) : Option ℕ :=
  match hexValue a, hexValue b, hexValue c, hexValue d with
  | some a, some b, some c, some d => some (a * 4096 + b * 256 + c * 16 + d)
  | _, _, _, _ => none

def simpleEscape (c : ℕ) : Option ℕ :=
  if c = 34 ∨ c = 92 ∨ c = 47 then some c
  else if c = 98 then some 8
  else if c = 102 then some 12
  else if c = 110 then some 10
  else if c = 114 then some 13
  else if c = 116 then some 9
  else none

/-- The rest of a string literal after its opening quote. -/
def readString : Text → Option (List StrUnit × Text)
  | [] => none
  | 34 :: s => some ([], s)
  | 92 :: 117 :: a :: b :: c :: d :: s =>
    match hex4 a b c d, readString s with
    | some u, some (us, r) => some (.esc u :: us, r)
    | _, _ => none
  | 92 :: e :: s =>
    match simpleEscape e, readString s with
    | some c, some (us, r) => some (.char c :: us, r)
    | _, _ => none
  | c :: s =>
    if c < 32 ∨ c = 92 then none
    else match readString s with
      | some (us, r) => some (.char c :: us, r)
      | none => none

def readSign : Text → Text × Text
  | 45 :: s => ([45], s)
  | s => ([], s)

def readInt : Text → Option (Text × Text)
  | [] => none
  | c :: s =>
    if c = 48 then some ([48], s)
    else if isDigit c then some (c :: s.takeWhile isDigit, s.dropWhile isDigit)
    else none

def readDigits (s : Text) : Option (Text × Text) :=
  if s.takeWhile isDigit = [] then none else some (s.takeWhile isDigit, s.dropWhile isDigit)

def readFrac : Text → Option (Text × Text)
  | 46 :: s => (readDigits s).map (fun p => (46 :: p.1, p.2))
  | s => some ([], s)

def readExp : Text → Option (Text × Text)
  | [] => some ([], [])
  | e :: s =>
    if e = 101 ∨ e = 69 then
      match s with
      | [] => none
      | g :: t =>
        if g = 43 ∨ g = 45 then (readDigits t).map (fun p => (e :: g :: p.1, p.2))
        else (readDigits s).map (fun p => (e :: p.1, p.2))
    else some ([], e :: s)

def readNumber (s : Text) : Option (Text × Text) :=
  match readInt (readSign s).2 with
  | none => none
  | some (i, s₁) =>
    match readFrac s₁ with
    | none => none
    | some (f, s₂) =>
      match readExp s₂ with
      | none => none
      | some (e, s₃) => some ((readSign s).1 ++ i ++ f ++ e, s₃)

def stripPrefix : Text → Text → Option Text
  | [], s => some s
  | _ :: _, [] => none
  | w :: ws, c :: s => if w = c then stripPrefix ws s else none

/-- The keyword a value that starts with `c` must spell, and its value. -/
def keywordAt (d : Dialect) (c : ℕ) (s : Text) : Option (Text × Tree) :=
  if c = 116 then some (txt "true", .bool true)
  else if c = 102 then some (txt "false", .bool false)
  else if c = 110 then some (txt "null", .null)
  else if d.constants ∧ c = 78 then some (txt "NaN", .const (txt "NaN"))
  else if d.constants ∧ c = 73 then some (txt "Infinity", .const (txt "Infinity"))
  else if d.constants ∧ c = 45 ∧ s.head? = some 73 then
    some (txt "-Infinity", .const (txt "-Infinity"))
  else none

def readScalar (d : Dialect) (c : ℕ) (s : Text) : Except Error (Tree × Text) :=
  match keywordAt d c s with
  | some (w, v) =>
    match stripPrefix w (c :: s) with
    | some r => .ok (v, r)
    | none => .error .malformed
  | none =>
    match readNumber (c :: s) with
    | some (lit, r) => if d.numberOk lit then .ok (.num lit, r) else .error .number
    | none => .error .malformed

mutual

/-- One value, no blanks before it. The first counter is fuel, the second the nesting left. -/
def readValue (d : Dialect) : ℕ → ℕ → Text → Except Error (Tree × Text)
  | 0, _, _ => .error .fuel
  | _ + 1, _, [] => .error .malformed
  | f + 1, k, c :: s =>
    if c = 34 then
      match readString s with
      | some (us, r) => .ok (.str us, r)
      | none => .error .malformed
    else if c = 123 then
      match k with
      | 0 => .error .tooDeep
      | k + 1 =>
        match skipWs s with
        | [] => .error .malformed
        | c :: r =>
          if c = 125 then .ok (.obj [], r)
          else match readMembers d f k (c :: r) with
            | .ok (ms, r) => .ok (.obj ms, r)
            | .error e => .error e
    else if c = 91 then
      match k with
      | 0 => .error .tooDeep
      | k + 1 =>
        match skipWs s with
        | [] => .error .malformed
        | c :: r =>
          if c = 93 then .ok (.arr [], r)
          else match readElems d f k (c :: r) with
            | .ok (xs, r) => .ok (.arr xs, r)
            | .error e => .error e
    else readScalar d c s

def readMembers (d : Dialect) : ℕ → ℕ → Text → Except Error (List (List StrUnit × Tree) × Text)
  | 0, _, _ => .error .fuel
  | f + 1, k, s =>
    match s with
    | 34 :: s =>
      match readString s with
      | none => .error .malformed
      | some (key, s) =>
        match skipWs s with
        | 58 :: s =>
          match readValue d f k (skipWs s) with
          | .error e => .error e
          | .ok (v, s) =>
            match skipWs s with
            | 125 :: r => .ok ([(key, v)], r)
            | 44 :: s =>
              match readMembers d f k (skipWs s) with
              | .ok (ms, r) => .ok ((key, v) :: ms, r)
              | .error e => .error e
            | _ => .error .malformed
        | _ => .error .malformed
    | _ => .error .malformed

def readElems (d : Dialect) : ℕ → ℕ → Text → Except Error (List Tree × Text)
  | 0, _, _ => .error .fuel
  | f + 1, k, s =>
    match readValue d f k s with
    | .error e => .error e
    | .ok (v, s) =>
      match skipWs s with
      | 93 :: r => .ok ([v], r)
      | 44 :: s =>
        match readElems d f k (skipWs s) with
        | .ok (xs, r) => .ok (v :: xs, r)
        | .error e => .error e
      | _ => .error .malformed

end

/-- The first value of a text and what follows it; no character takes more than two units of fuel. -/
def readFirst (d : Dialect) (s : Text) : Except Error (Tree × Text) :=
  readValue d (2 * s.length + 1) d.maxDepth (skipWs s)

def readText (d : Dialect) (s : Text) : Except Error Tree :=
  match readFirst d s with
  | .ok (v, r) => if skipWs r = [] then .ok v else .error .malformed
  | .error e => .error e

end Library.Json
