import ObserverClub.Indexer
import ObserverClub.Library.Regex

/-!
`extract.py`: how a license is recognized.
-/

namespace ObserverClub.Extract

open Library Python Regex

/-- What the Unicode database says of the characters that no license pattern names. -/
structure Alphabet where
  word : ℕ → Bool
  upper : ℕ → Text
  lower : Text → Text

/-- `İ`, `ı`, `ſ` and the Kelvin sign: `re.I` takes them for ASCII letters. -/
def lookalikes : List ℕ := [0x130, 0x131, 0x17F, 0x212A]

def blanks : List ℕ :=
  [9, 10, 11, 12, 13, 28, 29, 30, 31, 32, 0x85, 0xA0, 0x1680, 0x2000, 0x2001, 0x2002, 0x2003, 0x2004, 0x2005, 0x2006,
    0x2007, 0x2008, 0x2009, 0x200A, 0x2028, 0x2029, 0x202F, 0x205F, 0x3000]

def isSettled (c : ℕ) : Bool := c < 128 || c ∈ lookalikes || c ∈ blanks

def isSettledWord (c : ℕ) : Bool :=
  isDigit c || (65 ≤ c && c ≤ 90) || (97 ≤ c && c ≤ 122) || c == 95 || c ∈ lookalikes

def upperSettled (c : ℕ) : ℕ :=
  if 97 ≤ c ∧ c ≤ 122 then c - 32
  else if c = 0x131 then 73
  else if c = 0x17F then 83
  else c

/-- `\w` -/
def isWordChar (chars : Alphabet) (c : ℕ) : Bool := if isSettled c then isSettledWord c else chars.word c

def upperChar (chars : Alphabet) (c : ℕ) : Text := if isSettled c then [upperSettled c] else chars.upper c

/-- `text.upper()` -/
def upper (chars : Alphabet) (t : Text) : Text := t.flatMap (upperChar chars)

/-- What a character of a pattern stands for under `re.I`. -/
def anyCase (c : ℕ) : List ℕ :=
  if 97 ≤ c ∧ c ≤ 122 then
    [c, c - 32] ++ (if c = 105 then [0x130, 0x131] else if c = 107 then [0x212A] else if c = 115 then [0x17F] else [])
  else [c]

def lit (s : String) : Regex ℕ := seqs ((txt s).map fun c => .char (anyCase (lowerAscii c)))

@[simp]
theorem starless_lit (s : String) : (lit s).starless = true := by
  rw [lit, starless_seqs, List.all_map]
  exact List.all_eq_true.mpr fun _ _ => rfl

@[simp]
theorem groupless_lit (s : String) : (lit s).groupless = true := by
  rw [lit, groupless_seqs, List.all_map]
  exact List.all_eq_true.mpr fun _ _ => rfl

/-- `[-\s]` -/
def dash : Regex ℕ := .char (45 :: blanks)

/-- `[1-4]` -/
def version : Regex ℕ := .char [49, 50, 51, 52]

def ccTerms : Regex ℕ :=
  seqs [alts [seqs [lit "BY", dash, lit "NC", dash, alts [lit "SA", lit "ND"]],
      seqs [lit "BY", dash, alts [lit "SA", lit "ND"]], seqs [lit "BY", dash, lit "NC"], lit "BY"],
    .maybe (seqs [.maybe dash, alts [seqs [version, lit ".0"], version]])]

/-- `_CC_RE` -/
def ccRe : Regex ℕ := seqs [.edge, .group (seqs [lit "CC", .many blanks, ccTerms]), .edge]

def ccUrlTerms : Regex ℕ := seqs [lit "by", .maybe (lit "-nc"), .maybe (alts [lit "-nd", lit "-sa"])]

def ccUrlVersion : Regex ℕ := seqs [version, .maybe (lit ".0")]

/-- `_CC_URL_RE` -/
def ccUrlRe : Regex ℕ :=
  seqs [seqs [lit "http", .maybe (lit "s"), lit "://", .maybe (lit "www."), lit "creativecommons.org/licenses/"],
    .group ccUrlTerms, lit "/", .group ccUrlVersion, .maybe (lit "/")]

def orLater : Regex ℕ := .maybe (seqs [dash, lit "or", dash, lit "later"])

/-- `[vV]?` with a separator that may stand before it. -/
def vee : Regex ℕ := seqs [.maybe dash, .maybe (lit "v")]

def spdxNames : Regex ℕ :=
  alts [seqs [lit "Apache", .maybe dash, lit "2.0"], lit "MIT",
    seqs [lit "BSD", .maybe dash, alts [lit "2", lit "3"], dash, lit "Clause"],
    seqs [lit "GPL", vee, alts [lit "2", lit "3"], .maybe (lit ".0"), orLater],
    seqs [lit "LGPL", vee, alts [lit "2.1", lit "3"], orLater],
    seqs [lit "AGPL", vee, lit "3", .maybe (lit ".0"), orLater],
    seqs [lit "MPL", .maybe dash, lit "2.0"], seqs [lit "EPL", .maybe dash, lit "2.0"], lit "Unlicense",
    seqs [lit "CC0", .maybe (seqs [.maybe dash, lit "1.0"])]]

/-- `_SPDX_RE` -/
def spdxRe : Regex ℕ := seqs [.edge, .group spdxNames, .edge]

/-- `_ALL_RIGHTS_RE` -/
def allRightsRe : Regex ℕ :=
  seqs [.edge, lit "all", several blanks, lit "rights", several blanks, lit "reserved", .edge]

/-- `\bcreative\s+commons\b` -/
def creativeCommonsRe : Regex ℕ := seqs [.edge, lit "creative", several blanks, lit "commons", .edge]

/-- Each run of characters of a class replaced by `sub`: `inside` is whether one is going on. -/
def subRuns (p : ℕ → Bool) (sub : ℕ) : Bool → Text → Text
  | _, [] => []
  | inside, c :: s =>
    if p c then (if inside then subRuns p sub true s else sub :: subRuns p sub true s) else c :: subRuns p sub false s

/-- `sub in text` -/
def occurs (sub text : Text) : Bool := text.tails.any fun t => sub.isPrefixOf t

/-- `text.replace("-V", "-")` -/
def dropVee : Text → Text
  | 45 :: 86 :: s => 45 :: dropVee s
  | c :: s => c :: dropVee s
  | [] => []

def named (terms : Text) : Option Text :=
  if !occurs (txt "attribution") terms then none
  else
    let noDerivatives := occurs (txt "noderivatives") terms || occurs (txt "no derivatives") terms
    let shareAlike := occurs (txt "sharealike") terms || occurs (txt "share alike") terms
    if occurs (txt "noncommercial") terms || occurs (txt "non commercial") terms then
      if noDerivatives then some (txt "CC-BY-NC-ND")
      else if shareAlike then some (txt "CC-BY-NC-SA")
      else some (txt "CC-BY-NC")
    else if noDerivatives then some (txt "CC-BY-ND")
    else if shareAlike then some (txt "CC-BY-SA")
    else some (txt "CC-BY")

def find (chars : Alphabet) (r : Regex ℕ) (value : Text) : Option (Place ℕ) := r.search (isWordChar chars) value

/-- `match.group(i + 1)` -/
def groupOf (found : Place ℕ) (i : ℕ) : Text := found.groups.getD i []

/-- `_named_creative_commons` -/
def namedCreativeCommons (chars : Alphabet) (value : Text) : Option Text :=
  (find chars creativeCommonsRe value).bind fun found =>
    named (subRuns (fun c => c ∈ txt "-_/") 32 false (chars.lower (found.ahead.take 180)))

def aliases : List (Text × Text) :=
  [(txt "APACHE-2.0", txt "Apache-2.0"), (txt "MIT", txt "MIT"), (txt "BSD-2-CLAUSE", txt "BSD-2-Clause"),
    (txt "BSD-3-CLAUSE", txt "BSD-3-Clause"), (txt "MPL-2.0", txt "MPL-2.0"), (txt "EPL-2.0", txt "EPL-2.0"),
    (txt "UNLICENSE", txt "Unlicense"), (txt "CC0-1.0", txt "CC0-1.0"), (txt "CC0", txt "CC0-1.0")]

def spdxName (raw : Text) : Text := (aliases.lookup raw).getD (dropVee raw)

/-- What `normalize_license` makes of a value with single blanks. -/
def licenseIn (chars : Alphabet) (value : Text) : Option Text :=
  match find chars ccUrlRe value with
  | some found => some (txt "CC-" ++ upper chars (groupOf found 0) ++ txt "-" ++ groupOf found 1)
  | none =>
    match namedCreativeCommons chars value with
    | some name => some name
    | none =>
      match find chars ccRe value with
      | some found => some (subRuns (fun c => c ∈ 45 :: blanks) 45 false (upper chars (groupOf found 0)))
      | none =>
        match find chars spdxRe value with
        | some found => some (spdxName (upper chars (subRuns (· ∈ blanks) 45 false (groupOf found 0))))
        | none => if (find chars allRightsRe value).isSome then some (txt "All rights reserved") else none

end ObserverClub.Extract
