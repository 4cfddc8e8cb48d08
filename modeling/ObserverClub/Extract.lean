import ObserverClub.Python

/-!
`extract.py`: what a sample of bytes is taken to be.
-/

namespace ObserverClub.Extract

open Library Python

def magic : List (Bytes × Text) :=
  [(ascii "%PDF", txt "application/pdf"), (0x89 :: ascii "PNG", txt "image/png"), ([0xFF, 0xD8, 0xFF], txt "image/jpeg"),
    (ascii "GIF8", txt "image/gif"), (ascii "RIFF", txt "application/riff"),
    (ascii "PK" ++ [3, 4], txt "application/zip"), ([0x1F, 0x8B], txt "application/gzip"),
    (ascii "7z" ++ [0xBC, 0xAF], txt "application/x-7z-compressed"), (ascii "Rar!", txt "application/vnd.rar"),
    ([0, 0, 0, 0x18] ++ ascii "ftyp", txt "video/mp4"), ([0, 0, 0, 0x1C] ++ ascii "ftyp", txt "video/mp4"),
    ([0, 0, 0] ++ ascii " ftyp", txt "video/mp4"), (ascii "OggS", txt "audio/ogg"), (ascii "ID3", txt "audio/mpeg"),
    (ascii "fLaC", txt "audio/flac"), ([0x1A, 0x45, 0xDF, 0xA3], txt "video/webm"),
    (ascii "CAR" ++ [1], txt "application/vnd.ipld.car")]

def riffTypes : List (Bytes × Text) :=
  [(ascii "WEBP", txt "image/webp"), (ascii "AVI ", txt "video/x-msvideo"), (ascii "WAVE", txt "audio/wav")]

def processableExact : List Text := [txt "text/html", txt "application/pdf"]

def sourceMimes : List Text :=
  [txt "text/css", txt "text/javascript", txt "application/javascript", txt "application/x-javascript",
    txt "application/ecmascript"]

def sourceExt : List (Text × Text) :=
  [(txt ".css", txt "text/css"), (txt ".js", txt "application/javascript"), (txt ".mjs", txt "application/javascript"),
    (txt ".cjs", txt "application/javascript"), (txt ".ts", txt "application/javascript"),
    (txt ".jsx", txt "application/javascript"), (txt ".tsx", txt "application/javascript"), (txt ".less", txt "text/css"),
    (txt ".scss", txt "text/css"), (txt ".map", txt "application/json"), (txt ".wasm", txt "application/wasm")]

def webpackMarkers : List Bytes :=
  [ascii "webpackJsonp", ascii "webpackChunk", ascii "__webpack", ascii "__WEBPACK"]

/-- `name.replace("\\", "/").rsplit("/", 1)[-1]` -/
def baseName (name : Text) : Text :=
  ((name.map (fun c => if c = 92 then 47 else c)).reverse.takeWhile (· ≠ 47)).reverse

def filenameExtMime (chars : Unicode) (filename : Option Text) : Option Text :=
  let name := chars.lower (baseName (filename.getD []))
  (sourceExt.find? (fun e => e.1.isSuffixOf name)).map Prod.snd

/-- Blanks as `bytes.lstrip()` and `\s` see them. -/
def isBlank (b : UInt8) : Bool := (9 ≤ b && b ≤ 13) || b == 32

/-- `sub in s` -/
def within (sub s : Bytes) : Bool := s.tails.any (fun t => sub.isPrefixOf t)

def lowerByte (b : UInt8) : UInt8 := if 65 ≤ b ∧ b ≤ 90 then b + 32 else b

def isWord (b : UInt8) : Bool :=
  (65 ≤ b && b ≤ 90) || (97 ≤ b && b ≤ 122) || (48 ≤ b && b ≤ 57) || b == 95

/-- `\b` after a word character -/
def wordEnds : Bytes → Bool
  | [] => true
  | b :: _ => !isWord b

/-- `\s+[^{]+\x7b`: blanks, then something, up to the next opening brace. -/
def mediaQuery (s : Bytes) : Bool :=
  let block := s.takeWhile (· ≠ 123)
  s.head?.any isBlank && 2 ≤ block.length && block.length < s.length

/-- `\s+(?:url\(|['"])` -/
def importTarget (s : Bytes) : Bool :=
  let target := s.dropWhile isBlank
  s.head?.any isBlank && ((ascii "url(").isPrefixOf target || target.head?.any (fun b => b == 39 || b == 34))

def cssAt (s : Bytes) : Bool :=
  ((ascii "@keyframes").isPrefixOf s && wordEnds (s.drop 10)) ||
    ((ascii "@media").isPrefixOf s && mediaQuery (s.drop 6)) ||
    ((ascii "@font-face").isPrefixOf s && wordEnds (s.drop 10)) ||
    ((ascii "@import").isPrefixOf s && importTarget (s.drop 7))

def sniffSource (data : Bytes) : Option Text :=
  let sample := data.take 4096
  if webpackMarkers.any (fun marker => within marker sample) then some (txt "application/javascript")
  else if (sample.map lowerByte).tails.any cssAt then some (txt "text/css")
  else if 8 ≤ sample.count 123 ∧ 15 ≤ sample.count 59 ∧ sample.count 32 * 25 ≤ sample.length * 3 then
    some (txt "application/javascript")
  else none

def looksLikeHtml (data : Bytes) : Bool :=
  let head := (data.take 2048).dropWhile isBlank
  [ascii "<!DOCTYPE", ascii "<!doctype", ascii "<html", ascii "<HTML", ascii "<?xml"].any (fun p => p.isPrefixOf head) &&
    within (ascii "<html") ((data.take 2048).map lowerByte)

/-- Whether the sample is a JSON text. Nesting past the interpreter's limit is not caught. -/
def looksLikeJson (py : Interpreter) (data : Bytes) : Except Error Bool :=
  let head := (data.take 2048).dropWhile isBlank
  if head.head?.any (fun b => b == 123 || b == 91) then
    match loadsBytes py data with
    | .ok _ => .ok true
    | .error .valueError => .ok false
    | .error e => .error e
  else .ok false

def looksLikeText (data : Bytes) : Bool :=
  let sample := data.take 4096
  (Utf8.decode sample).isSome && sample ≠ [] && 100 * sample.countP (· < 9) < sample.length

def octetStream : Text := txt "application/octet-stream"

def sniffRest (data : Bytes) (header : Option Text) : Text :=
  match sniffSource data with
  | some source => source
  | none =>
    let header := header.getD []
    if header ≠ [] ∧ header ≠ octetStream then header
    else if looksLikeText data then txt "text/plain"
    else if header = [] then octetStream
    else header

def sniffRiff (data : Bytes) : Option Text :=
  if (ascii "RIFF").isPrefixOf data ∧ 12 ≤ data.length then
    (riffTypes.find? (fun t => t.1 = (data.drop 8).take 4)).map Prod.snd
  else none

def sniffMagic (data : Bytes) : Option Text := (magic.find? (fun m => m.1.isPrefixOf data)).map Prod.snd

def sniffMime (py : Interpreter) (chars : Unicode) (data : Bytes) (header filename : Option Text) : Except Error Text := do
  let header := if header = some (txt "application/xhtml+xml") then some (txt "text/html") else header
  if let some named := filenameExtMime chars filename then return named
  if let some sub := sniffRiff data then return sub
  if let some mime := sniffMagic data then return mime
  if looksLikeHtml data then return txt "text/html"
  if ← looksLikeJson py data then return txt "application/json"
  return sniffRest data header

def binaryMime (mime : Text) : Bool :=
  [txt "image/", txt "video/", txt "audio/"].any (fun p => p.isPrefixOf mime)

def sourceMime (mime : Text) : Bool := sourceMimes.contains mime

def stickySkipMime (mime : Text) : Bool := binaryMime mime || sourceMime mime

def processable (mime : Text) : Bool := mime ≠ [] && !stickySkipMime mime && processableExact.contains mime

def needsWholeFile (mime : Text) : Bool := mime = txt "application/pdf"

def minPdfChars : ℕ := 80

def usableText (text mime : Text) : Bool :=
  text ≠ [] && !(mime = txt "application/pdf" && text.length < minPdfChars)

end ObserverClub.Extract
