import Mathlib.Data.Nat.Log
import Mathlib.Data.Rat.Defs
import ObserverClub.Library.Decimal

namespace Library

/-- Binary64 numbers; a finite one by its value, the negative zero apart. -/
inductive Binary64 where
  | fin (q : ℚ)
  | negZero
  | inf (neg : Bool)
  | nan
  deriving DecidableEq

namespace Binary64

def halfEven (q : ℚ) : ℤ :=
  if q - q.floor < 1 / 2 then q.floor
  else if 1 / 2 < q - q.floor then q.floor + 1
  else if q.floor % 2 = 0 then q.floor
  else q.floor + 1

def power (b : ℕ) (e : ℤ) : ℚ := if 0 ≤ e then (b ^ e.toNat : ℕ) else mkRat 1 (b ^ (-e).toNat)

/-- The exponent of the leading bit of a positive number. -/
def leading (a : ℚ) : ℤ :=
  let e : ℤ := (Nat.log2 a.num.natAbs : ℤ) - Nat.log2 a.den
  if power 2 e ≤ a then e else e - 1

def signed (neg : Bool) (a : ℚ) : Binary64 :=
  if a = 0 then (if neg then negZero else fin 0) else fin (if neg then -a else a)

def round (neg : Bool) (a : ℚ) : Binary64 :=
  if a = 0 then signed neg 0
  else
    let u := max (leading a - 52) (-1074)
    let v := halfEven (a / power 2 u) * power 2 u
    if power 2 1024 ≤ v then inf neg else signed neg v

def ofInt (i : ℤ) : Binary64 := round (i < 0) i.natAbs

def ofRat (q : ℚ) : Binary64 := round (q < 0) |q|

/-- The exponent of the leading decimal digit of a positive number. -/
def leadingDecimal (a : ℚ) : ℤ :=
  if 1 ≤ a then Nat.log 10 a.floor.natAbs else -Nat.clog 10 (1 / a).ceil.natAbs

/-- The closest decimal of `k` digits that reads back as `a`, as digits and exponent. -/
def digitsOfLength (a : ℚ) (k : ℕ) : Option (ℕ × ℤ) :=
  let e := leadingDecimal a - k + 1
  let lo := (a / power 10 e).floor.natAbs
  let back := fun m : ℕ => decide (round false (m * power 10 e) = fin a)
  let near := if halfEven (a / power 10 e) = lo then [lo, lo + 1] else [lo + 1, lo]
  (near.find? back).map (·, e)

def shortest (a : ℚ) : ℕ × ℤ :=
  ((List.range 17).findSome? (fun k => digitsOfLength a (k + 1))).getD (0, 0)

def padded (n : ℕ) (w : ℕ) : Text := List.replicate (w - (decimal n).length) 48 ++ decimal n

/-- Digits `m` with the point after `point` of them, trailing zeros dropped. -/
def layout (m : ℕ) (e : ℤ) : Text :=
  let ds := ((decimal m).reverse.dropWhile (· = 48)).reverse
  let point := (decimal m).length + e
  if -4 < point ∧ point ≤ 16 then
    if point ≤ 0 then txt "0." ++ List.replicate (-point).toNat 48 ++ ds
    else if ds.length ≤ point.toNat then
      ds ++ List.replicate (point.toNat - ds.length) 48 ++ txt ".0"
    else ds.take point.toNat ++ [46] ++ ds.drop point.toNat
  else
    ds.take 1 ++ (if ds.length ≤ 1 then [] else 46 :: ds.drop 1) ++
      (if point - 1 < 0 then txt "e-" else txt "e+") ++ padded (point - 1).natAbs 2

/-- The shortest decimal that reads back as the number. -/
def repr : Binary64 → Text
  | fin q =>
    if q = 0 then txt "0.0"
    else (if q < 0 then [45] else []) ++ layout (shortest |q|).1 (shortest |q|).2
  | negZero => txt "-0.0"
  | inf neg => if neg then txt "-inf" else txt "inf"
  | nan => txt "nan"

def isZero (x : Binary64) : Bool := x = fin 0 || x = negZero

end Binary64

end Library
