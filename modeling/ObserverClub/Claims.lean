import ObserverClub.Go
import ObserverClub.Library.Decimal
import ObserverClub.Limit

/-!
The tracker of `claims.go`: one claim in flight for each publisher.
-/

namespace ObserverClub

open Library

namespace Go

def maxInt64 : ℤ := 2 ^ 63 - 1

def minInt64 : ℤ := -2 ^ 63

/-- `strconv.ParseInt(s, 10, 64)` -/
def parseInt64 (s : Text) : Option ℤ :=
  let (negative, digits) := match s with
    | 45 :: ds => (true, ds)
    | 43 :: ds => (false, ds)
    | ds => (false, ds)
  let value : ℤ := if negative then -(digitsValue digits : ℤ) else digitsValue digits
  if digits ≠ [] ∧ digits.all isDigit ∧ minInt64 ≤ value ∧ value ≤ maxInt64 then some value else none

def unixToInternal : ℤ := 62135596800

/-- `time.Unix(n, 0)`; the count of seconds wraps. -/
def unix (n : ℤ) : Time := (n + unixToInternal).bmod (2 ^ 64) * second

/-- `stringOf`: a member that is not a string counts as empty. -/
def stringOf (m : Value) (key : String) : Text :=
  match item m key with
  | .str t => t
  | _ => []

end Go

namespace Claims

structure Slot where
  cid : Text
  untilTime : Time

structure ClaimTracker where
  live : Text → Option Slot

def new : ClaimTracker := ⟨fun _ => none⟩

/-- `Allow`, which reads the clock twice. -/
def allow (now now' : Time) (t : ClaimTracker) (publisher cid : Text) (untilTime : Time) : Bool × ClaimTracker :=
  if publisher = [] ∨ cid = [] then (true, t)
  else if untilTime = 0 ∨ ¬now < untilTime then (false, t)
  else
    let claimed : ClaimTracker := ⟨Function.update t.live publisher (some ⟨cid, untilTime⟩)⟩
    match t.live publisher with
    | some cur => if now' < cur.untilTime ∧ cur.cid ≠ cid then (false, t) else (true, claimed)
    | none => (true, claimed)

def clear (t : ClaimTracker) (publisher cid : Text) : ClaimTracker :=
  if publisher = [] then t
  else match t.live publisher with
    | some cur => if cid = [] ∨ cur.cid = cid then ⟨Function.update t.live publisher none⟩ else t
    | none => t

def untilOf (m : Go.Value) : Time :=
  match Go.item m "until" with
  | .num lit => ((Go.parseInt64 lit).map Go.unix).getD 0
  | _ => 0

end Claims

end ObserverClub
