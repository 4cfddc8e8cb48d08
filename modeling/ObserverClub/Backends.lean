import Mathlib.Algebra.Order.Field.Rat
import Mathlib.Logic.Function.Basic
import ObserverClub.Library.Runs
import ObserverClub.Replies

/-!
The backends of `classify.py`: any number of workers, each in a call of `classify` of its own, share the hosts and
wait for one another at their slots.
-/

namespace ObserverClub.Classify

open Library Python Catalog

/-- A row of `llm.enabled()`. -/
structure Provider where
  id : Text
  needsKey : Bool
  model : Text

/-- `_Host`; its slot is a semaphore of one. -/
structure Host where
  free : Bool
  pauseUntil : ℚ
  backoff : ℚ
  chatGap : ℚ
  lastChat : ℚ
  last429 : ℚ
  availTs : Option ℚ
  availOk : Bool
  probing : Bool
  model : Text

namespace Host

/-- `_Host.__init__` -/
def new : Host := ⟨true, 0, 20, 4, 0, 0, none, false, false, []⟩

variable (h : Host) (now : ℚ)

def isPaused : Bool := h.pauseUntil ≠ 0 && now < h.pauseUntil

/-- `max(20.0, min(float(seconds), 300.0))`; what is no number compares as neither less nor greater. -/
def clamped : Binary64 → ℚ
  | .fin q => max 20 (min q 300)
  | .inf false => 300
  | _ => 20

def pause (seconds : Binary64) : Host :=
  { h with
    pauseUntil := max h.pauseUntil (now + clamped seconds)
    availOk := false
    availTs := some now }

def noteSuccess : Host := if 4 < h.chatGap then { h with chatGap := max 4 (h.chatGap - 1 / 2) } else h

/-- `max(_retry_after(resp) or 0.0, self.backoff)` -/
def backedOff (retryAfter : Option Binary64) (backoff : ℚ) : Binary64 :=
  match retryAfter with
  | some (.fin q) => .fin (max q backoff)
  | some (.inf false) => .inf false
  | some .nan => .nan
  | some (.inf true) => .fin backoff
  | some .negZero => .fin (max 0 backoff)
  | none => .fin (max 0 backoff)

def onRateLimit (retryAfter : Option Binary64) : Host :=
  let backoff := if h.last429 ≠ 0 ∧ 180 < now - h.last429 then 20 else h.backoff
  { h.pause now (backedOff retryAfter backoff) with
    backoff := min (backoff * 2) 300
    chatGap := min (max h.chatGap 4 + 4) 16
    last429 := now }

/-- The gap that `pace` keeps. -/
def gap (remote : Bool) : ℚ := if !remote && h.chatGap ≤ 4 then 0 else h.chatGap

/-- How long `pace` sleeps. -/
def wait (remote : Bool) : ℚ := if 0 < h.lastChat ∧ 0 < h.gap remote then h.gap remote - (now - h.lastChat) else 0

/-- `_host_up` up to its request, which is not made where there is an answer already. -/
def look : Option Bool × Host :=
  if h.pauseUntil ≠ 0 ∧ now < h.pauseUntil then (some false, h)
  else
    let h := if h.pauseUntil ≠ 0 then { h with pauseUntil := 0, availTs := none } else h
    if h.availTs.any fun ts => now - ts < (if h.availOk then 60 else 5) then (some h.availOk, h)
    else if h.probing then (some h.availOk, h)
    else (none, { h with probing := true })

def looked (ok : Bool) : Host := { h with availOk := ok, availTs := some now, probing := false }

end Host

/-- A provider, and which of the host objects stands for it. -/
structure Backend where
  provider : Provider
  object : ℕ

/-- The attempt that `_request` is at: the characters it may send, those of the attempts to come, and how many forms
of the payload are left after this one. -/
structure Left where
  chars : ℤ
  later : List ℤ
  forms : ℕ

/-- What a request comes back with; any other exception than those of `requests` is not caught. -/
inductive Answer (α : Type) where
  | ok (body : α)
  | status (code : ℕ) (retryAfter : Option Binary64)
  | lost
  | broken

inductive Result where
  | found (d : Derived) (model provider : Text)
  | nothing
  | raised

/-- How far a call of `classify` has got. -/
inductive Stage where
  | choosing
  | waiting (b : Backend)
  | entered (b : Backend)
  | naming (b : Backend) (left : Left)
  | pacing (b : Backend) (left : Left)
  | sleeping (b : Backend) (left : Left) (wake : ℚ)
  | asking (b : Backend) (left : Left)
  | done (r : Result)

structure Job where
  tried : List Text
  stage : Stage

/-- A request to the chat API, with the gap kept before it and the end of the last pause of its host. -/
structure Start where
  job : ℕ
  backend : Backend
  time : ℚ
  gap : ℚ
  pauseUntil : ℚ

/-- The hosts there have been, the ones in use now, and the calls and the requests made so far, the last one first. -/
structure Pool where
  clock : ℚ
  objects : List Host
  index : Text → Option ℕ
  jobs : List Job
  starts : List Start

/-- The clock, the providers and the answers as a step reads them. -/
structure Reading where
  now : ℚ
  enabled : List Provider
  named : Answer Text
  reply : Answer Value

section Choosing

/-- `_ensure_host` -/
def ensureHost (id : Text) (p : Pool) : ℕ × Pool :=
  match p.index id with
  | some k => (k, p)
  | none => (p.objects.length, { p with
      objects := p.objects ++ [Host.new]
      index := Function.update p.index id (some p.objects.length) })

/-- The loop of `_choose`. -/
def readyHosts (tried : List Text) (now : ℚ) : List Provider → Pool → List Backend × Pool
  | [], p => ([], p)
  | prov :: rest, p =>
    if prov.id ∈ tried then readyHosts tried now rest p
    else
      let (k, q) := ensureHost prov.id p
      let (bs, u) := readyHosts tried now rest q
      (if (q.objects[k]?).any fun h => h.isPaused now then bs else ⟨prov, k⟩ :: bs, u)

def Pool.lastChat (p : Pool) (b : Backend) : ℚ := ((p.objects[b.object]?).map Host.lastChat).getD 0

/-- The first of those that have been idle for longest. -/
def longestIdle (p : Pool) : List Backend → Option Backend
  | [] => none
  | b :: bs =>
    match longestIdle p bs with
    | none => some b
    | some c => if p.lastChat c < p.lastChat b then some c else some b

end Choosing

section Calls

variable (o : Observer) (depth : ℕ) (maxChars : ℤ)

def leave (h : Host) (st : Stage) : Host × Stage := ({ h with free := true }, st)

/-- What `classify` does about an HTTP error. -/
def failed (b : Backend) (h : Host) (left : Left) (now : ℚ) (code : ℕ) (retryAfter : Option Binary64) : Host × Stage :=
  if code = 400 ∧ 300 < left.chars then
    match left.later with
    | [] => leave h .choosing
    | chars :: later => (h, .naming b ⟨chars, later, 2⟩)
  else if code = 401 then leave (h.pause now (.fin 60)) .choosing
  else if code = 402 then leave (h.pause now (.fin 300)) .choosing
  else if code = 429 then leave (h.onRateLimit now retryAfter) .choosing
  else leave h .choosing

def inside (h : Host) (r : Reading) : Stage → Host × Stage
  | .entered b =>
    if h.isPaused r.now then leave h .choosing
    else (h, .naming b ⟨maxChars, [maxChars / 2, maxChars / 4], 2⟩)
  | .naming b left =>
    if h.model ≠ [] then (h, .pacing b left)
    else if b.provider.model ≠ [] then ({ h with model := b.provider.model }, .pacing b left)
    else
      match r.named with
      | .ok name => ({ h with model := name }, .pacing b left)
      | .status code retryAfter => failed b h left r.now code retryAfter
      | .lost => leave h .choosing
      | .broken => leave h (.done .raised)
  | .pacing b left =>
    if h.isPaused r.now then leave h .choosing
    else if 0 < h.wait r.now b.provider.needsKey then (h, .sleeping b left (r.now + h.wait r.now b.provider.needsKey))
    else ({ h with lastChat := r.now }, .asking b left)
  | .sleeping b left wake =>
    if wake ≤ r.now then ({ h with lastChat := r.now }, .asking b left) else (h, .sleeping b left wake)
  | .asking b left =>
    match r.reply with
    | .ok message =>
      match parseMeta o depth message with
      | .ok (some d) =>
        leave h.noteSuccess (.done (.found d (if h.model ≠ [] then h.model else b.provider.model) b.provider.id))
      | .ok none => leave h .choosing
      | .error _ => leave h (.done .raised)
    | .status code retryAfter =>
      if code = 400 ∧ 0 < left.forms then (h, .naming b { left with forms := left.forms - 1 })
      else failed b h left r.now code retryAfter
    | .lost => leave h .choosing
    | .broken => leave h (.done .raised)
  | st => (h, st)

def Stage.asks : Stage → Bool
  | .asking _ _ => true
  | _ => false

/-- The backend whose slot a call holds. -/
def Stage.holds : Stage → Option Backend
  | .entered b => some b
  | .naming b _ => some b
  | .pacing b _ => some b
  | .sleeping b _ _ => some b
  | .asking b _ => some b
  | _ => none

/-- What call `i` does next. -/
def go (p : Pool) (i : ℕ) (job : Job) (r : Reading) : Pool :=
  match job.stage with
  | .done _ => p
  | .choosing =>
    let (ready, q) := readyHosts job.tried r.now r.enabled p
    match longestIdle q ready with
    | none => { q with jobs := q.jobs.set i { job with stage := .done .nothing } }
    | some b => { q with jobs := q.jobs.set i ⟨b.provider.id :: job.tried, .waiting b⟩ }
  | .waiting b =>
    match p.objects[b.object]? with
    | none => p
    | some h =>
      if h.free then { p with
        objects := p.objects.set b.object { h with free := false }
        jobs := p.jobs.set i { job with stage := .entered b } }
      else p
  | st =>
    match st.holds with
    | none => p
    | some b =>
      match p.objects[b.object]? with
      | none => p
      | some h =>
        let (h', st') := inside o depth maxChars h r st
        { p with
          objects := p.objects.set b.object h'
          jobs := p.jobs.set i { job with stage := st' }
          starts := if st'.asks && !st.asks then
              ⟨i, b, r.now, h.gap b.provider.needsKey, h.pauseUntil⟩ :: p.starts
            else p.starts }

inductive Event where
  | start
  | step (i : ℕ) (r : Reading)
  | look (id : Text) (now : ℚ)
  | looked (k : ℕ) (ok : Bool) (now : ℚ)
  | reset

def Event.now : Event → Option ℚ
  | .step _ r => some r.now
  | .look _ now => some now
  | .looked _ _ now => some now
  | _ => none

def act (p : Pool) : Event → Pool
  | .start => { p with jobs := p.jobs ++ [⟨[], .choosing⟩] }
  | .step i r =>
    match p.jobs[i]? with
    | none => p
    | some job => go o depth maxChars p i job r
  | .look id now =>
    let (k, q) := ensureHost id p
    { q with objects := q.objects.modify k fun h => (h.look now).2 }
  | .looked k ok now => { p with objects := p.objects.modify k fun h => if h.probing then h.looked now ok else h }
  | .reset => { p with index := fun _ => none }

def poolStep (p : Pool) (e : Event) : Pool := act o depth maxChars { p with clock := e.now.getD p.clock } e

/-- No call, and no host in use; the clock has begun to run. -/
def idle (clock : ℚ) : Pool := ⟨clock, [], fun _ => none, [], []⟩

end Calls

end ObserverClub.Classify
