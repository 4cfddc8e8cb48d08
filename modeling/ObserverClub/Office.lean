import ObserverClub.GossipDiscipline
import ObserverClub.Labels
import ObserverClub.Library.Runs
import ObserverClub.Work
import Mathlib.Logic.Function.Basic

namespace ObserverClub

open Library Library.Program Python Indexer Catalog Store

namespace Indexer

def workerError : Error → Text
  | .sqliteError => txt "db_locked"
  | _ => txt "worker_error"

def putBack (row : Row) (e : Error) : Columns where
  error := some (some (workerError e))
  attempts := some row.attempts

/-- What `worker_loop` does with a row: one that raised goes back. -/
def attend (w : Worker) (row : Row) : Program Answer Unit :=
  (processOne w row).run.bind fun
    | .ok _ => .done ()
    | .error e => .act (.mark row.cid .discovered (putBack row e)) fun _ => .done ()

def Action.settles : Action → Option Text
  | .mark cid _ _ => some cid
  | .forgetCid cid => some cid
  | .dropDirectory cid => some cid
  | .rememberBinary cid _ => some cid
  | _ => none

def settling (e : Event Answer) : Bool :=
  e.1.settles.isSome && match e.2 with
    | .ok _ => true
    | .error _ => false

def settled (events : List (Event Answer)) : Bool := events.any settling

end Indexer

/-- A worker's row, what it has done with it, and what is left to do. -/
structure Job where
  row : Row
  events : List (Event Answer)
  rest : Program Answer Unit

namespace Job

def start (w : Worker) (row : Row) : Job := ⟨row, [], attend w row⟩

/-- The worker can go on to another row. -/
def finished (job : Job) : Bool := job.rest.result.isSome && settled job.events

end Job

structure Office where
  catalog : Catalog.Tables
  queue : Work.Tables
  jobs : ℕ → Option Job

/-- What a call finds outside the two databases. -/
structure World where
  raises : Option Error
  now : ℚ
  catalogued : Text → Bool
  external : (a : Action) → Reply a

namespace Office

/-- `store.local_classified`, given this node's id. -/
def localClassified (me : Option Text) (t : Catalog.Tables) (cid : Text) : Bool :=
  orEmpty me ≠ [] && t.classifies.any fun c => c.cid = cid && c.publisher = orEmpty me

def docRow (d : Doc) : Preferred := ⟨d.cid, d.publisher, d.description, d.receivedAt⟩

def classifyRow (c : Classify) : Preferred := ⟨c.cid, c.publisher, c.description, c.receivedAt⟩

/-- The queries. -/
def query (py : Interpreter) (t : Catalog.Tables) : (a : Action) → Option (Answer a)
  | .docOf cid => some (.ok ((Table.row? Doc.cid cid t.docs).map docRow))
  | .firstClassifyOf cid => some (.ok ((earliest (classifiesOf cid t)).map classifyRow))
  | .claimOf cid now me => some (.ok (foreignClaim me now t cid))
  | .skipOf cid => some (.ok (Table.row? Skip.cid cid t.skips))
  | .localClassified cid me => some (.ok (t.classifies.any fun c => c.cid = cid && c.publisher = me))
  | .needsReview cid => some (.ok (t.reports.any fun r => r.cid = cid && r.reason = txt "wrong"))
  | .independentPublishers cid => some (Labels.independentPublishers py t cid)
  | .docByHash hash => some (.ok ((t.docs.find? fun d => d.description.textSha256 = some hash).map docRow))
  | .classifyByHash hash =>
    some (.ok ((earliest (t.classifies.filter fun c => c.description.textSha256 = some hash)).map classifyRow))
  | _ => none

variable (w : Worker) (cfg : Work.Config)

def queueing (world : World) : (a : Action) → Option (Work.Op (Reply a))
  | .forgetCid cid => some (Work.forgetCid cid)
  | .mark cid status columns => some (Work.mark cid status columns)
  | .bumpAttempts cid attempts => some (Work.bumpAttempts cid attempts)
  | .noteFetch cid retrieved => some (Work.noteFetch cid retrieved world.now)
  | .enqueueDocChildren links skipCid =>
    some (Work.enqueueDocChildren cfg w.chars world.catalogued links skipCid world.now)
  | .dropDirectory cid => some (Work.dropDirectory cid world.now)
  | .rememberBinary cid mime => some (Work.rememberBinary cid mime world.now)
  | _ => none

/-- A call that raises leaves all as it was; the clock and the lease never raise. -/
def serve (world : World) (s : Office) (a : Action) : Answer a × Office :=
  if a.leases then (.ok (world.external a), s)
  else
    match world.raises with
    | some e => (.error e, s)
    | none =>
      match queueing w cfg world a with
      | some op => (.ok (op.run s.queue).1, { s with queue := (op.run s.queue).2 })
      | none => ((query w.observer.py s.catalog a).getD (.ok (world.external a)), s)

inductive Turn where
  | take (i : ℕ) (now : ℚ)
  | act (i : ℕ) (world : World)
  | review (cid : Text) (me : Option Text) (now : ℚ)
  | sight (s : Work.Sighting) (now : ℚ)
  | prune (now now' : ℚ)
  | expire (now : ℚ)
  | gossip (catalog : Catalog.Tables)

/-- A worker that has nothing to do asks for one row. -/
def take (i : ℕ) (now : ℚ) (s : Office) : Office :=
  let taken := (Work.takeBatch cfg now 1).run s.queue
  { s with
    queue := taken.2
    jobs := Function.update s.jobs i (taken.1.head?.map (Job.start w)) }

/-- A worker makes its next call. -/
def act (i : ℕ) (world : World) (s : Office) : Office :=
  match s.jobs i with
  | some ⟨row, events, .act a next⟩ =>
    let served := serve w cfg world s a
    { served.2 with jobs := Function.update s.jobs i (some ⟨row, events ++ [⟨a, served.1⟩], next served.1⟩) }
  | _ => s

def step (s : Office) : Turn → Office
  | .take i now => if (s.jobs i).all Job.finished then take w cfg i now s else s
  | .act i world => act w cfg i world s
  | .review cid me now =>
    { s with queue :=
        ((Work.enqueueReview cfg w.observer.upper (localClassified me s.catalog cid) cid now).run s.queue).2 }
  | .sight sighting now => { s with queue := ((Work.record cfg w.observer.upper sighting now).run s.queue).2 }
  | .prune now now' => { s with queue := ((Work.prune cfg now now').run s.queue).2 }
  | .expire now => { s with queue := ((Work.expireLocalSkips cfg now).run s.queue).2 }
  | .gossip catalog => { s with catalog := catalog }

def opening (catalog : Catalog.Tables) : Office := ⟨catalog, Work.empty, fun _ => none⟩

/-- A worker holds a CID from the moment it is handed the row to its final mark. -/
def Holds (s : Office) (i : ℕ) (cid : Text) : Prop :=
  ∃ job, s.jobs i = some job ∧ job.row.cid = cid ∧ settled job.events = false

end Office

end ObserverClub
