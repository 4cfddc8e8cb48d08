import Mathlib.Algebra.Order.Field.Rat
import Mathlib.Data.List.Lex
import Mathlib.Logic.Function.Basic
import ObserverClub.CatalogRuns
import ObserverClub.Inbox

/-!
`drain_once` of `ingest.py` as the steps between which the process may stop: each line that is ingested,
each file that is removed, the offsets saved, the claims expired.
-/

namespace ObserverClub.Ingest

open Library Python Sqlite Catalog Store

structure File where
  name : Text
  content : Bytes
  mtime : ℚ

structure Config where
  inboxKeepDays : ℤ
  inboxMaxBytes : ℤ

/-- The inbox, the saved offsets of its files by name, and the catalog. -/
structure Disk where
  files : List File
  distinct : (files.map File.name).Nodup
  offsets : Text → Option ℕ
  conn : Conn

/-- The clock as one drain reads it, and the files that can be removed; a review that is asked for is queued. -/
structure Readings where
  clock : ℕ → Surroundings
  queued : ∀ i, (clock i).review = .ok ()
  today : Text
  pruned : ℚ
  expired : ℚ
  expired' : ℚ
  removable : Text → Bool

section Reading

/-- The files of the inbox in the order of their names. -/
def jsonl (files : List File) : List File :=
  (files.filter fun f => (txt ".jsonl").isSuffixOf f.name).mergeSort fun f g => f.name ≤ g.name

def seek (f : File) (saved : Option ℕ) : ℕ := if f.content.length < saved.getD 0 then 0 else saved.getD 0

/-- The complete lines that have not been read, and what follows the last of them. -/
def unread (f : File) (saved : Option ℕ) : List Bytes × Bytes := records 10 (f.content.drop (seek f saved))

def position (f : File) (saved : Option ℕ) : ℕ := f.content.length - (unread f saved).2.length

def advanced (files : List File) (offsets : Text → Option ℕ) : Text → Option ℕ :=
  files.foldl (fun offsets f => Function.update offsets f.name (some (position f (offsets f.name)))) offsets

def lines (d : Disk) : List Bytes := (jsonl d.files).flatMap fun f => (unread f (d.offsets f.name)).1

end Reading

section Pruning

/-- What `prune_inbox` has removed so far, and the size of what is left. -/
structure Pruning where
  total : ℤ
  removed : List Text

def Pruning.remove (r : Readings) (p : Pruning) (f : File) : Pruning :=
  if f.name = r.today ∨ !r.removable f.name ∨ f.name ∈ p.removed then p
  else ⟨p.total - f.content.length, p.removed ++ [f.name]⟩

/-- `prune_inbox`: the files that it removes. -/
def pruneInbox (cfg : Config) (r : Readings) (offsets : Text → Option ℕ) (files : List File) : List Text :=
  let cutoff := r.pruned - cfg.inboxKeepDays * 86400
  let listed : Pruning := ⟨(files.map fun f => (f.content.length : ℤ)).sum, []⟩
  let consumed := files.foldl (fun (p : Pruning) f =>
    if f.name ≠ r.today ∧ f.content.length ≤ (offsets f.name).getD 0 ∧ f.mtime < cutoff then p.remove r f else p) listed
  (files.foldl (fun (p : Pruning) f => if p.total ≤ cfg.inboxMaxBytes then p else p.remove r f) consumed).removed

end Pruning

inductive Act where
  | line (w : Surroundings) (raw : Bytes)
  | remove (name : Text)
  | save (offsets : Text → Option ℕ)
  | expire (now now' : ℚ)

def closing (cfg : Config) (r : Readings) (d : Disk) : List Act :=
  let offsets := advanced (jsonl d.files) d.offsets
  let removed := pruneInbox cfg r offsets (jsonl d.files)
  removed.map .remove ++
    [.save (removed.foldl (fun offsets name => Function.update offsets name none) offsets), .expire r.expired r.expired']

/-- The lines of a drain, each with what surrounds its ingestion. -/
def timed (r : Readings) (d : Disk) : List (Surroundings × Bytes) := (lines d).zipIdx.map fun p => (r.clock p.2, p.1)

/-- `drain_once`, step by step. -/
def drainOnce (cfg : Config) (r : Readings) (d : Disk) : List Act :=
  (timed r d).map (fun p => .line p.1 p.2) ++ closing cfg r d

section Performing

variable (o : Observer)

/-- One line of the inbox; only a `ValueError` of its parsing is caught. -/
def ingestLine (w : Surroundings) (raw : Bytes) : Db Unit :=
  if trim isSpaceByte raw = [] then pure ()
  else match Python.loadsBytes o.py (trim isSpaceByte raw) with
    | .ok obj => Store.discard (ingestMessage o w obj)
    | .error .valueError => pure ()
    | .error e => Txn.lift (.error e)

def exec (d : Disk) : Act → Except Error Unit × Disk
  | .line w raw => ((ingestLine o w raw d.conn).1, { d with conn := (ingestLine o w raw d.conn).2 })
  | .remove name => (.ok (), { d with
      files := d.files.filter (fun f => f.name ≠ name)
      distinct := d.distinct.sublist (List.filter_sublist.map File.name) })
  | .save offsets => (.ok (), { d with offsets := offsets })
  | .expire now now' => ((expireClaims o now now' d.conn).1, { d with conn := (expireClaims o now now' d.conn).2 })

def perform : List Act → Disk → Except Error Unit × Disk
  | [], d => (.ok (), d)
  | a :: acts, d =>
    match exec o d a with
    | (.ok _, d) => perform acts d
    | (.error e, d) => (.error e, d)

def Disk.crash (d : Disk) : Disk := { d with conn := ⟨d.conn.committed, none⟩ }

/-- A drain that stops after its first steps. -/
structure Attempt where
  steps : ℕ
  readings : Readings

def attempt (cfg : Config) (d : Disk) (a : Attempt) : Disk :=
  (perform o ((drainOnce cfg a.readings d).take a.steps) d).2.crash

/-- A drain that is not interrupted. -/
def drained (cfg : Config) (r : Readings) (d : Disk) : Except Error Unit × Disk := perform o (drainOnce cfg r d) d

end Performing

end ObserverClub.Ingest
