import Mathlib.Data.List.Sort
import ObserverClub.Store

/-!
The catch-up snapshot of `store.py`: the signed messages that late joiners are served.
-/

namespace ObserverClub.Store

open Library Python Catalog

/-- `ORDER BY m.received_at DESC`, of rows as they are found: those received at one time stay in that order. -/
def newestFirst (found : List Message) : List Message := found.insertionSort (fun a b => b.receivedAt ≤ a.receivedAt)

/-- `instr(m.body, '"sig":') > 0` -/
def signedBody (m : Message) : Bool := decide (txt "\"sig\":" <:+: m.body)

def isSnapshotDoc (t : Tables) (m : Message) : Bool :=
  signedBody m && (m.kind = txt "classify" ||
    m.kind = txt "alias" && t.aliases.any (fun a => a.payloadHash = m.payloadHash) || m.kind = txt "report")

def scopeReasons : List Text := [txt "out_of_scope", txt "not_academic"]

def isSnapshotSkip (t : Tables) (m : Message) : Bool :=
  signedBody m && m.kind = txt "skip" &&
    t.skips.any (fun s => s.cid = m.cid && decide (∃ r ∈ scopeReasons, s.reason = some r))

def docOrder (m : Message) : ℕ := if m.kind = txt "classify" then 0 else if m.kind = txt "alias" then 1 else 2

/-- `_SNAPSHOT_DOCS_SQL` goes through `idx_messages_kind_time` once for each kind. -/
def foundDocs (t : Tables) : List Message :=
  (t.messages.filter (isSnapshotDoc t)).insertionSort (fun a b => docOrder a ≤ docOrder b)

/-- `_SNAPSHOT_SKIPS_SQL` goes through `idx_messages_kind_time` backwards. -/
def foundSkips (t : Tables) : List Message := (t.messages.filter (isSnapshotSkip t)).reverse

/-- The newest `n` rows, oldest first. -/
def latestRows (found : List Message) (n : ℕ) : List Message :=
  (((newestFirst found).take n).filter (fun m => m.body ≠ [])).reverse

/-- The rows whose bodies are the lines of the snapshot. -/
def snapshotRows (limit : ℤ) (t : Tables) : List Message :=
  let docs := latestRows (foundDocs t) limit.toNat
  docs ++ latestRows (foundSkips t) (limit.toNat - docs.length)

/-- `export_snapshot` -/
def exportSnapshot (limit : ℤ) (t : Tables) : Text :=
  (snapshotRows limit t).flatMap fun m => m.body ++ [10]

theorem newestFirst_perm (found : List Message) : (newestFirst found).Perm found := List.perm_insertionSort _ _

theorem foundDocs_perm (t : Tables) : (foundDocs t).Perm (t.messages.filter (isSnapshotDoc t)) := List.perm_insertionSort _ _

theorem foundSkips_perm (t : Tables) : (foundSkips t).Perm (t.messages.filter (isSnapshotSkip t)) := List.reverse_perm _

theorem mem_foundDocs {t : Tables} {m : Message} : m ∈ foundDocs t ↔ m ∈ t.messages ∧ isSnapshotDoc t m = true := by
  rw [(foundDocs_perm t).mem_iff, List.mem_filter]

theorem mem_foundSkips {t : Tables} {m : Message} : m ∈ foundSkips t ↔ m ∈ t.messages ∧ isSnapshotSkip t m = true := by
  rw [(foundSkips_perm t).mem_iff, List.mem_filter]

theorem mem_latestRows {found : List Message} {n : ℕ} {m : Message} (h : m ∈ latestRows found n) : m ∈ found := by
  rw [latestRows, List.mem_reverse, List.mem_filter] at h
  exact (newestFirst_perm found).mem_iff.mp (List.mem_of_mem_take h.1)

theorem mem_snapshotRows {limit : ℤ} {t : Tables} {m : Message} (h : m ∈ snapshotRows limit t) :
    m ∈ t.messages ∧ signedBody m = true := by
  rw [snapshotRows] at h
  obtain h | h := List.mem_append.mp h
  · obtain ⟨hm, ht⟩ := mem_foundDocs.mp (mem_latestRows h)
    rw [isSnapshotDoc, Bool.and_eq_true] at ht
    exact ⟨hm, ht.1⟩
  · obtain ⟨hm, ht⟩ := mem_foundSkips.mp (mem_latestRows h)
    rw [isSnapshotSkip, Bool.and_eq_true, Bool.and_eq_true] at ht
    exact ⟨hm, ht.1.1⟩

end ObserverClub.Store
