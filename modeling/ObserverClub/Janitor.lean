import ObserverClub.Work

/-!
`janitor.py`: the rows that go when the work database takes up too much of the disk.
-/

namespace ObserverClub.Work

open Library Python Indexer

/-- `BATCH` -/
def batchSize : ℕ := 500

/-- `_SCORE` -/
def score (now : ℚ) (r : Queued) : ℚ := r.peerCount / (1 + max 0 ((now - r.lastSeen) / 604800))

def indexedLast (r : Queued) : ℕ := if r.status = .indexed then 1 else 0

/-- The rows that `_evict_batch` selects. -/
def evictable (now : ℚ) : Op (List Queued) := do
  let rows ← selectRows fun _ => true
  let sorted := rows.insertionSort fun a b =>
    score now a < score now b ∨ (score now a = score now b ∧ indexedLast a ≤ indexedLast b)
  return sorted.take batchSize

/-- The CID goes, and comes back when more than `peers` want it. -/
def evict (cid : Text) (peers : ℤ) (now : ℚ) : Op Unit := do
  modify fun t => { t with evicted := Table.put Prod.fst (cid, (peers, now)) t.evicted }
  forgetCid cid

def evictRows (now : ℚ) : List Queued → Op Unit
  | [] => pure ()
  | r :: rows => do
    evict r.cid r.peerCount now
    evictRows now rows

/-- `_evict_batch` -/
def evictBatch (now : ℚ) : Op ℕ := do
  let rows ← evictable now
  evictRows now rows
  return rows.length

end ObserverClub.Work
