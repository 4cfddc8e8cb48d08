import ObserverClub.Store

/-!
`labels.py`: who has judged a CID independently.
-/

namespace ObserverClub.Labels

open Library Python Catalog Store

variable (py : Interpreter)

/-- `_classifier_kind` -/
def classifierKind (c : Classify) : Except Error Text := do
  let raw := orEmpty c.classifier
  if raw = [] then return txt "llm"
  else
    match loads py raw with
    | .error .valueError => return txt "llm"
    | .error e => throw e
    | .ok (.obj m) => str py (either (item (.obj m) "kind") (.str (txt "llm")))
    | .ok _ => return txt "llm"

/-- The rows of a CID, earliest first. -/
def votes (t : Tables) (cid : Text) : List Classify :=
  (classifiesOf cid t).insertionSort fun a b => a.receivedAt ≤ b.receivedAt

def independent : List Classify → Except Error (List Classify)
  | [] => return []
  | c :: cs => do
    let kind ← classifierKind py c
    let rest ← independent cs
    return if kind = txt "reuse" then rest else c :: rest

/-- `_latest_per_publisher`, in the order of the first row of each. -/
def latestPerPublisher (rows : List Classify) : List Classify :=
  rows.foldl (fun acc r =>
    match acc.find? (fun p => p.publisher = r.publisher) with
    | none => acc ++ [r]
    | some prev =>
      if prev.receivedAt ≤ r.receivedAt then acc.map fun p => if p.publisher = r.publisher then r else p else acc) []

/-- `independent_publishers` -/
def independentPublishers (t : Tables) (cid : Text) : Except Error (List Text) := do
  let rows ← independent py (votes t cid)
  return (latestPerPublisher rows).map Classify.publisher

end ObserverClub.Labels
